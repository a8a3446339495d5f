import Ztmux.Grids.Cell

/-!
Moving and clearing lines.

Lines are moved as a block, the places that they have left are emptied, and a second clear empties
what the move has not. A line is the same line wherever it is, but for the flag that it goes
on in the next: this is cleared on the line above a block that is moved or emptied.
-/

namespace Ztmux.Grids

/-! ### Model -/

/-- A line does not go on in the next. -/
def unwrapLine (lines : List GridLine) (py : Nat) : List GridLine :=
  lines.modify py fun gl => { gl with flags := { gl.flags with wrapped := false } }

/-- Empty `n` lines from `yy` on, but for those that are skipped. -/
def emptyLines (gsx : Nat) (bg : UInt32) (skip : Nat → Bool) :
    Nat → Nat → List GridLine → List GridLine
  | 0, _, lines => lines
  | n + 1, yy, lines =>
      emptyLines gsx bg skip n (yy + 1)
        (if skip yy then lines else lines.set yy (gridEmptyLine gsx bg))

/-- Copy `n` members of a list from `src` to `dst`; they may overlap. -/
def copyWithin {α : Type} (dst src n : Nat) (l : List α) : List α :=
  l.take dst ++ (l.drop src).take n ++ l.drop (dst + n)

def gridClearLines (gd : Grid) (py ny : Nat) (bg : UInt32) : Grid :=
  if ny = 0 ∨ gd.hsize + gd.sy ≤ py ∨ gd.hsize + gd.sy ≤ py + ny - 1 then gd
  else
    let lines := emptyLines gd.sx bg (fun _ => false) ny py gd.linedata
    { gd with linedata := if py ≠ 0 then unwrapLine lines (py - 1) else lines }

def gridMoveLines (gd : Grid) (dy py ny : Nat) (bg : UInt32) : Grid :=
  if ny = 0 ∨ py = dy ∨ gd.hsize + gd.sy ≤ py ∨ gd.hsize + gd.sy ≤ py + ny - 1 ∨
      gd.hsize + gd.sy ≤ dy ∨ gd.hsize + gd.sy ≤ dy + ny - 1 then gd
  else
    let lines := if dy ≠ 0 then unwrapLine gd.linedata (dy - 1) else gd.linedata
    let lines := copyWithin dy py ny lines
    let lines := emptyLines gd.sx bg (fun yy => decide (dy ≤ yy ∧ yy < dy + ny)) ny py lines
    { gd with linedata :=
        if py ≠ 0 ∧ (py < dy ∨ dy + ny ≤ py) then unwrapLine lines (py - 1) else lines }

def lineClear (gsx : Nat) (gl : GridLine) (px nx : Nat) (bg : UInt32) : GridLine :=
  let sx := if gl.cellsize < gsx then gl.cellsize else gsx
  if (bg = 8 ∨ bg = 9) ∧ sx < px then gl
  else
    let ox := if (bg = 8 ∨ bg = 9) ∧ sx < px + nx then sx - px else nx
    clearCells bg px ox (gridExpandLine gsx gl (px + ox) 8)

/-- The cells of some lines are cleared. -/
def clearRows (gsx px nx : Nat) (bg : UInt32) : Nat → Nat → List GridLine → List GridLine
  | 0, _, lines => lines
  | n + 1, yy, lines =>
      clearRows gsx px nx bg n (yy + 1) (lines.modify yy fun gl => lineClear gsx gl px nx bg)

def gridClear (gd : Grid) (px py nx ny : Nat) (bg : UInt32) : Grid :=
  if nx = 0 ∨ ny = 0 then gd
  else if px = 0 ∧ nx = gd.sx then gridClearLines gd py ny bg
  else if gd.hsize + gd.sy ≤ py ∨ gd.hsize + gd.sy ≤ py + ny - 1 then gd
  else { gd with linedata := clearRows gd.sx px nx bg ny py gd.linedata }

def gridViewInsertLinesRegion (gd : Grid) (rlower py ny : Nat) (bg : UInt32) : Grid :=
  let rlower := gd.hsize + rlower
  let py := gd.hsize + py
  let ny2 := rlower + 1 - py - ny
  let gd := gridMoveLines gd (rlower + 1 - ny2) py ny2 bg
  gridClear gd 0 (py + ny2) gd.sx (ny - ny2) bg

def gridViewDeleteLines (gd : Grid) (py ny : Nat) (bg : UInt32) : Grid :=
  let py := gd.hsize + py
  let sy := gd.hsize + gd.sy
  let gd := gridMoveLines gd py (py + ny) (sy - py - ny) bg
  gridClear gd 0 (sy - ny) gd.sx ny bg

def gridViewDeleteLinesRegion (gd : Grid) (rlower py ny : Nat) (bg : UInt32) : Grid :=
  let rlower := gd.hsize + rlower
  let py := gd.hsize + py
  let ny2 := rlower + 1 - py - ny
  let gd := gridMoveLines gd py (py + ny) ny2 bg
  gridClear gd 0 (py + ny2) gd.sx (ny - ny2) bg

/-! ### What a line is -/

/-- A line, wherever it is. -/
def GridLine.content (gl : GridLine) : GridLine :=
  { gl with flags := { gl.flags with wrapped := false } }

def Grid.contents (gd : Grid) : List GridLine := gd.linedata.map GridLine.content

/-- A grid with the same size and history. -/
structure SameShape (gd gd' : Grid) : Prop where
  sx : gd'.sx = gd.sx
  sy : gd'.sy = gd.sy
  hscrolled : gd'.hscrolled = gd.hscrolled
  hsize : gd'.hsize = gd.hsize
  length : gd'.linedata.length = gd.linedata.length

theorem SameShape.refl (gd : Grid) : SameShape gd gd := ⟨rfl, rfl, rfl, rfl, rfl⟩

theorem SameShape.trans {gd gd' gd'' : Grid} (h : SameShape gd gd') (h' : SameShape gd' gd'') :
    SameShape gd gd'' :=
  ⟨h'.sx.trans h.sx, h'.sy.trans h.sy, h'.hscrolled.trans h.hscrolled, h'.hsize.trans h.hsize,
    h'.length.trans h.length⟩

theorem length_unwrapLine (lines : List GridLine) (py : Nat) :
    (unwrapLine lines py).length = lines.length := List.length_modify _ _ _

theorem map_content_unwrapLine (lines : List GridLine) (py : Nat) :
    (unwrapLine lines py).map GridLine.content = lines.map GridLine.content := by
  apply List.ext_getElem?
  intro k
  rw [List.getElem?_map, List.getElem?_map, unwrapLine, List.getElem?_modify]
  cases lines[k]? with
  | none => rfl
  | some gl =>
      simp only [Option.map_eq_map, Option.map_some]
      split_ifs <;> rfl

/-! ### Blank lines -/

theorem clearCells_flags_wrapped (bg : UInt32) (px n : Nat) (gl : GridLine) :
    (clearCells bg px n gl).flags.wrapped = gl.flags.wrapped := by
  induction n generalizing px gl with
  | zero => rfl
  | succ n ih =>
      rw [clearCells, ih, gridClearCell]
      split_ifs <;> rfl

theorem content_gridEmptyLine (gsx : Nat) (bg : UInt32) :
    (gridEmptyLine gsx bg).content = gridEmptyLine gsx bg := by
  have hflag : (gridEmptyLine gsx bg).flags.wrapped = false := by
    rw [gridEmptyLine, gridExpandLine]
    split_ifs
    · rfl
    · rfl
    · exact clearCells_flags_wrapped _ _ _ _
  rw [GridLine.content, ← hflag]

theorem length_emptyLines (gsx : Nat) (bg : UInt32) (skip : Nat → Bool) (n yy : Nat)
    (lines : List GridLine) :
    (emptyLines gsx bg skip n yy lines).length = lines.length := by
  induction n generalizing yy lines with
  | zero => rfl
  | succ n ih =>
      rw [emptyLines, ih]
      split_ifs
      · rfl
      · exact List.length_set

theorem getElem?_emptyLines (gsx : Nat) (bg : UInt32) (skip : Nat → Bool) (n yy : Nat)
    (lines : List GridLine) {k : Nat} (hk : k < lines.length) :
    (emptyLines gsx bg skip n yy lines)[k]? =
      if yy ≤ k ∧ k < yy + n ∧ skip k = false then some (gridEmptyLine gsx bg)
      else lines[k]? := by
  induction n generalizing yy lines with
  | zero => rw [emptyLines, if_neg (fun h => by omega)]
  | succ n ih =>
      have hother : yy ≠ k →
          (if skip yy then lines else lines.set yy (gridEmptyLine gsx bg))[k]? = lines[k]? := by
        intro hne
        split_ifs
        · rfl
        · exact List.getElem?_set_ne hne
      rw [emptyLines, ih]
      · rcases Nat.lt_trichotomy yy k with hlt | rfl | hgt
        · have hcond : (yy + 1 ≤ k ∧ k < yy + 1 + n ∧ skip k = false) ↔
              (yy ≤ k ∧ k < yy + (n + 1) ∧ skip k = false) := by
            rw [Nat.add_right_comm, Nat.add_assoc]
            exact ⟨fun h => ⟨by omega, h.2⟩, fun h => ⟨by omega, h.2⟩⟩
          simp only [hcond, hother (Nat.ne_of_lt hlt)]
        · rw [if_neg (fun h => by omega)]
          cases hskip : skip yy with
          | true => rw [if_pos rfl, if_neg (fun h => nomatch h.2.2)]
          | false =>
              rw [if_neg Bool.false_ne_true, if_pos ⟨Nat.le_refl _, by omega, rfl⟩,
                List.getElem?_set_self hk]
        · rw [hother (Nat.ne_of_gt hgt), if_neg (fun h => by omega), if_neg (fun h => by omega)]
      · split_ifs
        · exact hk
        · rwa [List.length_set]

/-! ### What is done to the contents -/

theorem map_content_unwrapLine_ite (p : Prop) [Decidable p] (lines : List GridLine) (py : Nat) :
    (if p then unwrapLine lines py else lines).map GridLine.content =
      lines.map GridLine.content := by
  split_ifs
  · exact map_content_unwrapLine lines py
  · rfl

theorem length_unwrapLine_ite (p : Prop) [Decidable p] (lines : List GridLine) (py : Nat) :
    (if p then unwrapLine lines py else lines).length = lines.length := by
  split_ifs
  · exact length_unwrapLine lines py
  · rfl

theorem emptyLines_contents (gsx : Nat) (bg : UInt32) (skip : Nat → Bool) (n yy : Nat)
    (lines : List GridLine) {k : Nat} (hk : k < lines.length) :
    ((emptyLines gsx bg skip n yy lines).map GridLine.content)[k]? =
      if yy ≤ k ∧ k < yy + n ∧ skip k = false then some (gridEmptyLine gsx bg)
      else (lines.map GridLine.content)[k]? := by
  rw [List.getElem?_map, List.getElem?_map, getElem?_emptyLines _ _ _ _ _ _ hk]
  split_ifs
  · rw [Option.map_some, content_gridEmptyLine]
  · rfl

/-- A block is moved in place. -/
theorem getElem?_copyWithin {α : Type} {dst src n : Nat} {l : List α} (hdst : dst + n ≤ l.length)
    (hsrc : src + n ≤ l.length) (k : Nat) :
    (copyWithin dst src n l)[k]? =
      if dst ≤ k ∧ k < dst + n then l[src + (k - dst)]? else l[k]? := by
  have hlen : (l.take dst).length = dst := List.length_take_of_le (by omega)
  have hmid : ((l.drop src).take n).length = n :=
    List.length_take_of_le (by rw [List.length_drop]; omega)
  rw [copyWithin, List.getElem?_append, List.length_append, hlen, hmid, List.getElem?_append, hlen]
  split_ifs with h₁ h₂ h₃
  · omega
  · exact List.getElem?_take_of_lt h₂
  · rw [List.getElem?_take_of_lt (by omega), List.getElem?_drop]
  · omega
  · omega
  · rw [List.getElem?_drop, (by omega : dst + n + (k - (dst + n)) = k)]

theorem length_copyWithin {α : Type} {dst src n : Nat} {l : List α} (hdst : dst + n ≤ l.length)
    (hsrc : src + n ≤ l.length) : (copyWithin dst src n l).length = l.length := by
  rw [copyWithin, List.length_append, List.length_append, List.length_take_of_le (by omega),
    List.length_take_of_le (by rw [List.length_drop]; omega), List.length_drop]
  omega

theorem map_copyWithin {α β : Type} (f : α → β) (dst src n : Nat) (l : List α) :
    (copyWithin dst src n l).map f = copyWithin dst src n (l.map f) := by
  simp only [copyWithin, List.map_append, List.map_take, List.map_drop]

section

variable {gd : Grid} {bg : UInt32} {k : Nat}

theorem contents_length (gd : Grid) : gd.contents.length = gd.linedata.length := List.length_map _

theorem gridClearLines_shape (gd : Grid) (py ny : Nat) (bg : UInt32) :
    SameShape gd (gridClearLines gd py ny bg) := by
  rw [gridClearLines]
  split
  · exact .refl gd
  · refine ⟨rfl, rfl, rfl, rfl, ?_⟩
    dsimp only
    rw [length_unwrapLine_ite, length_emptyLines]

theorem gridClearLines_contents {py ny : Nat} (hlen : gd.linedata.length = gd.hsize + gd.sy)
    (hle : py + ny ≤ gd.hsize + gd.sy) (hk : k < gd.linedata.length) :
    (gridClearLines gd py ny bg).contents[k]? =
      if py ≤ k ∧ k < py + ny then some (gridEmptyLine gd.sx bg) else gd.contents[k]? := by
  by_cases hny : ny = 0
  · rw [gridClearLines, if_pos (.inl hny), if_neg (by omega)]
  · rw [gridClearLines, if_neg (by omega)]
    dsimp only [Grid.contents]
    rw [map_content_unwrapLine_ite, emptyLines_contents _ _ _ _ _ _ hk]
    simp only [and_true]

theorem gridMoveLines_shape {dy py ny : Nat} (hlen : gd.linedata.length = gd.hsize + gd.sy) :
    SameShape gd (gridMoveLines gd dy py ny bg) := by
  rw [gridMoveLines]
  split
  · exact .refl gd
  · refine ⟨rfl, rfl, rfl, rfl, ?_⟩
    dsimp only
    rw [length_unwrapLine_ite, length_emptyLines, length_copyWithin] <;> rw [length_unwrapLine_ite]
    all_goals omega

/-- The lines are where they were moved to, the places they have left are blank, and the others
are as they were. -/
theorem gridMoveLines_contents {dy py ny : Nat} (hlen : gd.linedata.length = gd.hsize + gd.sy)
    (hdy : dy + ny ≤ gd.hsize + gd.sy) (hpy : py + ny ≤ gd.hsize + gd.sy) (hne : py ≠ dy)
    (hk : k < gd.linedata.length) :
    (gridMoveLines gd dy py ny bg).contents[k]? =
      if dy ≤ k ∧ k < dy + ny then gd.contents[py + (k - dy)]?
      else if py ≤ k ∧ k < py + ny then some (gridEmptyLine gd.sx bg) else gd.contents[k]? := by
  by_cases hny : ny = 0
  · rw [gridMoveLines, if_pos (.inl hny), if_neg (by omega), if_neg (by omega)]
  · rw [gridMoveLines, if_neg (by omega)]
    dsimp only [Grid.contents]
    rw [map_content_unwrapLine_ite, emptyLines_contents, map_copyWithin, map_content_unwrapLine_ite,
      getElem?_copyWithin]
    · simp only [decide_eq_false_iff_not]
      split_ifs <;> first | rfl | omega
    · rw [List.length_map]; omega
    · rw [List.length_map]; omega
    · rw [length_copyWithin] <;> rw [length_unwrapLine_ite] <;> omega

theorem gridClear_lines (h : 0 < gd.sx) (py ny : Nat) :
    gridClear gd 0 py gd.sx ny bg = gridClearLines gd py ny bg := by
  rw [gridClear]
  split_ifs with hnone hall hout
  · rcases hnone with hsx | hny
    · omega
    · rw [gridClearLines, if_pos (.inl hny)]
  · rfl
  · exact absurd ⟨rfl, rfl⟩ hall
  · exact absurd ⟨rfl, rfl⟩ hall

/-- Lines are moved, and then more lines are cleared. -/
theorem gridClear_gridMoveLines (hlen : gd.linedata.length = gd.hsize + gd.sy) (hsx : 0 < gd.sx)
    (bg : UInt32) {dy py ny cy cn : Nat} (hdy : dy + ny ≤ gd.hsize + gd.sy)
    (hpy : py + ny ≤ gd.hsize + gd.sy) (hne : py ≠ dy) (hcy : cy + cn ≤ gd.hsize + gd.sy) :
    SameShape gd (gridClear (gridMoveLines gd dy py ny bg) 0 cy
      (gridMoveLines gd dy py ny bg).sx cn bg) ∧
    ∀ k, k < gd.linedata.length → (gridClear (gridMoveLines gd dy py ny bg) 0 cy
        (gridMoveLines gd dy py ny bg).sx cn bg).contents[k]? =
      if cy ≤ k ∧ k < cy + cn then some (gridEmptyLine gd.sx bg)
      else if dy ≤ k ∧ k < dy + ny then gd.contents[py + (k - dy)]?
      else if py ≤ k ∧ k < py + ny then some (gridEmptyLine gd.sx bg) else gd.contents[k]? := by
  have hcontents := fun k hk => @gridMoveLines_contents gd bg k dy py ny hlen hdy hpy hne hk
  have hmoved := @gridMoveLines_shape gd bg dy py ny hlen
  generalize gridMoveLines gd dy py ny bg = moved at hmoved hcontents ⊢
  rw [gridClear_lines (by rw [hmoved.sx]; exact hsx)]
  refine ⟨hmoved.trans (gridClearLines_shape _ _ _ _), fun k hk => ?_⟩
  rw [gridClearLines_contents (by rw [hmoved.length, hlen, hmoved.hsize, hmoved.sy])
    (by rw [hmoved.hsize, hmoved.sy]; exact hcy) (by rw [hmoved.length]; exact hk), hmoved.sx,
    hcontents k hk]

/-! ### Regions -/

/-- The lines of a region of the screen. -/
def Grid.region (gd : Grid) (rlower py : Nat) : List GridLine :=
  (gd.contents.drop (gd.hsize + py)).take (rlower + 1 - py)

/-- The region is these lines, and everything outside of it is as it was. -/
structure RegionBecomes (gd gd' : Grid) (rlower py : Nat) (lines : List GridLine) : Prop where
  shape : SameShape gd gd'
  contents : gd'.contents = gd.contents.take (gd.hsize + py) ++ lines ++
    gd.contents.drop (gd.hsize + rlower + 1)

theorem RegionBecomes.of_getElem? {gd' : Grid} {rlower py : Nat} {lines : List GridLine}
    (hlen : gd.linedata.length = gd.hsize + gd.sy) (hpy : py ≤ rlower) (hr : rlower < gd.sy)
    (hlines : lines.length = rlower + 1 - py) (hshape : SameShape gd gd')
    (h : ∀ k, k < gd.linedata.length → gd'.contents[k]? =
      if gd.hsize + py ≤ k ∧ k < gd.hsize + rlower + 1 then lines[k - (gd.hsize + py)]?
      else gd.contents[k]?) : RegionBecomes gd gd' rlower py lines := by
  refine ⟨hshape, List.ext_getElem? fun k => ?_⟩
  have hlen' := contents_length gd
  have htop : (gd.contents.take (gd.hsize + py)).length = gd.hsize + py :=
    List.length_take_of_le (by omega)
  rw [List.getElem?_append, List.length_append, htop, hlines, List.getElem?_append, htop]
  rcases Nat.lt_or_ge k gd.linedata.length with hk | hk
  · rw [h k hk]
    split_ifs
    · omega
    · rfl
    · omega
    · exact (List.getElem?_take_of_lt (by omega)).symm
    · omega
    · rw [List.getElem?_drop,
        (by omega : gd.hsize + rlower + 1 + (k - (gd.hsize + py + (rlower + 1 - py))) = k)]
  · rw [List.getElem?_eq_none (by rw [contents_length, hshape.length]; exact hk),
      if_neg (by omega), List.getElem?_eq_none]
    rw [List.length_drop]
    omega

theorem getElem?_region {rlower py k : Nat} (hk : k < rlower + 1 - py) :
    (gd.region rlower py)[k]? = gd.contents[gd.hsize + py + k]? := by
  rw [Grid.region, List.getElem?_take_of_lt hk, List.getElem?_drop]

theorem length_region {rlower py : Nat} (hlen : gd.linedata.length = gd.hsize + gd.sy)
    (hpy : py ≤ rlower) (hr : rlower < gd.sy) :
    (gd.region rlower py).length = rlower + 1 - py := by
  have hlen' := contents_length gd
  rw [Grid.region, List.length_take_of_le]
  rw [List.length_drop]
  omega

/-- Blank lines before the ones that stay. -/
def insertedLines (gd : Grid) (rlower py ny : Nat) (bg : UInt32) : List GridLine :=
  List.replicate ny (gridEmptyLine gd.sx bg) ++
    (gd.region rlower py).take (rlower + 1 - py - ny)

/-- Blank lines behind the ones that stay. -/
def deletedLines (gd : Grid) (rlower py ny : Nat) (bg : UInt32) : List GridLine :=
  (gd.region rlower py).drop ny ++ List.replicate ny (gridEmptyLine gd.sx bg)

theorem getElem?_insertedLines {rlower py ny : Nat} (bg : UInt32) {k : Nat}
    (hk : k < rlower + 1 - py) :
    (insertedLines gd rlower py ny bg)[k]? =
      if k < ny then some (gridEmptyLine gd.sx bg)
      else gd.contents[gd.hsize + py + (k - ny)]? := by
  rw [insertedLines, List.getElem?_append, List.length_replicate, List.getElem?_replicate]
  split_ifs
  · rfl
  · rw [List.getElem?_take_of_lt (by omega), getElem?_region (by omega)]

section

variable {rlower py ny : Nat} (hlen : gd.linedata.length = gd.hsize + gd.sy) (hsx : 0 < gd.sx)
  (hpy : py ≤ rlower) (hr : rlower < gd.sy) (hny : 1 ≤ ny) (hle : ny ≤ rlower + 1 - py)

include hlen hpy hr hle

theorem length_insertedLines (bg : UInt32) :
    (insertedLines gd rlower py ny bg).length = rlower + 1 - py := by
  have hregion := length_region hlen hpy hr
  rw [insertedLines, List.length_append, List.length_replicate, List.length_take_of_le] <;> omega

theorem getElem?_deletedLines (bg : UInt32) {k : Nat} (hk : k < rlower + 1 - py) :
    (deletedLines gd rlower py ny bg)[k]? =
      if k + ny < rlower + 1 - py then gd.contents[gd.hsize + py + (k + ny)]?
      else some (gridEmptyLine gd.sx bg) := by
  have hregion := length_region hlen hpy hr
  rw [deletedLines, List.getElem?_append, List.length_drop, hregion, List.getElem?_replicate]
  split_ifs
  · rw [List.getElem?_drop, getElem?_region (by omega), Nat.add_comm ny k]
  · omega
  · omega
  · rfl
  · omega
  · omega

theorem length_deletedLines (bg : UInt32) :
    (deletedLines gd rlower py ny bg).length = rlower + 1 - py := by
  have hregion := length_region hlen hpy hr
  rw [deletedLines, List.length_append, List.length_replicate, List.length_drop]
  omega

include hsx hny

theorem gridViewInsertLinesRegion_ok (bg : UInt32) :
    RegionBecomes gd (gridViewInsertLinesRegion gd rlower py ny bg) rlower py
      (insertedLines gd rlower py ny bg) := by
  obtain ⟨n, hn⟩ : ∃ n, n = gd.hsize + rlower + 1 - (gd.hsize + py) - ny := ⟨_, rfl⟩
  obtain ⟨hshape, hcontents⟩ := @gridClear_gridMoveLines gd hlen hsx bg
    (gd.hsize + rlower + 1 - n) (gd.hsize + py) n (gd.hsize + py + n) (ny - n) (by omega)
    (by omega) (by omega) (by omega)
  rw [gridViewInsertLinesRegion, ← hn]
  refine .of_getElem? hlen hpy hr (length_insertedLines hlen hpy hr hle bg) hshape
    fun k hk => ?_
  rw [hcontents k hk]
  split_ifs with hclear hmove hin hleft hin hin
  all_goals
    try rw [getElem?_insertedLines bg (by omega)]
  all_goals
    first
    | rfl
    | omega
    | rw [if_pos (by omega)]
    | rw [if_neg (by omega)]; exact congrArg (gd.contents[·]?) (by omega)

theorem gridViewDeleteLinesRegion_ok (bg : UInt32) :
    RegionBecomes gd (gridViewDeleteLinesRegion gd rlower py ny bg) rlower py
      (deletedLines gd rlower py ny bg) := by
  obtain ⟨n, hn⟩ : ∃ n, n = gd.hsize + rlower + 1 - (gd.hsize + py) - ny := ⟨_, rfl⟩
  obtain ⟨hshape, hcontents⟩ := @gridClear_gridMoveLines gd hlen hsx bg
    (gd.hsize + py) (gd.hsize + py + ny) n (gd.hsize + py + n) (ny - n) (by omega)
    (by omega) (by omega) (by omega)
  rw [gridViewDeleteLinesRegion, ← hn]
  refine .of_getElem? hlen hpy hr (length_deletedLines hlen hpy hr hle bg) hshape
    fun k hk => ?_
  rw [hcontents k hk]
  split_ifs
  all_goals
    try rw [getElem?_deletedLines hlen hpy hr hle bg (by omega)]
  all_goals
    first
    | rfl
    | omega
    | rw [if_neg (by omega)]
    | rw [if_pos (by omega)]; exact congrArg (gd.contents[·]?) (by omega)

end

/-- The region ends at the bottom of the screen. -/
theorem gridViewDeleteLines_ok {py ny : Nat} (hlen : gd.linedata.length = gd.hsize + gd.sy)
    (hsx : 0 < gd.sx) (hpy : py < gd.sy) (hny : 1 ≤ ny) (hle : ny ≤ gd.sy - py) (bg : UInt32) :
    RegionBecomes gd (gridViewDeleteLines gd py ny bg) (gd.sy - 1) py
      (deletedLines gd (gd.sy - 1) py ny bg) := by
  obtain ⟨n, hn⟩ : ∃ n, n = gd.hsize + gd.sy - (gd.hsize + py) - ny := ⟨_, rfl⟩
  obtain ⟨hshape, hcontents⟩ := @gridClear_gridMoveLines gd hlen hsx bg
    (gd.hsize + py) (gd.hsize + py + ny) n (gd.hsize + gd.sy - ny) ny (by omega)
    (by omega) (by omega) (by omega)
  rw [gridViewDeleteLines, ← hn]
  refine .of_getElem? hlen (by omega) (by omega)
    (length_deletedLines hlen (by omega) (by omega) (by omega) bg) hshape fun k hk => ?_
  rw [hcontents k hk]
  split_ifs
  all_goals
    try rw [getElem?_deletedLines hlen (by omega) (by omega) (by omega) bg (by omega)]
  all_goals
    first
    | rfl
    | omega
    | rw [if_neg (by omega)]
    | rw [if_pos (by omega)]; exact congrArg (gd.contents[·]?) (by omega)

end

end Ztmux.Grids
