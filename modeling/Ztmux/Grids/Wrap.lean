import Ztmux.Grids.Cell

/-!
Positions in wrapped lines.

The lines that end in a wrap and the one that ends them are one logical line. A position is turned
into the number of its logical line and its offset there, or the end of it, and back. Of the
sums only the offset can overflow, and it has a value of its own for the end.
-/

namespace Ztmux.Grids

/-! ### Model -/

/-- `u32::MAX`. -/
def WRAP_END : Nat := 2 ^ 32 - 1

/-- A line above the position. -/
def wrapStep (p : Nat × Nat) (gl : GridLine) : Nat × Nat :=
  if gl.flags.wrapped then ((p.1 + gl.cellused) % 2 ^ 32, p.2) else (0, p.2 + 1)

/-- Convert to position based on wrapped lines. -/
def gridWrapPosition (gd : Grid) (px py : Nat) : Exec (Nat × Nat) :=
  match gd.linedata[py]? with
  | none => throw .outOfBounds
  | some gl =>
      let (ax, ay) := (gd.linedata.take py).foldl wrapStep (0, 0)
      pure (if gl.cellused ≤ px then WRAP_END else (ax + px) % 2 ^ 32, ay)

/-- Find the first line of the logical line `wy` among the lines from `yy` on, of which `n` are
looked at. -/
def unwrapStart (wy : Nat) : Nat → List GridLine → Nat → Nat → Exec Nat
  | 0, _, _, yy => pure yy
  | n + 1, lines, ay, yy =>
      if ay = wy then pure yy
      else
        match lines with
        | [] => throw .outOfBounds
        | gl :: rest => unwrapStart wy n rest (if gl.flags.wrapped then ay else ay + 1) (yy + 1)

/-- Walk to the end of the logical line. -/
def unwrapEnd : List GridLine → Nat → Exec (Nat × Nat)
  | [], _ => throw .outOfBounds
  | gl :: rest, yy =>
      if gl.flags.wrapped then unwrapEnd rest (yy + 1) else pure (gl.cellused, yy)

/-- Walk to the line with `wx`. -/
def unwrapWithin : List GridLine → Nat → Nat → Exec (Nat × Nat)
  | [], _, _ => throw .outOfBounds
  | gl :: rest, wx, yy =>
      if gl.flags.wrapped ∧ gl.cellused ≤ wx then unwrapWithin rest (wx - gl.cellused) (yy + 1)
      else pure (wx, yy)

/-- Convert position based on wrapped lines back. -/
def gridUnwrapPosition (gd : Grid) (wx wy : Nat) : Exec (Nat × Nat) := do
  let yy ← unwrapStart wy (gd.hsize + gd.sy - 1) gd.linedata 0 0
  if wx = WRAP_END then unwrapEnd (gd.linedata.drop yy) yy
  else unwrapWithin (gd.linedata.drop yy) wx yy

/-! ### Logical lines -/

/-- The lines end with a logical line. -/
def Closed (lines : List GridLine) : Prop :=
  ∀ gl, lines.getLast? = some gl → gl.flags.wrapped = false

/-- How many cells of its logical line are in the lines above `py`. -/
def cellsAbove (lines : List GridLine) (py : Nat) : Nat :=
  (((lines.take py).reverse.takeWhile fun gl => gl.flags.wrapped).map GridLine.cellused).sum

/-- The number of lines that end a logical line. -/
def ends (lines : List GridLine) : Nat := lines.countP fun gl => !gl.flags.wrapped

/-- `k` is the last line of the logical line that `py` is in, and `x` its end. -/
structure IsLineEnd (lines : List GridLine) (py x k : Nat) : Prop where
  le : py ≤ k
  last : ∃ gl, lines[k]? = some gl ∧ gl.flags.wrapped = false ∧ x = gl.cellused
  wrapped : ∀ j gl, py ≤ j → j < k → lines[j]? = some gl → gl.flags.wrapped = true

/-- Lines are whole logical lines, and then some that are wrapped. -/
theorem exists_closed (lines : List GridLine) :
    ∃ before mid, lines = before ++ mid ∧ Closed before ∧
      ∀ gl ∈ mid, gl.flags.wrapped = true := by
  induction lines using List.reverseRecOn with
  | nil => exact ⟨[], [], rfl, fun _ h => (nomatch h), fun _ h => (nomatch h)⟩
  | append_singleton lines gl ih =>
      cases hw : gl.flags.wrapped with
      | false =>
          refine ⟨lines ++ [gl], [], (List.append_nil _).symm, fun g hg => ?_,
            fun _ hg => nomatch hg⟩
          rw [List.getLast?_concat] at hg
          exact Option.some.inj hg ▸ hw
      | true =>
          obtain ⟨before, mid, rfl, hclosed, hmid⟩ := ih
          refine ⟨before, mid ++ [gl], List.append_assoc _ _ _, hclosed, fun g hg => ?_⟩
          rcases List.mem_append.mp hg with hg | hg
          · exact hmid g hg
          · exact List.mem_singleton.mp hg ▸ hw

theorem Closed.tail {gl : GridLine} {lines : List GridLine} (h : Closed (gl :: lines)) :
    Closed lines := by
  intro g hg
  cases lines with
  | nil => cases hg
  | cons head rest => exact h g (by rw [List.getLast?_cons_cons]; exact hg)

/-- A logical line ends in lines that are closed. -/
theorem Closed.ends_pos {gl : GridLine} {lines : List GridLine} (h : Closed (gl :: lines)) :
    0 < ends (gl :: lines) := by
  rw [ends, List.countP_pos_iff]
  have hlast := List.getLast?_eq_some_getLast (List.cons_ne_nil gl lines)
  refine ⟨_, List.getLast_mem (List.cons_ne_nil gl lines), ?_⟩
  rw [h _ hlast]
  rfl

section

variable {before mid : List GridLine}

theorem cellsAbove_append (rest : List GridLine) (hclosed : Closed before)
    (hmid : ∀ gl ∈ mid, gl.flags.wrapped = true) :
    cellsAbove (before ++ mid ++ rest) (before.length + mid.length) =
      (mid.map GridLine.cellused).sum := by
  rw [cellsAbove, ← List.length_append, List.take_left, List.reverse_append,
    List.takeWhile_append_of_pos (fun gl hgl => hmid gl (List.mem_reverse.mp hgl))]
  have hstop : (before.reverse.takeWhile fun gl => gl.flags.wrapped) = [] := by
    cases hrev : before.reverse with
    | nil => rfl
    | cons gl above =>
        have hlast : before.getLast? = some gl := by
          rw [← List.head?_reverse, hrev, List.head?_cons]
        rw [List.takeWhile_cons, hclosed gl hlast]
        rfl
  rw [hstop, List.append_nil, List.map_reverse, List.sum_reverse]

theorem foldl_wrapStep_snd (lines : List GridLine) (p : Nat × Nat) :
    (lines.foldl wrapStep p).2 = p.2 + ends lines := by
  induction lines generalizing p with
  | nil => rfl
  | cons gl rest ih =>
      rw [List.foldl_cons, ih, ends, ends, List.countP_cons, wrapStep]
      cases gl.flags.wrapped
      · simp only [Bool.false_eq_true, if_false, Bool.not_false, if_true]
        omega
      · rfl

theorem foldl_wrapStep_closed (hclosed : Closed before) :
    before.foldl wrapStep (0, 0) = (0, ends before) := by
  have hsnd := foldl_wrapStep_snd before (0, 0)
  rw [Nat.zero_add] at hsnd
  refine Prod.ext ?_ hsnd
  rcases List.eq_nil_or_concat before with rfl | ⟨lines, gl, rfl⟩
  · rfl
  · rw [List.concat_eq_append] at hclosed ⊢
    have hlast : gl.flags.wrapped = false := hclosed gl List.getLast?_concat
    rw [List.foldl_append, List.foldl_cons, List.foldl_nil, wrapStep, hlast]
    rfl

theorem foldl_wrapStep_wrapped (hmid : ∀ gl ∈ mid, gl.flags.wrapped = true) (ax ay : Nat)
    (hax : ax < 2 ^ 32) :
    mid.foldl wrapStep (ax, ay) = ((ax + (mid.map GridLine.cellused).sum) % 2 ^ 32, ay) := by
  induction mid generalizing ax with
  | nil =>
      rw [List.foldl_nil, List.map_nil, List.sum_nil, Nat.add_zero, Nat.mod_eq_of_lt hax]
  | cons gl rest ih =>
      rw [List.foldl_cons, wrapStep, if_pos (hmid gl List.mem_cons_self),
        ih (fun g hg => hmid g (List.mem_cons_of_mem _ hg)) _ (Nat.mod_lt _ (by decide)),
        List.map_cons, List.sum_cons, Nat.mod_add_mod, Nat.add_assoc]

/-! ### Walking -/

/-- Whole logical lines are walked over. -/
theorem unwrapStart_closed (rest : List GridLine) (hclosed : Closed before) {wy n ay yy : Nat}
    (hwy : wy = ay + ends before) (hn : before.length ≤ n) :
    unwrapStart wy n (before ++ rest) ay yy = .ok (yy + before.length) := by
  induction before generalizing n ay yy with
  | nil =>
      have hay : ay = wy := by rw [hwy]; rfl
      cases n with
      | zero => rfl
      | succ n => exact if_pos hay
  | cons gl lines ih =>
      have hpos := hclosed.ends_pos
      obtain ⟨n, rfl⟩ : ∃ m, n = m + 1 := ⟨n - 1, by rw [List.length_cons] at hn; omega⟩
      have hne : ay ≠ wy := by omega
      have hcount : wy = (if gl.flags.wrapped then ay else ay + 1) + ends lines := by
        rw [hwy, ends, ends, List.countP_cons]
        cases gl.flags.wrapped
        · simp only [Bool.false_eq_true, if_false, Bool.not_false, if_true]
          omega
        · rfl
      rw [List.cons_append, unwrapStart, if_neg hne,
        ih hclosed.tail hcount (by rw [List.length_cons] at hn; omega),
        List.length_cons, Nat.add_assoc, Nat.add_comm 1]

/-- Wrapped lines are walked over on the way to the end. -/
theorem unwrapEnd_wrapped (rest : List GridLine) (hmid : ∀ gl ∈ mid, gl.flags.wrapped = true)
    (yy : Nat) : unwrapEnd (mid ++ rest) yy = unwrapEnd rest (yy + mid.length) := by
  induction mid generalizing yy with
  | nil => rfl
  | cons gl lines ih =>
      rw [List.cons_append, unwrapEnd, if_pos (hmid gl List.mem_cons_self),
        ih (fun g hg => hmid g (List.mem_cons_of_mem _ hg)), List.length_cons, Nat.add_assoc,
        Nat.add_comm 1]

/-- The offset is enough for all the wrapped lines. -/
theorem unwrapWithin_wrapped (rest : List GridLine) (hmid : ∀ gl ∈ mid, gl.flags.wrapped = true)
    (wx yy : Nat) :
    unwrapWithin (mid ++ rest) ((mid.map GridLine.cellused).sum + wx) yy =
      unwrapWithin rest wx (yy + mid.length) := by
  induction mid generalizing yy with
  | nil => rw [List.nil_append, List.map_nil, List.sum_nil, Nat.zero_add]; rfl
  | cons gl lines ih =>
      rw [List.cons_append, unwrapWithin, List.map_cons, List.sum_cons,
        if_pos ⟨hmid gl List.mem_cons_self, by omega⟩,
        (by omega : gl.cellused + (lines.map GridLine.cellused).sum + wx - gl.cellused =
          (lines.map GridLine.cellused).sum + wx),
        ih (fun g hg => hmid g (List.mem_cons_of_mem _ hg)), List.length_cons, Nat.add_assoc,
        Nat.add_comm 1]

end

/-- Where the walk comes out is the offset away from where it began. -/
theorem unwrapWithin_offset (lines : List GridLine) {wx yy x y : Nat}
    (h : unwrapWithin lines wx yy = .ok (x, y)) :
    ∃ k, y = yy + k ∧ wx = ((lines.take k).map GridLine.cellused).sum + x := by
  induction lines generalizing wx yy with
  | nil => cases h
  | cons gl rest ih =>
      rw [unwrapWithin] at h
      split_ifs at h with hwrap
      · obtain ⟨k, rfl, hoff⟩ := ih h
        refine ⟨k + 1, by omega, ?_⟩
        rw [List.take_succ_cons, List.map_cons, List.sum_cons]
        omega
      · obtain ⟨rfl, rfl⟩ := Prod.mk.inj (Except.ok.inj h)
        exact ⟨0, rfl, (Nat.zero_add wx).symm⟩

theorem unwrapEnd_ok_iff (lines : List GridLine) (yy : Nat) :
    (∃ p, unwrapEnd lines yy = .ok p) ↔ ∃ gl ∈ lines, gl.flags.wrapped = false := by
  induction lines generalizing yy with
  | nil =>
      refine ⟨fun ⟨p, hp⟩ => ?_, fun ⟨gl, hgl, _⟩ => nomatch hgl⟩
      cases hp
  | cons gl rest ih =>
      rw [unwrapEnd]
      cases hw : gl.flags.wrapped with
      | false => exact iff_of_true ⟨_, rfl⟩ ⟨gl, List.mem_cons_self, hw⟩
      | true =>
          rw [if_pos rfl, ih (yy + 1)]
          simp only [List.mem_cons, exists_eq_or_imp, hw, Bool.true_eq_false, false_or]

theorem unwrapEnd_isLineEnd (above : List GridLine) {lines : List GridLine} {x y : Nat}
    (h : unwrapEnd lines above.length = .ok (x, y)) :
    IsLineEnd (above ++ lines) above.length x y := by
  induction lines generalizing above with
  | nil => cases h
  | cons gl rest ih =>
      have hself : (above ++ gl :: rest)[above.length]? = some gl := by
        rw [List.getElem?_append_right (Nat.le_refl _), Nat.sub_self]
        rfl
      rw [unwrapEnd] at h
      split_ifs at h with hw
      · have hlen : (above ++ [gl]).length = above.length + 1 := by
          rw [List.length_append, List.length_singleton]
        obtain ⟨hle, hlast, hwrapped⟩ := ih (above ++ [gl]) (hlen ▸ h)
        rw [List.append_assoc, List.singleton_append] at hlast hwrapped
        rw [hlen] at hle hwrapped
        refine ⟨by omega, hlast, fun j g hge hlt hg => ?_⟩
        rcases Nat.eq_or_lt_of_le hge with rfl | hgt
        · exact Option.some.inj (hself.symm.trans hg) ▸ hw
        · exact hwrapped j g hgt hlt hg
      · obtain ⟨rfl, rfl⟩ := Prod.mk.inj (Except.ok.inj h)
        exact ⟨Nat.le_refl _, ⟨gl, hself, Bool.eq_false_iff.mpr hw, rfl⟩,
          fun j g hge hlt _ => absurd hge (Nat.not_le.mpr hlt)⟩

/-! ### There and back -/

section

variable {gd : Grid} {before mid after : List GridLine} {gl : GridLine}

theorem gridWrapPosition_ok (hlines : gd.linedata = before ++ mid ++ gl :: after)
    (hclosed : Closed before) (hmid : ∀ g ∈ mid, g.flags.wrapped = true) (px : Nat) :
    gridWrapPosition gd px (before.length + mid.length) =
      .ok (if gl.cellused ≤ px then WRAP_END
        else ((mid.map GridLine.cellused).sum + px) % 2 ^ 32, ends before) := by
  have hlen : (before ++ mid).length = before.length + mid.length := List.length_append
  have hget : gd.linedata[before.length + mid.length]? = some gl := by
    rw [hlines, ← hlen, List.getElem?_append_right (Nat.le_refl _), Nat.sub_self]
    rfl
  have htake : gd.linedata.take (before.length + mid.length) = before ++ mid := by
    rw [hlines, ← hlen, List.take_left]
  rw [gridWrapPosition, hget]
  dsimp only
  rw [htake, List.foldl_append, foldl_wrapStep_closed hclosed,
    foldl_wrapStep_wrapped hmid 0 _ (by decide)]
  dsimp only
  rw [Nat.zero_add, Nat.mod_add_mod]
  rfl

theorem gridUnwrapPosition_eq (hlines : gd.linedata = before ++ mid ++ gl :: after)
    (hlen : gd.linedata.length = gd.hsize + gd.sy) (hclosed : Closed before)
    (hmid : ∀ g ∈ mid, g.flags.wrapped = true) (wx : Nat) :
    gridUnwrapPosition gd wx (ends before) =
      if wx = WRAP_END then unwrapEnd (gl :: after) (before.length + mid.length)
      else unwrapWithin (mid ++ gl :: after) wx before.length := by
  have hn : before.length ≤ gd.hsize + gd.sy - 1 := by
    rw [← hlen, hlines, List.length_append, List.length_append, List.length_cons]
    omega
  have hstart : unwrapStart (ends before) (gd.hsize + gd.sy - 1) gd.linedata 0 0 =
      .ok before.length := by
    rw [hlines, List.append_assoc, unwrapStart_closed _ hclosed (Nat.zero_add _).symm hn,
      Nat.zero_add]
  have hdrop : gd.linedata.drop before.length = mid ++ gl :: after := by
    rw [hlines, List.append_assoc, List.drop_left]
  rw [gridUnwrapPosition, hstart, ok_bind, hdrop, unwrapEnd_wrapped _ hmid]

end

/-- Converting a position and back gives the position, or the end of its logical line for one
that is beyond the cells of its line. -/
def Recovers (gd : Grid) (px py : Nat) : Prop :=
  ∃ gl w p, gd.linedata[py]? = some gl ∧ gridWrapPosition gd px py = .ok w ∧
    gridUnwrapPosition gd w.1 w.2 = .ok p ∧
    if px < gl.cellused then p = (px, py) else IsLineEnd gd.linedata py p.1 p.2

/-- The offset has not reached the value for the end, or the logical line has an end. -/
def Recoverable (gd : Grid) (px py : Nat) : Prop :=
  ∃ gl, gd.linedata[py]? = some gl ∧
    if px < gl.cellused then cellsAbove gd.linedata py + px < WRAP_END
    else ∃ k last, py ≤ k ∧ gd.linedata[k]? = some last ∧ last.flags.wrapped = false

/-- An offset in the line is found again unless it has overflowed. -/
theorem unwrapWithin_eq_iff {mid after : List GridLine} {gl : GridLine}
    (hmid : ∀ g ∈ mid, g.flags.wrapped = true) {px : Nat} (hpx : px < gl.cellused) (wx yy : Nat) :
    unwrapWithin (mid ++ gl :: after) wx yy = .ok (px, yy + mid.length) ↔
      wx = (mid.map GridLine.cellused).sum + px := by
  constructor
  · intro h
    obtain ⟨k, hk, hwx⟩ := unwrapWithin_offset _ h
    obtain rfl : k = mid.length := by omega
    rw [hwx, List.take_left]
  · rintro rfl
    rw [unwrapWithin_wrapped _ hmid, unwrapWithin, if_neg (fun h => by omega)]
    rfl

/-- Positions are recovered exactly when their offset fits and their logical line ends. -/
theorem gridUnwrapPosition_wrap_iff {gd : Grid} {py : Nat}
    (hlen : gd.linedata.length = gd.hsize + gd.sy) (hpy : py < gd.hsize + gd.sy) (px : Nat) :
    Recovers gd px py ↔ Recoverable gd px py := by
  have hlt : py < gd.linedata.length := hlen ▸ hpy
  obtain ⟨before, mid, htake, hclosed, hmid⟩ := exists_closed (gd.linedata.take py)
  have hlines : gd.linedata = before ++ mid ++ gd.linedata[py] :: gd.linedata.drop (py + 1) := by
    rw [← htake, List.cons_getElem_drop_succ, List.take_append_drop]
  have hsum : py = before.length + mid.length := by
    rw [← List.length_append, ← htake, List.length_take]
    omega
  set gl := gd.linedata[py] with hgl
  have hget : gd.linedata[py]? = some gl := List.getElem?_eq_getElem hlt
  have habove : cellsAbove gd.linedata py = (mid.map GridLine.cellused).sum := by
    rw [hlines, hsum]
    exact cellsAbove_append _ hclosed hmid
  have hisEnd : ∀ {p : Nat × Nat}, unwrapEnd (gl :: gd.linedata.drop (py + 1)) py = .ok p →
      IsLineEnd gd.linedata py p.1 p.2 := by
    intro p hp
    have hend := @unwrapEnd_isLineEnd (before ++ mid) (gl :: gd.linedata.drop (py + 1)) p.1 p.2
      (by rw [List.length_append, ← hsum]; exact hp)
    rwa [List.length_append, ← hsum, ← hlines] at hend
  have hwrap := gridWrapPosition_ok hlines hclosed hmid px
  have hunwrap := gridUnwrapPosition_eq hlines hlen hclosed hmid
  rw [← hsum] at hwrap hunwrap
  have hrecovers : Recovers gd px py ↔ ∃ p,
      gridUnwrapPosition gd (if gl.cellused ≤ px then WRAP_END
        else ((mid.map GridLine.cellused).sum + px) % 2 ^ 32) (ends before) = .ok p ∧
      if px < gl.cellused then p = (px, py) else IsLineEnd gd.linedata py p.1 p.2 := by
    constructor
    · rintro ⟨gl', w, p, hget', hw, hp, hif⟩
      obtain rfl := Option.some.inj (hget.symm.trans hget')
      obtain rfl := Except.ok.inj (hwrap.symm.trans hw)
      exact ⟨p, hp, hif⟩
    · rintro ⟨p, hp, hif⟩
      exact ⟨gl, _, p, hget, hwrap, hp, hif⟩
  have hrecoverable : Recoverable gd px py ↔
      if px < gl.cellused then (mid.map GridLine.cellused).sum + px < WRAP_END
      else ∃ k last, py ≤ k ∧ gd.linedata[k]? = some last ∧ last.flags.wrapped = false := by
    rw [Recoverable, hget, habove]
    simp only [Option.some.injEq, exists_eq_left']
  rw [hrecovers, hrecoverable]
  by_cases hpx : px < gl.cellused
  · simp only [if_pos hpx, if_neg (Nat.not_le.mpr hpx), exists_eq_right]
    rw [hunwrap]
    split_ifs with hend
    · -- the offset is the value for the end
      refine iff_of_false (fun h => ?_) (fun h => ?_)
      · obtain ⟨g, hg, -, hx⟩ := (hisEnd h).last
        obtain rfl := Option.some.inj (hget.symm.trans hg)
        exact Nat.ne_of_lt hpx hx
      · rw [WRAP_END] at h hend
        omega
    · rw [hsum, unwrapWithin_eq_iff hmid hpx]
      rw [WRAP_END] at hend ⊢
      omega
  · simp only [if_neg hpx, if_pos (Nat.not_lt.mp hpx)]
    rw [hunwrap, if_pos rfl]
    constructor
    · rintro ⟨p, -, hle, ⟨last, hlast, hwrapped, -⟩, -⟩
      exact ⟨_, last, hle, hlast, hwrapped⟩
    · rintro ⟨k, last, hle, hlast, hwrapped⟩
      have hmem : last ∈ gl :: gd.linedata.drop (py + 1) := by
        rw [hgl, List.cons_getElem_drop_succ, List.mem_drop_iff_getElem]
        obtain ⟨hk, rfl⟩ := List.getElem?_eq_some_iff.mp hlast
        exact ⟨k - py, by omega, by simp only [Nat.add_sub_cancel' hle]⟩
      obtain ⟨p, hp⟩ := (unwrapEnd_ok_iff _ py).mpr ⟨last, hmem, hwrapped⟩
      exact ⟨p, hp, hisEnd hp⟩

/-! ### Two lines -/

/-- A line of two cells, one that is wrapped and one that ends it. -/
def wrappedLine : GridLine :=
  { GridLine.zeroed with
    celldata := [GRID_CLEARED_ENTRY, GRID_CLEARED_ENTRY]
    cellused := 2
    flags := { GridLineFlags.empty with wrapped := true } }

/-- A position in the wrapped line, and the end of it. -/
theorem wrappedLine_recovers :
    Recovers ⟨2, 2, 0, 0, [wrappedLine, .zeroed]⟩ 1 0 ∧
      Recovers ⟨2, 2, 0, 0, [wrappedLine, .zeroed]⟩ 2 0 := by
  constructor
  · refine (gridUnwrapPosition_wrap_iff rfl (by decide) 1).mpr ⟨wrappedLine, rfl, ?_⟩
    rw [if_pos (by decide)]
    decide
  · refine (gridUnwrapPosition_wrap_iff rfl (by decide) 2).mpr ⟨wrappedLine, rfl, ?_⟩
    rw [if_neg (by decide)]
    exact ⟨1, .zeroed, by decide, rfl, rfl⟩

/-- When the last line of the grid is wrapped, the walk to its end leaves the grid. -/
theorem gridUnwrapPosition_leaves :
    gridWrapPosition ⟨2, 1, 0, 0, [wrappedLine]⟩ 2 0 = .ok (WRAP_END, 0) ∧
      gridUnwrapPosition ⟨2, 1, 0, 0, [wrappedLine]⟩ WRAP_END 0 = .error .outOfBounds ∧
      ¬ Recovers ⟨2, 1, 0, 0, [wrappedLine]⟩ 2 0 := by
  have hwrap : gridWrapPosition ⟨2, 1, 0, 0, [wrappedLine]⟩ 2 0 = .ok (WRAP_END, 0) := rfl
  have hleaves : gridUnwrapPosition ⟨2, 1, 0, 0, [wrappedLine]⟩ WRAP_END 0 =
    .error .outOfBounds := rfl
  refine ⟨hwrap, hleaves, ?_⟩
  rintro ⟨gl, w, p, -, hw, hp, -⟩
  obtain rfl := Except.ok.inj (hwrap.symm.trans hw)
  cases hleaves.symm.trans hp

end Ztmux.Grids
