import Ztmux.Grids.Columns

/-!
Inserting lines and characters.

The lines and cells behind the place of insertion are moved, and what was moved is wiped where it
stood. When more is inserted than is moved, the part in between is neither moved nor wiped.
-/

namespace Ztmux.Grids

open Utf8 ScreenWrite

/-! ### Model -/

def gridViewInsertLines (gd : Grid) (py ny : Nat) (bg : UInt32) : Grid :=
  let py := gd.hsize + py
  let sy := gd.hsize + gd.sy
  gridMoveLines gd (py + ny) py (sy - py - ny) bg

def gridViewInsertCells (gd : Grid) (px py nx : Nat) (bg : UInt32) : Grid :=
  let py := gd.hsize + py
  let sx := gd.sx
  if sx - 1 ≤ px then gridClear gd px py 1 1 bg
  else gridMoveCells gd (px + nx) px py (sx - px - nx) bg

/-! ### Blank places -/

/-- A position of a row of the screen is blank. -/
def Grid.BlankAt (table : Utf8Table) (gd : Grid) (px py : Nat) (bg : UInt32) : Prop :=
  ∃ gl, gd.linedata[gd.hsize + py]? = some gl ∧ gl.Blank table px bg

def Grid.BlankRow (table : Utf8Table) (gd : Grid) (py : Nat) (bg : UInt32) : Prop :=
  ∀ px, px < gd.sx → gd.BlankAt table px py bg

/-- The rows from `py` on go down by `ny`, and blank ones stand before them. -/
structure InsertsLines (table : Utf8Table) (gd gd' : Grid) (py ny : Nat) (bg : UInt32) : Prop where
  shape : SameShape gd gd'
  above : ∀ k, k < gd.hsize + py → gd'.contents[k]? = gd.contents[k]?
  moved : ∀ k, py ≤ k → k < gd.sy - ny →
    gd'.contents[gd.hsize + k + ny]? = gd.contents[gd.hsize + k]?
  blank : ∀ k, py ≤ k → k < py + ny → gd'.BlankRow table k bg

/-- The cells of a line from `px` on go right by `nx`, and blank ones stand before them. -/
structure LineInserts (table : Utf8Table) (gsx : Nat) (gl gl' : GridLine) (px nx : Nat)
    (bg : UInt32) : Prop where
  left : ∀ x gc, x < px → gl.Reads table x gc → gl'.Reads table x gc
  moved : ∀ x gc, px ≤ x → x < gsx - nx → gl.Reads table x gc → gl'.Reads table (x + nx) gc
  blank : ∀ x, px ≤ x → x < px + nx → gl'.Blank table x bg

/-- One line is changed so, and the others keep their content. -/
structure InsertsCells (table : Utf8Table) (gd gd' : Grid) (px py nx : Nat) (bg : UInt32) :
    Prop where
  shape : SameShape gd gd'
  others : ∀ k, k < gd.linedata.length → k ≠ gd.hsize + py → gd'.contents[k]? = gd.contents[k]?
  line : ∃ gl gl', gd.linedata[gd.hsize + py]? = some gl ∧
    gd'.linedata[gd.hsize + py]? = some gl' ∧ LineInserts table gd.sx gl gl' px nx bg

variable {table : Utf8Table} {gd gd' : Grid} {bg : UInt32}

/-! ### Lines -/

/-- Whether a position is blank does not depend on the flags of the line. -/
theorem blankAt_iff {px py : Nat} : gd.BlankAt table px py bg ↔
    ∃ gl, gd.contents[gd.hsize + py]? = some gl ∧ gl.Blank table px bg := by
  rw [Grid.contents, List.getElem?_map]
  constructor
  · rintro ⟨gl, hgl, hblank⟩
    exact ⟨gl.content, by rw [hgl]; rfl, hblank⟩
  · rintro ⟨content, hcontent, hblank⟩
    obtain ⟨gl, hgl, rfl⟩ := Option.map_eq_some_iff.mp hcontent
    exact ⟨gl, hgl, hblank⟩

theorem blankRow_congr (hshape : SameShape gd gd') {k : Nat}
    (h : gd'.contents[gd.hsize + k]? = gd.contents[gd.hsize + k]?) :
    gd'.BlankRow table k bg ↔ gd.BlankRow table k bg := by
  simp only [Grid.BlankRow, blankAt_iff, hshape.sx, hshape.hsize, h]

theorem blankRow_empty (hshape : SameShape gd gd') {k : Nat}
    (h : gd'.contents[gd.hsize + k]? = some (gridEmptyLine gd.sx bg)) :
    gd'.BlankRow table k bg := by
  intro px hpx
  rw [hshape.sx] at hpx
  exact blankAt_iff.mpr
    ⟨_, by rw [hshape.hsize]; exact h, (gridEmptyLine_reads table gd.sx bg).1 px hpx⟩

/-- Inserting lines is right exactly when the rows that are neither moved nor wiped are blank. -/
theorem gridViewInsertLines_iff (hlen : gd.linedata.length = gd.hsize + gd.sy) {py ny : Nat}
    (hpy : py < gd.sy) (hny : 1 ≤ ny) (hle : ny ≤ gd.sy - py) :
    InsertsLines table gd (gridViewInsertLines gd py ny bg) py ny bg ↔
      ∀ k, gd.sy - ny ≤ k → k < py + ny → gd.BlankRow table k bg := by
  obtain ⟨n, hn⟩ : ∃ n, n = gd.hsize + gd.sy - (gd.hsize + py) - ny := ⟨_, rfl⟩
  have hcontents :=
    fun k hk => @gridMoveLines_contents gd bg k (gd.hsize + py + ny) (gd.hsize + py) n
    hlen (by omega) (by omega) (by omega) hk
  have hshape := @gridMoveLines_shape gd bg (gd.hsize + py + ny) (gd.hsize + py) n hlen
  rw [gridViewInsertLines, ← hn]
  generalize gridMoveLines gd (gd.hsize + py + ny) (gd.hsize + py) n bg = gd' at hcontents hshape ⊢
  have hgap : ∀ k, gd.sy - ny ≤ k → k < py + ny →
      gd'.contents[gd.hsize + k]? = gd.contents[gd.hsize + k]? := by
    intro k hge hlt
    rw [hcontents _ (by omega), if_neg (by omega), if_neg (by omega)]
  constructor
  · intro h k hge hlt
    exact (blankRow_congr hshape (hgap k hge hlt)).mp (h.blank k (by omega) hlt)
  · intro h
    refine ⟨hshape, fun k hk => ?_, fun k hge hlt => ?_, fun k hge hlt => ?_⟩
    · rw [hcontents k (by omega), if_neg (by omega), if_neg (by omega)]
    · rw [hcontents _ (by omega), if_pos (by omega)]
      exact congrArg (gd.contents[·]?) (by omega)
    · rcases Nat.lt_or_ge k (gd.sy - ny) with hwiped | hkept
      · refine blankRow_empty hshape ?_
        rw [hcontents _ (by omega), if_neg (by omega), if_pos (by omega)]
      · exact (blankRow_congr hshape (hgap k hkept hlt)).mpr (h k hkept hlt)

/-! ### Characters -/

/-- What a line is read as in one place can be said of it before, if all that it was read as there
is kept. -/
theorem GridLine.WellFormed.reads_of_kept {gl gl' : GridLine} (h : gl.WellFormed table) {px : Nat}
    (hkept : ∀ gc, gl.Reads table px gc → gl'.Reads table px gc) {gc : GridCell}
    (hgc : gl'.Reads table px gc) : gl.Reads table px gc := by
  obtain ⟨old, hold, -⟩ := h.read px
  obtain ⟨new, hnew, hsame⟩ := hkept old ⟨old, hold, .refl old⟩
  obtain ⟨new', hnew', hsame'⟩ := hgc
  obtain rfl := Except.ok.inj (hnew.symm.trans hnew')
  exact ⟨old, hold, hsame.symm.trans hsame'⟩

theorem GridLine.WellFormed.blank_iff {gl gl' : GridLine} (h : gl.WellFormed table) {px : Nat}
    (hkept : ∀ gc, gl.Reads table px gc → gl'.Reads table px gc) :
    gl'.Blank table px bg ↔ gl.Blank table px bg :=
  ⟨Or.imp (h.reads_of_kept hkept) (And.imp_right (h.reads_of_kept hkept)),
    Or.imp (hkept _) (And.imp_right (hkept _))⟩

theorem setLine_insertsCells {gl gl' : GridLine} {px py nx : Nat}
    (hgl : gd.linedata[gd.hsize + py]? = some gl) :
    InsertsCells table gd (gd.setLine (gd.hsize + py) gl') px py nx bg ↔
      LineInserts table gd.sx gl gl' px nx bg := by
  obtain ⟨hlt, -⟩ := List.getElem?_eq_some_iff.mp hgl
  have hgl' : (gd.setLine (gd.hsize + py) gl').linedata[gd.hsize + py]? = some gl' :=
    List.getElem?_set_self hlt
  constructor
  · rintro ⟨-, -, old, new, hold, hnew, hline⟩
    obtain rfl := Option.some.inj (hold.symm.trans hgl)
    obtain rfl := Option.some.inj (hnew.symm.trans hgl')
    exact hline
  · refine fun hline =>
      ⟨⟨rfl, rfl, rfl, rfl, List.length_set⟩, fun k _ hne => ?_, gl, gl', hgl, hgl',
      hline⟩
    simp only [Grid.contents, Grid.setLine, List.getElem?_map, List.getElem?_set_ne hne.symm]

/-- In the last column one cell is cleared. -/
theorem gridClear_insertsCells (h : GridWellFormed table gd) {px py : Nat} (hpy : py < gd.sy)
    (hpx : px + 1 = gd.sx) :
    InsertsCells table gd (gridClear gd px (gd.hsize + py) 1 1 bg) px py 1 bg := by
  have hy : gd.hsize + py < gd.hsize + gd.sy := by omega
  obtain ⟨gl, hgl, hwf⟩ := h.line_at hy
  obtain ⟨hlt, -⟩ := List.getElem?_eq_some_iff.mp hgl
  by_cases hpart : px = 0 ∧ 1 = gd.sx
  · -- the cell is the whole line
    obtain ⟨rfl, hone⟩ := hpart
    have hcontents := fun k hk => @gridClearLines_contents gd bg k (gd.hsize + py) 1 h.length hy hk
    have hclear : gridClear gd 0 (gd.hsize + py) 1 1 bg =
        gridClearLines gd (gd.hsize + py) 1 bg := by
      have hlines := @gridClear_lines gd bg (by omega) (gd.hsize + py) 1
      rwa [← hone] at hlines
    rw [hclear]
    have hself := hcontents (gd.hsize + py) hlt
    rw [if_pos ⟨Nat.le_refl _, Nat.lt_succ_self _⟩, Grid.contents, List.getElem?_map,
      Option.map_eq_some_iff] at hself
    obtain ⟨gl', hgl', hcontent⟩ := hself
    have hblank := (gridEmptyLine_reads table gd.sx bg).1
    rw [← hcontent] at hblank
    refine ⟨gridClearLines_shape _ _ _ _, fun k hk hne => ?_, gl, gl', hgl, hgl',
      fun x gc hx _ => by omega, fun x gc _ hlt _ => by omega, fun x _ hlt => hblank x (by omega)⟩
    rw [hcontents k hk, if_neg (by omega)]
  · rw [gridClear_line bg hgl hy (Nat.le_refl 1) hpart, setLine_insertsCells hgl]
    obtain ⟨hblank, hkept⟩ := @lineClear_reads table gd.sx gl px 1 bg hwf.recorded (by omega)
    exact ⟨fun x gc hx hgc => hkept x (.inl hx) gc hgc, fun x gc hge hlt _ => by omega, hblank⟩

/-- Before the last column inserting characters is right exactly when the cells that are neither
moved nor wiped are blank. -/
theorem gridMoveCells_insertsCells (h : GridWellFormed table gd) {px py nx : Nat} (hpy : py < gd.sy)
    (hnx : 1 ≤ nx) (hle : px + nx ≤ gd.sx) :
    InsertsCells table gd
        (gridMoveCells gd (px + nx) px (gd.hsize + py) (gd.sx - px - nx) bg) px py nx bg ↔
      ∀ x, gd.sx - nx ≤ x → x < px + nx → gd.BlankAt table x py bg := by
  have hy : gd.hsize + py < gd.hsize + gd.sy := by omega
  obtain ⟨gl, hgl, hwf⟩ := h.line_at hy
  obtain ⟨hlt, hget⟩ := List.getElem?_eq_some_iff.mp hgl
  have hblankAt : ∀ x, gd.BlankAt table x py bg ↔ gl.Blank table x bg := by
    intro x
    constructor
    · rintro ⟨gl', hgl', hblank⟩
      obtain rfl := Option.some.inj (hgl.symm.trans hgl')
      exact hblank
    · exact fun hblank => ⟨gl, hgl, hblank⟩
  simp only [hblankAt]
  -- When nothing is moved the line stays, with all of the cells in between.
  obtain ⟨gl', hmove, hleft, hmoved, hwiped, hgap⟩ : ∃ gl',
      gridMoveCells gd (px + nx) px (gd.hsize + py) (gd.sx - px - nx) bg =
        gd.setLine (gd.hsize + py) gl' ∧
      (∀ x gc, x < px → gl.Reads table x gc → gl'.Reads table x gc) ∧
      (∀ x gc, px ≤ x → x < gd.sx - nx → gl.Reads table x gc → gl'.Reads table (x + nx) gc) ∧
      (∀ x, px ≤ x → x < px + nx → x < gd.sx - nx → gl'.Reads table x (blankCell bg)) ∧
      ∀ x, gd.sx - nx ≤ x → x < px + nx → ∀ gc, gl.Reads table x gc → gl'.Reads table x gc := by
    by_cases hnone : gd.sx - px - nx = 0
    · refine ⟨gl, ?_, fun x gc _ hgc => hgc,
        fun x gc hge hlt => by omega, fun x hge _ hlt => by omega, fun x _ _ gc hgc => hgc⟩
      rw [gridMoveCells, if_pos (.inl hnone), Grid.setLine, ← hget, List.set_getElem_self]
    · obtain ⟨-, hmoved, hwiped, hothers⟩ :=
        @lineMoveCells_reads table gd.sx gl (px + nx) px (gd.sx - px - nx) bg hwf.recorded
      refine ⟨lineMoveCells gd.sx gl (px + nx) px (gd.sx - px - nx) bg, ?_,
        fun x gc hx hgc => hothers x (by omega) (by omega) gc hgc, fun x gc hge hlt hgc => ?_,
        fun x hge hin hlt => hwiped x hge (by omega) (by omega),
        fun x hge hlt gc hgc => hothers x (by omega) (by omega) gc hgc⟩
      · rw [gridMoveCells, if_neg (by omega), List.modify_eq_set_getElem?, hgl]
        rfl
      · refine hmoved (x + nx) (by omega) (by omega) gc ?_
        rwa [(by omega : px + (x + nx - (px + nx)) = x)]
  rw [hmove, setLine_insertsCells hgl]
  constructor
  · intro hline x hge hlt
    exact (hwf.blank_iff (hgap x hge hlt)).mp (hline.blank x (by omega) hlt)
  · intro hblank
    refine ⟨hleft, hmoved, fun x hge hlt => ?_⟩
    rcases Nat.lt_or_ge x (gd.sx - nx) with hin | hout
    · exact .inl (hwiped x hge hlt hin)
    · exact (hwf.blank_iff (hgap x hout hlt)).mpr (hblank x hout hlt)

theorem gridViewInsertCells_iff (h : GridWellFormed table gd) {px py nx : Nat} (hpy : py < gd.sy)
    (hpx : px < gd.sx) (hnx : 1 ≤ nx) (hle : nx ≤ gd.sx - px) :
    InsertsCells table gd (gridViewInsertCells gd px py nx bg) px py nx bg ↔
      px + 1 = gd.sx ∨ ∀ x, gd.sx - nx ≤ x → x < px + nx → gd.BlankAt table x py bg := by
  rw [gridViewInsertCells]
  by_cases hlast : gd.sx - 1 ≤ px
  · obtain rfl : nx = 1 := by omega
    rw [if_pos hlast]
    exact iff_of_true (gridClear_insertsCells h hpy (by omega)) (.inl (by omega))
  · rw [if_neg hlast, gridMoveCells_insertsCells h hpy hnx (by omega)]
    exact ⟨.inr, fun hcond => hcond.resolve_left (by omega)⟩

/-! ### Inserting -/

/-- Inserting lines or characters leaves blank ones and shifts the others exactly when the part of
the place that is not moved, where more is inserted than stays behind it, is blank already. -/
theorem gridView_insert_iff (h : GridWellFormed table gd) (bg : UInt32) :
    (∀ py ny, py < gd.sy → 1 ≤ ny → ny ≤ gd.sy - py →
      (InsertsLines table gd (gridViewInsertLines gd py ny bg) py ny bg ↔
        ∀ k, gd.sy - ny ≤ k → k < py + ny → gd.BlankRow table k bg)) ∧
    ∀ px py nx, py < gd.sy → px < gd.sx → 1 ≤ nx → nx ≤ gd.sx - px →
      (InsertsCells table gd (gridViewInsertCells gd px py nx bg) px py nx bg ↔
        px + 1 = gd.sx ∨ ∀ x, gd.sx - nx ≤ x → x < px + nx → gd.BlankAt table x py bg) :=
  ⟨fun _ _ hpy hny hle => gridViewInsertLines_iff h.length hpy hny hle,
    fun _ _ _ hpy hpx hnx hle => gridViewInsertCells_iff h hpy hpx hnx hle⟩

/-- The entry of an `x`. -/
def markedEntry : GridCellEntry := { GRID_CLEARED_ENTRY with data := 0x78 }

/-- Three rows of three columns, with one character in the middle. -/
def markedGrid : Grid :=
  ⟨3, 3, 0, 0, [.zeroed, { GridLine.zeroed with
    celldata := [GRID_CLEARED_ENTRY, markedEntry]
    cellused := 2 }, .zeroed]⟩

theorem markedGrid_wellFormed : GridWellFormed Utf8Table.empty markedGrid :=
  .of_packed rfl (by decide)

/-- One row is inserted before the character, and one cell. -/
theorem gridView_insert_iff_marked :
    InsertsLines Utf8Table.empty markedGrid (gridViewInsertLines markedGrid 1 1 8) 1 1 8 ∧
      InsertsCells Utf8Table.empty markedGrid (gridViewInsertCells markedGrid 1 1 1 8) 1 1 1 8 := by
  obtain ⟨hlines, hcells⟩ := gridView_insert_iff markedGrid_wellFormed 8
  refine ⟨(hlines 1 1 (by decide) (by decide) (by decide)).mpr ?_,
    (hcells 1 1 1 (by decide) (by decide) (by decide) (by decide)).mpr (.inr ?_)⟩
  · intro k hge hlt
    exact absurd hlt (Nat.not_lt.mpr hge)
  · intro x hge hlt
    exact absurd hlt (Nat.not_lt.mpr hge)

theorem markedEntry_not_blank {gl : GridLine} {px : Nat}
    (h : lineGetCell Utf8Table.empty gl px = .ok (readPacked markedEntry)) :
    ¬ gl.Blank Utf8Table.empty px 8 := by
  rintro (⟨gc, hgc, hsame⟩ | ⟨-, gc, hgc, hsame⟩) <;>
    obtain rfl := Except.ok.inj (h.symm.trans hgc) <;>
    exact absurd hsame.data.bytes (by decide)

/-- Two rows are inserted before three, or two cells, and the second of them is not blank. -/
theorem markedGrid_survives :
    GridWellFormed Utf8Table.empty markedGrid ∧
      ¬ InsertsLines Utf8Table.empty markedGrid (gridViewInsertLines markedGrid 0 2 8) 0 2 8 ∧
      ¬ InsertsCells Utf8Table.empty markedGrid (gridViewInsertCells markedGrid 0 1 2 8) 0 1 2
        8 := by
  refine ⟨markedGrid_wellFormed, fun hlines => ?_, fun hcells => ?_⟩
  · obtain ⟨gl, hgl, hblank⟩ := hlines.blank 1 (by decide) (by decide) 1 (by decide)
    obtain rfl := Option.some.inj hgl
    exact markedEntry_not_blank rfl hblank
  · obtain ⟨gl, gl', -, hgl', hline⟩ := hcells.line
    obtain rfl := Option.some.inj hgl'
    exact markedEntry_not_blank rfl (hline.blank 1 (by decide) (by decide))

end Ztmux.Grids
