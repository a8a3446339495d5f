import Ztmux.Grids.Lines
import Ztmux.Grids.Store

/-!
Moving and clearing cells.

An entry that is moved takes the number of its record with it, and an entry that is cleared is
written over or given a new record at the end. So what a position is read as follows the entries.
-/

namespace Ztmux.Grids

open Utf8 ScreenWrite

/-! ### Model -/

/-- Clear `n` cells from `xx` on, but for those that the move has filled. -/
def wipeCells (bg : UInt32) (dx nx : Nat) : Nat → Nat → GridLine → GridLine
  | 0, _, gl => gl
  | n + 1, xx, gl =>
      wipeCells bg dx nx n (xx + 1)
        (if dx ≤ xx ∧ xx < dx + nx then gl else gridClearCell gl xx bg)

/-- What `grid_move_cells` does to its line. -/
def lineMoveCells (gsx : Nat) (gl : GridLine) (dx px nx : Nat) (bg : UInt32) : GridLine :=
  let gl := gridExpandLine gsx gl (px + nx) 8
  let gl := gridExpandLine gsx gl (dx + nx) 8
  wipeCells bg dx nx nx px { gl with
    celldata := copyWithin dx px nx gl.celldata
    cellused := if gl.cellused < dx + nx then dx + nx else gl.cellused }

def gridMoveCells (gd : Grid) (dx px py nx : Nat) (bg : UInt32) : Grid :=
  if nx = 0 ∨ px = dx ∨ gd.hsize + gd.sy ≤ py then gd
  else { gd with linedata := gd.linedata.modify py fun gl => lineMoveCells gd.sx gl dx px nx bg }

def gridViewDeleteCells (gd : Grid) (px py nx : Nat) (bg : UInt32) : Grid :=
  let py := gd.hsize + py
  let sx := gd.sx
  let gd := gridMoveCells gd px (px + nx) py (sx - px - nx) bg
  gridClear gd (sx - nx) py nx 1 bg

/-! ### What a line is read as -/

/-- A position of the line is read as a cell that looks like this one. -/
def GridLine.Reads (table : Utf8Table) (gl : GridLine) (px : Nat) (gc : GridCell) : Prop :=
  ∃ gc', lineGetCell table gl px = .ok gc' ∧ SameCell gc' gc

/-- Every extended entry has a record. -/
def GridLine.Recorded (gl : GridLine) : Prop :=
  ∀ gce ∈ gl.celldata, gce.flags.extended = true → gce.offset < gl.extddata.length

theorem GridLine.WellFormed.recorded {table : Utf8Table} {gl : GridLine}
    (h : gl.WellFormed table) : gl.Recorded := by
  intro gce hgce hext
  obtain ⟨px, hlt, rfl⟩ := List.getElem_of_mem hgce
  obtain ⟨gee, hgee, -⟩ := h.readable px _ (List.getElem?_eq_getElem hlt) hext
  exact (List.getElem?_eq_some_iff.mp hgee).1

theorem GridLine.Recorded.longer {gl : GridLine} (h : gl.Recorded) (n : Nat) :
    (gl.longer n).Recorded := by
  intro gce hgce hext
  rcases List.mem_append.mp hgce with hold | hnew
  · exact h gce hold hext
  · rw [List.eq_of_mem_replicate hnew] at hext
    cases hext

/-- Two lines are read alike where they have the same entry, of the same record. -/
theorem lineGetCell_congr (table : Utf8Table) {gl gl' : GridLine} {px px' : Nat}
    {gce : GridCellEntry} (h : gl.celldata[px]? = some gce) (h' : gl'.celldata[px']? = some gce)
    (hrecord : gce.flags.extended = true →
      gl'.extddata[gce.offset]? = gl.extddata[gce.offset]?) :
    lineGetCell table gl' px' = lineGetCell table gl px := by
  obtain ⟨hlt, -⟩ := List.getElem?_eq_some_iff.mp h
  obtain ⟨hlt', -⟩ := List.getElem?_eq_some_iff.mp h'
  rw [lineGetCell_of_lt hlt, lineGetCell_of_lt hlt', gridGetCell1, gridGetCell1, h, h']
  cases hext : gce.flags.extended with
  | false => simp only [hext, Bool.false_eq_true, if_false]
  | true => simp only [hext, if_true, hrecord hext]

/-! ### Blank cells -/

/-- The colour that a cleared cell has. -/
def blankColour (bg : UInt32) : Int :=
  if wideColour bg then asI32 bg
  else bg.toUInt8.toNat + if bg &&& 0x01000000 != 0 then COLOUR_FLAG_256 else 0

def blankCell (bg : UInt32) : GridCell := { GRID_DEFAULT_CELL with bg := blankColour bg }

theorem length_gridClearCell (gl : GridLine) (px : Nat) (bg : UInt32) :
    (gridClearCell gl px bg).celldata.length = gl.celldata.length := by
  rw [gridClearCell]
  split_ifs <;> exact List.length_set

theorem blankWord_read (table : Utf8Table) :
    ∃ ud, utf8ToData table blankWord = .ok ud ∧ ud.Shows GRID_DEFAULT_CELL.data :=
  ⟨shortData blankWord, utf8ToData_eq_shortData table (by decide),
    by decide, by decide, by decide⟩

/-- The record of a cleared cell with a wide colour. -/
def clearedRecord (bg : UInt32) : GridExtdEntry := ⟨blankWord, 0, .empty, 8, asI32 bg, 8, 0⟩

theorem readExtended_clearedRecord (table : Utf8Table) {bg : UInt32}
    (hwide : wideColour bg = true) :
    ∃ gc, readExtended table (clearedRecord bg) = .ok gc ∧ SameCell gc (blankCell bg) := by
  obtain ⟨ud, hread, hshows⟩ := blankWord_read table
  refine ⟨⟨ud, 0, .empty, 8, asI32 bg, 8, 0⟩, ?_, rfl, rfl, (if_pos hwide).symm, rfl, rfl, rfl,
    hshows⟩
  have hattr : ¬ 0x7fff < (clearedRecord bg).attr := (by decide : ¬ (0x7fff : UInt16) < 0)
  have hdata : utf8ToData table (clearedRecord bg).data = .ok ud := hread
  have htab : (clearedRecord bg).flags.tab = false := rfl
  simp only [readExtended, if_neg hattr, htab, Bool.false_eq_true, if_false, hdata, ok_bind]
  rfl

theorem gridClearCell_self (table : Utf8Table) {gl : GridLine} {px : Nat}
    (hpx : px < gl.celldata.length) (bg : UInt32) :
    (gridClearCell gl px bg).Reads table px (blankCell bg) := by
  rw [gridClearCell]
  split_ifs with hdefault hwide
  · subst hdefault
    have hnew : (gl.celldata.set px GRID_CLEARED_ENTRY)[px]? = some GRID_CLEARED_ENTRY :=
      List.getElem?_set_self hpx
    exact ⟨_, @lineGetCell_packed ⟨_, gl.cellused, _, _⟩ _ _ hnew rfl table,
      readPacked_cleared⟩
  · obtain ⟨gc, hread, hsame⟩ := readExtended_clearedRecord table hwide
    have hentry := List.getElem?_set_self
      (a := ({ GRID_CLEARED_ENTRY with
        offset := gl.extddata.length
        flags := { GRID_CLEARED_ENTRY.flags with extended := true } } : GridCellEntry)) hpx
    have hnew : (gl.extddata ++ [clearedRecord bg])[gl.extddata.length]? =
        some (clearedRecord bg) := List.getElem?_concat_length
    exact ⟨gc, (@lineGetCell_extended ⟨_, gl.cellused, _, _⟩ _ _ _ hentry rfl hnew table).trans
      hread, hsame⟩
  · have hentry := List.getElem?_set_self
      (a := ({ GRID_CLEARED_ENTRY with
        flags := { GRID_CLEARED_ENTRY.flags with bg256 := bg &&& 0x01000000 != 0 }
        bg := bg.toUInt8 } : GridCellEntry)) hpx
    refine ⟨_, @lineGetCell_packed ⟨_, gl.cellused, _, _⟩ _ _ hentry rfl table, rfl, rfl, ?_, rfl,
      rfl, rfl, rfl, rfl, rfl⟩
    exact (if_neg hwide).symm

theorem gridClearCell_of_ne (table : Utf8Table) {gl : GridLine} (h : gl.Recorded) {px qx : Nat}
    (hne : qx ≠ px) (bg : UInt32) :
    lineGetCell table (gridClearCell gl px bg) qx = lineGetCell table gl qx := by
  rw [gridClearCell]
  split_ifs
  · exact (elsewhere_set gl px _).read table hne
  · have hextd : gl.Elsewhere (gridGetExtendedCell gl px GRID_CLEARED_ENTRY
        GRID_CLEARED_ENTRY.flags (clearedRecord bg)) px := by
      refine ⟨List.length_set, fun _ hqx => List.getElem?_set_ne hqx.symm,
        fun rx gce _ hgce hext => ?_⟩
      exact List.getElem?_append_left (h gce (List.mem_of_getElem? hgce) hext)
    obtain ⟨hlen, hentry, hrec⟩ := hextd
    exact GridLine.Elsewhere.read ⟨hlen, hentry, hrec⟩ table hne
  · exact (elsewhere_set gl px _).read table hne

theorem GridLine.Recorded.gridClearCell {gl : GridLine} (h : gl.Recorded) (px : Nat)
    (bg : UInt32) : (Grids.gridClearCell gl px bg).Recorded := by
  intro gce hgce hext
  rw [Grids.gridClearCell] at hgce ⊢
  split_ifs at hgce ⊢
  · rcases List.mem_or_eq_of_mem_set hgce with hold | rfl
    · exact h gce hold hext
    · cases hext
  · rw [GridLine.flagExtended, gridGetExtendedCell, List.length_append, List.length_singleton]
    rcases List.mem_or_eq_of_mem_set hgce with hold | rfl
    · exact Nat.lt_succ_of_lt (h gce hold hext)
    · exact Nat.lt_succ_self _
  · rcases List.mem_or_eq_of_mem_set hgce with hold | rfl
    · exact h gce hold hext
    · cases hext

/-- Clearing cells is wiping them where nothing was moved to. -/
theorem clearCells_eq_wipeCells (bg : UInt32) (n px : Nat) (gl : GridLine) :
    clearCells bg px n gl = wipeCells bg 0 0 n px gl := by
  induction n generalizing px gl with
  | zero => rfl
  | succ n ih => rw [clearCells, wipeCells, if_neg (fun h => by omega), ih]

/-- What wiping `n` cells from `px` on does to a line. -/
structure Wiped (table : Utf8Table) (bg : UInt32) (dx nx n px : Nat) (gl gl' : GridLine) :
    Prop where
  length : gl'.celldata.length = gl.celldata.length
  recorded : gl'.Recorded
  blank : ∀ x, px ≤ x → x < px + n → ¬ (dx ≤ x ∧ x < dx + nx) →
    gl'.Reads table x (blankCell bg)
  stays : ∀ x, x < px ∨ px + n ≤ x ∨ (dx ≤ x ∧ x < dx + nx) →
    lineGetCell table gl' x = lineGetCell table gl x

theorem wipeCells_wiped (table : Utf8Table) (bg : UInt32) (dx nx n px : Nat) {gl : GridLine}
    (h : gl.Recorded) (hle : px + n ≤ gl.celldata.length) :
    Wiped table bg dx nx n px gl (wipeCells bg dx nx n px gl) := by
  induction n generalizing px gl with
  | zero => exact ⟨rfl, h, fun x hge hlt => by omega, fun _ _ => rfl⟩
  | succ n ih =>
      rw [wipeCells]
      by_cases hskip : dx ≤ px ∧ px < dx + nx
      · rw [if_pos hskip]
        obtain ⟨hlen, hrec, hblank, hstays⟩ := ih (px + 1) h (by omega)
        refine ⟨hlen, hrec, fun x hge hlt hno => ?_, fun x hx => hstays x ?_⟩
        · rcases Nat.eq_or_lt_of_le hge with rfl | hgt
          · exact absurd hskip hno
          · exact hblank x hgt (by omega) hno
        · rcases hx with hx | hx | hx
          · exact .inl (by omega)
          · exact .inr (.inl (by omega))
          · exact .inr (.inr hx)
      · rw [if_neg hskip]
        have hlength := length_gridClearCell gl px bg
        obtain ⟨hlen, hrec, hblank, hstays⟩ := ih (px + 1) (h.gridClearCell px bg) (by omega)
        refine ⟨hlen.trans hlength, hrec, fun x hge hlt hno => ?_, fun x hx => ?_⟩
        · rcases Nat.eq_or_lt_of_le hge with rfl | hgt
          · rw [GridLine.Reads, hstays px (.inl (Nat.lt_succ_self px))]
            exact gridClearCell_self table (by omega) bg
          · exact hblank x hgt (by omega) hno
        · have hne : x ≠ px := by
            rintro rfl
            rcases hx with hx | hx | hx
            · omega
            · omega
            · exact hskip hx
          rw [hstays x (by omega), gridClearCell_of_ne table h hne]

theorem clearCells_wiped (table : Utf8Table) (bg : UInt32) (n px : Nat) {gl : GridLine}
    (h : gl.Recorded) (hle : px + n ≤ gl.celldata.length) :
    Wiped table bg 0 0 n px gl (clearCells bg px n gl) := by
  rw [clearCells_eq_wipeCells]
  exact wipeCells_wiped table bg 0 0 n px h hle

/-! ### Clearing and moving in a line -/

/-- A position is blank. With a default colour a cell that is not there is. -/
def GridLine.Blank (table : Utf8Table) (gl : GridLine) (px : Nat) (bg : UInt32) : Prop :=
  gl.Reads table px (blankCell bg) ∨
    ((bg = 8 ∨ bg = 9) ∧ gl.Reads table px GRID_DEFAULT_CELL)

theorem GridLine.Reads.of_le (table : Utf8Table) {gl : GridLine} {px : Nat}
    (h : gl.celldata.length ≤ px) : gl.Reads table px GRID_DEFAULT_CELL :=
  ⟨_, lineGetCell_of_le h table, .refl _⟩

theorem GridLine.Reads.longer {table : Utf8Table} {gl : GridLine} {px : Nat} {gc : GridCell}
    (h : gl.Reads table px gc) (n : Nat) : (gl.longer n).Reads table px gc := by
  obtain ⟨old, hold, hsame⟩ := h
  obtain ⟨new, hnew, hsame'⟩ := longer_read hold n
  exact ⟨new, hnew, hsame'.trans hsame⟩

/-- The positions from `px` to `px + nx` are blank, and the others look as before. -/
theorem lineClear_reads (table : Utf8Table) {gsx : Nat} {gl : GridLine} {px nx : Nat}
    {bg : UInt32} (h : gl.Recorded) (hle : px + nx ≤ gsx) :
    (∀ x, px ≤ x → x < px + nx → (lineClear gsx gl px nx bg).Blank table x bg) ∧
      ∀ x, x < px ∨ px + nx ≤ x → ∀ gc, gl.Reads table x gc →
        (lineClear gsx gl px nx bg).Reads table x gc := by
  obtain ⟨sx, hsx⟩ : ∃ sx, sx = if gl.cellsize < gsx then gl.cellsize else gsx := ⟨_, rfl⟩
  have hsize : sx < gsx → sx = gl.celldata.length := by
    intro hlt
    rw [hsx] at hlt ⊢
    split_ifs at hlt ⊢
    · rfl
    · exact absurd hlt (Nat.lt_irrefl gsx)
  simp only [lineClear, ← hsx]
  split_ifs with hskip hshort
  · -- the line ends before the cells
    have hend := hsize (by omega)
    exact ⟨fun x hge hlt => .inr ⟨hskip.1, .of_le table (by omega)⟩, fun x _ gc hgc => hgc⟩
  · -- the line ends among the cells
    have hend := hsize (by omega)
    have hpx : ¬ sx < px := fun hlt => hskip ⟨hshort.1, hlt⟩
    have hcount : expandCount gsx gl (px + (sx - px)) = 0 := by
      rw [expandCount, if_pos]
      rw [GridLine.cellsize]
      omega
    have hsame : gl.longer 0 = gl := by
      rw [GridLine.longer, List.replicate_zero, List.append_nil]
    rw [gridExpandLine_eq_longer, hcount, hsame]
    have hwiped := clearCells_wiped table bg (sx - px) px h (by omega)
    refine ⟨fun x hge hlt => ?_, fun x hx gc hgc => ?_⟩
    · rcases Nat.lt_or_ge x sx with hin | hout
      · exact .inl (hwiped.blank x hge (by omega) (by omega))
      · exact .inr ⟨hshort.1, .of_le table (by rw [hwiped.length]; omega)⟩
    · rw [GridLine.Reads, hwiped.stays x (by omega)]
      exact hgc
  · have hlong := le_longer_expandCount gsx gl (px + nx)
    rw [gridExpandLine_eq_longer]
    have hwiped := clearCells_wiped table bg nx px (h.longer _) hlong
    refine ⟨fun x hge hlt => .inl (hwiped.blank x hge hlt (by omega)), fun x hx gc hgc => ?_⟩
    rw [GridLine.Reads, hwiped.stays x (by omega)]
    exact hgc.longer _

theorem mem_of_mem_copyWithin {α : Type} {dst src n : Nat} {l : List α} {a : α}
    (h : a ∈ copyWithin dst src n l) : a ∈ l := by
  rw [copyWithin, List.mem_append, List.mem_append] at h
  rcases h with (h | h) | h
  · exact List.mem_of_mem_take h
  · exact List.mem_of_mem_drop (List.mem_of_mem_take h)
  · exact List.mem_of_mem_drop h

theorem lineGetCell_copied (table : Utf8Table) (gl : GridLine) {dx px nx used x : Nat}
    (hdx : dx + nx ≤ gl.celldata.length) (hpx : px + nx ≤ gl.celldata.length) :
    lineGetCell table { gl with celldata := copyWithin dx px nx gl.celldata, cellused := used } x =
      lineGetCell table gl (if dx ≤ x ∧ x < dx + nx then px + (x - dx) else x) := by
  have hentry := getElem?_copyWithin hdx hpx x
  have hlen := length_copyWithin hdx hpx
  rcases Nat.lt_or_ge x gl.celldata.length with hlt | hge
  · have hsrc : (if dx ≤ x ∧ x < dx + nx then px + (x - dx) else x) < gl.celldata.length := by
      split_ifs <;> omega
    have hget := List.getElem?_eq_getElem hsrc
    refine lineGetCell_congr table hget ?_ fun _ => rfl
    dsimp only
    rw [hentry, ← hget]
    split_ifs <;> rfl
  · have hno : ¬ (dx ≤ x ∧ x < dx + nx) := by omega
    rw [if_neg hno, lineGetCell_of_le hge, lineGetCell_of_le (by dsimp only; omega)]

/-- The cells are where they were moved to, the positions they have left are blank, and the
others look as before. -/
theorem lineMoveCells_reads (table : Utf8Table) (gsx : Nat) {gl : GridLine} {dx px nx : Nat}
    (bg : UInt32) (h : gl.Recorded) :
    (lineMoveCells gsx gl dx px nx bg).Recorded ∧
      (∀ x, dx ≤ x → x < dx + nx → ∀ gc, gl.Reads table (px + (x - dx)) gc →
        (lineMoveCells gsx gl dx px nx bg).Reads table x gc) ∧
      (∀ x, px ≤ x → x < px + nx → ¬ (dx ≤ x ∧ x < dx + nx) →
        (lineMoveCells gsx gl dx px nx bg).Reads table x (blankCell bg)) ∧
      ∀ x, ¬ (dx ≤ x ∧ x < dx + nx) → ¬ (px ≤ x ∧ x < px + nx) → ∀ gc, gl.Reads table x gc →
        (lineMoveCells gsx gl dx px nx bg).Reads table x gc := by
  have hfirst := le_longer_expandCount gsx gl (px + nx)
  simp only [lineMoveCells, gridExpandLine_eq_longer]
  set first := gl.longer (expandCount gsx gl (px + nx))
  have hdx := le_longer_expandCount gsx first (dx + nx)
  set long := first.longer (expandCount gsx first (dx + nx)) with hlong
  have hpx : px + nx ≤ long.celldata.length := by
    rw [hlong, GridLine.longer, List.length_append]
    omega
  have hreads : ∀ x gc, gl.Reads table x gc → long.Reads table x gc :=
    fun x gc hgc => (hgc.longer _).longer _
  set copied : GridLine := { long with
    celldata := copyWithin dx px nx long.celldata
    cellused := if long.cellused < dx + nx then dx + nx else long.cellused } with hcopied
  have hrecorded : copied.Recorded :=
    fun gce hgce => (h.longer _).longer _ gce (mem_of_mem_copyWithin hgce)
  have hwiped := wipeCells_wiped table bg dx nx nx px hrecorded
    (by rw [hcopied, length_copyWithin hdx hpx]; exact hpx)
  refine ⟨hwiped.recorded, fun x hge hlt gc hgc => ?_,
    fun x hge hlt hno => hwiped.blank x hge hlt hno, fun x hno hno' gc hgc => ?_⟩
  · rw [GridLine.Reads, hwiped.stays x (.inr (.inr ⟨hge, hlt⟩)),
      lineGetCell_copied table long hdx hpx, if_pos ⟨hge, hlt⟩]
    exact hreads _ gc hgc
  · rw [GridLine.Reads, hwiped.stays x (by omega), lineGetCell_copied table long hdx hpx,
      if_neg hno]
    exact hreads x gc hgc

/-- An emptied line is blank as far as the grid is wide. -/
theorem gridEmptyLine_reads (table : Utf8Table) (gsx : Nat) (bg : UInt32) :
    (∀ x, x < gsx → (gridEmptyLine gsx bg).Blank table x bg) ∧
      ∀ x, gsx ≤ x → (gridEmptyLine gsx bg).Reads table x GRID_DEFAULT_CELL := by
  rw [gridEmptyLine]
  split_ifs with hdefault
  · exact ⟨fun x _ => .inr ⟨hdefault, .of_le table (Nat.zero_le x)⟩,
      fun x _ => .of_le table (Nat.zero_le x)⟩
  · have hsize : expandSize gsx gsx - GridLine.zeroed.cellsize = gsx := by
      rw [expandSize, if_neg (by omega), if_neg (by omega), if_neg (Nat.lt_irrefl gsx)]
      rfl
    rw [gridExpandLine, hsize]
    split_ifs with hnone
    · exact ⟨fun x hx => absurd hx (by rw [Nat.le_zero.mp hnone]; exact Nat.not_lt_zero x),
        fun x _ => .of_le table (Nat.zero_le x)⟩
    · have hrecorded : (GridLine.zeroed.longer gsx).Recorded :=
        GridLine.Recorded.longer (fun gce h => absurd h List.not_mem_nil) gsx
      have hlength : (GridLine.zeroed.longer gsx).celldata.length = gsx := by
        rw [GridLine.longer, GridLine.zeroed, List.nil_append, List.length_replicate]
      have hwiped := clearCells_wiped table bg gsx 0 hrecorded (by omega)
      exact ⟨fun x hx => .inl (hwiped.blank x (Nat.zero_le x) (by omega) (by omega)),
        fun x hx => .of_le table (Nat.le_trans (Nat.le_of_eq (hwiped.length.trans hlength)) hx)⟩

/-! ### Deleting characters -/

/-- The cells of a line from `px` on without the first `nx`, and blanks behind them; cells to the
right of the grid are not touched unless it is the whole line. -/
structure LineDeletes (table : Utf8Table) (gsx : Nat) (gl gl' : GridLine) (px nx : Nat)
    (bg : UInt32) : Prop where
  left : ∀ x gc, x < px → gl.Reads table x gc → gl'.Reads table x gc
  moved : ∀ x gc, px ≤ x → x < gsx - nx → gl.Reads table (x + nx) gc → gl'.Reads table x gc
  blank : ∀ x, gsx - nx ≤ x → x < gsx → gl'.Blank table x bg
  right : ∀ x gc, gsx ≤ x → nx ≠ gsx → gl.Reads table x gc → gl'.Reads table x gc
  whole : ∀ x, gsx ≤ x → nx = gsx → gl'.Reads table x GRID_DEFAULT_CELL

/-- One line is changed so, and the others keep their content. -/
structure DeletesCells (table : Utf8Table) (gd gd' : Grid) (px py nx : Nat) (bg : UInt32) :
    Prop where
  shape : SameShape gd gd'
  others : ∀ k, k < gd.linedata.length → k ≠ gd.hsize + py → gd'.contents[k]? = gd.contents[k]?
  line : ∃ gl gl', gd.linedata[gd.hsize + py]? = some gl ∧
    gd'.linedata[gd.hsize + py]? = some gl' ∧ LineDeletes table gd.sx gl gl' px nx bg

theorem gridMoveCells_line (table : Utf8Table) {gd : Grid} {px y nx : Nat} {gl : GridLine}
    (bg : UInt32) (hgl : gd.linedata[y]? = some gl) (hy : y < gd.hsize + gd.sy)
    (hrecorded : gl.Recorded) (hnx : 1 ≤ nx) (hle : px + nx ≤ gd.sx) :
    ∃ gl', gridMoveCells gd px (px + nx) y (gd.sx - px - nx) bg = gd.setLine y gl' ∧
      gl'.Recorded ∧
      (∀ x gc, x < px ∨ gd.sx ≤ x → gl.Reads table x gc → gl'.Reads table x gc) ∧
      ∀ x gc, px ≤ x → x < gd.sx - nx → gl.Reads table (x + nx) gc → gl'.Reads table x gc := by
  by_cases hnone : gd.sx - px - nx = 0
  · obtain ⟨hlt, rfl⟩ := List.getElem?_eq_some_iff.mp hgl
    refine ⟨gd.linedata[y], ?_, hrecorded, fun x gc _ hgc => hgc, fun x gc hge hlt => by omega⟩
    rw [gridMoveCells, if_pos (.inl hnone), Grid.setLine, List.set_getElem_self]
  · obtain ⟨hrec, hmoved, -, hothers⟩ :=
      @lineMoveCells_reads table gd.sx gl px (px + nx) (gd.sx - px - nx) bg hrecorded
    refine ⟨_, ?_, hrec, fun x gc hx hgc => hothers x (by omega) (by omega) gc hgc,
      fun x gc hge hlt hgc => hmoved x hge (by omega) gc ?_⟩
    · rw [gridMoveCells, if_neg (by omega), List.modify_eq_set_getElem?, hgl]
      rfl
    · rwa [(by omega : px + nx + (x - px) = x + nx)]

theorem gridClear_line {gd : Grid} {px y nx : Nat} {gl : GridLine} (bg : UInt32)
    (hgl : gd.linedata[y]? = some gl) (hy : y < gd.hsize + gd.sy) (hnx : 1 ≤ nx)
    (hpart : ¬ (px = 0 ∧ nx = gd.sx)) :
    gridClear gd px y nx 1 bg = gd.setLine y (lineClear gd.sx gl px nx bg) := by
  rw [gridClear, if_neg (by omega), if_neg hpart, if_neg (by omega), clearRows, clearRows,
    List.modify_eq_set_getElem?, hgl]
  rfl

theorem gridViewDeleteCells_ok (table : Utf8Table) {gd : Grid} {px py nx : Nat} (bg : UInt32)
    (h : GridWellFormed table gd) (hpy : py < gd.sy) (hnx : 1 ≤ nx) (hle : nx ≤ gd.sx - px) :
    DeletesCells table gd (gridViewDeleteCells gd px py nx bg) px py nx bg := by
  have hy : gd.hsize + py < gd.hsize + gd.sy := by omega
  obtain ⟨gl, hgl, hwf⟩ := h.line_at hy
  obtain ⟨hlt, -⟩ := List.getElem?_eq_some_iff.mp hgl
  obtain ⟨gl₁, hmove, hrecorded, hstays, hmoved⟩ :=
    gridMoveCells_line table bg hgl hy hwf.recorded hnx (by omega : px + nx ≤ gd.sx)
  have hgl₁ : (gd.setLine (gd.hsize + py) gl₁).linedata[gd.hsize + py]? = some gl₁ :=
    List.getElem?_set_self hlt
  have hshape : SameShape gd (gd.setLine (gd.hsize + py) gl₁) :=
    ⟨rfl, rfl, rfl, rfl, List.length_set⟩
  have hothers : ∀ k, k ≠ gd.hsize + py →
      (gd.setLine (gd.hsize + py) gl₁).contents[k]? = gd.contents[k]? := by
    intro k hne
    simp only [Grid.contents, Grid.setLine, List.getElem?_map, List.getElem?_set_ne hne.symm]
  rw [gridViewDeleteCells, hmove]
  generalize hgd₁ : gd.setLine (gd.hsize + py) gl₁ = gd₁ at hgl₁ hshape hothers ⊢
  obtain ⟨hlt₁, -⟩ := List.getElem?_eq_some_iff.mp hgl₁
  have hy₁ : gd.hsize + py < gd₁.hsize + gd₁.sy := by rw [hshape.hsize, hshape.sy]; exact hy
  rw [← hshape.sx]
  by_cases hpart : gd₁.sx - nx = 0 ∧ nx = gd₁.sx
  · -- the whole line is emptied
    obtain ⟨hzero, hall⟩ := hpart
    have hwidth := hshape.sx
    have hlen₁ : gd₁.linedata.length = gd₁.hsize + gd₁.sy := by
      rw [hshape.length, h.length, hshape.hsize, hshape.sy]
    have hcontents := fun k hk => @gridClearLines_contents gd₁ bg k (gd.hsize + py) 1 hlen₁ hy₁ hk
    have hclear : gridClear gd₁ (gd₁.sx - nx) (gd.hsize + py) nx 1 bg =
        gridClearLines gd₁ (gd.hsize + py) 1 bg := by
      rw [hzero, hall]
      exact gridClear_lines (by omega) _ _
    rw [hclear]
    have hself := hcontents (gd.hsize + py) hlt₁
    rw [if_pos ⟨Nat.le_refl _, Nat.lt_succ_self _⟩, Grid.contents, List.getElem?_map,
      Option.map_eq_some_iff] at hself
    obtain ⟨gl', hgl', hcontent⟩ := hself
    obtain ⟨hblank, hright⟩ := gridEmptyLine_reads table gd₁.sx bg
    rw [← hcontent] at hblank hright
    refine ⟨hshape.trans (gridClearLines_shape _ _ _ _), fun k hk hne => ?_, gl, gl', hgl, hgl',
      fun x gc hx _ => by omega, fun x gc _ hlt _ => by omega,
      fun x _ hlt => hblank x (by rw [hshape.sx]; exact hlt),
      fun x gc _ hne _ => absurd (hall.trans hshape.sx) hne,
      fun x hge _ => hright x (by rw [hshape.sx]; exact hge)⟩
    rw [hcontents k (by rw [hshape.length]; exact hk), if_neg (by omega), hothers k hne]
  · rw [gridClear_line bg hgl₁ hy₁ hnx hpart]
    obtain ⟨hblank, hkept⟩ := @lineClear_reads table gd₁.sx gl₁ (gd₁.sx - nx) nx bg hrecorded
      (by rw [hshape.sx]; omega)
    rw [hshape.sx] at hblank hkept hpart ⊢
    refine ⟨hshape.trans ⟨rfl, rfl, rfl, rfl, List.length_set⟩, fun k hk hne => ?_, gl, _, hgl,
      List.getElem?_set_self hlt₁, fun x gc hx hgc => ?_, fun x gc hge hlt hgc => ?_,
      fun x hge hlt => hblank x hge (by omega), fun x gc hge _ hgc => ?_,
      fun x _ hall => absurd ⟨by omega, hall⟩ hpart⟩
    · rw [← hothers k hne]
      simp only [Grid.contents, Grid.setLine, List.getElem?_map, List.getElem?_set_ne hne.symm]
    · exact hkept x (.inl (by omega)) gc (hstays x gc (.inl hx) hgc)
    · exact hkept x (.inl hlt) gc (hmoved x gc hge hlt hgc)
    · exact hkept x (.inr (by omega)) gc (hstays x gc (.inr hge) hgc)

/-! ### Inserting and deleting -/

/-- Inserting and deleting lines moves those of the region and leaves blank ones, and deleting
characters does so with the cells of a line. -/
theorem gridView_insert_delete {table : Utf8Table} {gd : Grid} (h : GridWellFormed table gd)
    (hsx : 0 < gd.sx) (bg : UInt32) :
    (∀ rlower py ny, py ≤ rlower → rlower < gd.sy → 1 ≤ ny → ny ≤ rlower + 1 - py →
      RegionBecomes gd (gridViewInsertLinesRegion gd rlower py ny bg) rlower py
        (insertedLines gd rlower py ny bg) ∧
      RegionBecomes gd (gridViewDeleteLinesRegion gd rlower py ny bg) rlower py
        (deletedLines gd rlower py ny bg)) ∧
    (∀ py ny, py < gd.sy → 1 ≤ ny → ny ≤ gd.sy - py →
      RegionBecomes gd (gridViewDeleteLines gd py ny bg) (gd.sy - 1) py
        (deletedLines gd (gd.sy - 1) py ny bg)) ∧
    ∀ px py nx, py < gd.sy → 1 ≤ nx → nx ≤ gd.sx - px →
      DeletesCells table gd (gridViewDeleteCells gd px py nx bg) px py nx bg :=
  ⟨fun _ _ _ hpy hr hny hle =>
      ⟨gridViewInsertLinesRegion_ok h.length hsx hpy hr hny hle bg,
        gridViewDeleteLinesRegion_ok h.length hsx hpy hr hny hle bg⟩,
    fun _ _ hpy hny hle => gridViewDeleteLines_ok h.length hsx hpy hny hle bg,
    fun _ _ _ hpy hnx hle => gridViewDeleteCells_ok table bg h hpy hnx hle⟩

def textLine (text : List UInt8) : GridLine :=
  { GridLine.zeroed with
    celldata := text.map fun b => { GRID_CLEARED_ENTRY with
      flags := .empty
      data := b }
    cellused := text.length }

/-- A line of history and three lines on the screen, all of them written. -/
def textGrid : Grid :=
  ⟨4, 3, 0, 1, [textLine [0x68], textLine [0x61, 0x62, 0x63], textLine [0x64, 0x65, 0x66],
    textLine [0x67]]⟩

theorem textGrid_wellFormed : GridWellFormed Utf8Table.empty textGrid :=
  .of_packed rfl (by decide)

/-- A line is put before the first two of the screen, the first line is taken out of two and out of
three, and two cells out of the middle of a line. -/
theorem gridView_insert_delete_text :
    RegionBecomes textGrid (gridViewInsertLinesRegion textGrid 1 0 1 8) 1 0
        [.zeroed, textLine [0x61, 0x62, 0x63]] ∧
      RegionBecomes textGrid (gridViewDeleteLinesRegion textGrid 1 0 1 8) 1 0
        [textLine [0x64, 0x65, 0x66], .zeroed] ∧
      RegionBecomes textGrid (gridViewDeleteLines textGrid 0 1 8) 2 0
        [textLine [0x64, 0x65, 0x66], textLine [0x67], .zeroed] ∧
      DeletesCells Utf8Table.empty textGrid (gridViewDeleteCells textGrid 1 1 2 8) 1 1 2 8 := by
  obtain ⟨hregion, hlines, hcells⟩ := gridView_insert_delete textGrid_wellFormed (by decide) 8
  obtain ⟨hinserted, hdeleted⟩ := hregion 1 0 1 (by decide) (by decide) (by decide) (by decide)
  exact ⟨hinserted, hdeleted, hlines 0 1 (by decide) (by decide) (by decide),
    hcells 1 1 2 (by decide) (by decide) (by decide)⟩

/-- A line of three cells on a grid of two columns. -/
def narrowedGrid : Grid :=
  ⟨2, 1, 0, 0, [{ GridLine.zeroed with
    celldata := [GRID_CLEARED_ENTRY, GRID_CLEARED_ENTRY, { GRID_CLEARED_ENTRY with data := 0x78 }]
    cellused := 3 }]⟩

theorem narrowedGrid_wellFormed : GridWellFormed Utf8Table.empty narrowedGrid :=
  .of_packed rfl (by decide)

/-- Two lines that are one. -/
def wrappedGrid : Grid :=
  ⟨2, 2, 0, 0, [{ GridLine.zeroed with flags := { GridLineFlags.empty with wrapped := true } },
    .zeroed]⟩

/-- Deleting all characters of a line deletes those to the right of the grid, and a line that is
moved down does not go on in the next. -/
theorem gridView_insert_delete_reaches :
    GridWellFormed Utf8Table.empty narrowedGrid ∧
      gridGetCell Utf8Table.empty narrowedGrid 2 0 =
        .ok (readPacked { GRID_CLEARED_ENTRY with data := 0x78 }) ∧
      gridGetCell Utf8Table.empty (gridViewDeleteCells narrowedGrid 0 0 2 8) 2 0 =
        .ok GRID_DEFAULT_CELL ∧
      ¬ SameCell GRID_DEFAULT_CELL (readPacked { GRID_CLEARED_ENTRY with data := 0x78 }) ∧
      (wrappedGrid.linedata[0]?).map (fun gl => gl.flags.wrapped) = some true ∧
      ((gridViewInsertLinesRegion wrappedGrid 1 0 1 8).linedata[1]?).map
        (fun gl => gl.flags.wrapped) = some false :=
  ⟨narrowedGrid_wellFormed, rfl, rfl, fun h => absurd h.data.bytes (by decide), rfl, rfl⟩

end Ztmux.Grids
