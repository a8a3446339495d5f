import Ztmux.Grids.Cell
import Ztmux.Utf8.Words

/-!
What a cell that was set reads back as.

A store goes to the entry at the position and, when that is extended, to its record; everything
else in the line stays. An extended cell is read back as it was set, as long as there is
room in the table for its character. An entry of four bytes has no size and no width, and is
read back as one byte in one column.
-/

namespace Ztmux.Grids

open Utf8 ScreenWrite

/-! ### Cells -/

structure SameCell (gc gc' : GridCell) : Prop where
  attr : gc.attr = gc'.attr
  fg : gc.fg = gc'.fg
  bg : gc.bg = gc'.bg
  us : gc.us = gc'.us
  link : gc.link = gc'.link
  flags : { gc.flags with cleared := false } = { gc'.flags with cleared := false }
  data : gc.data.Shows gc'.data

theorem SameCell.trans {gc gc' gc'' : GridCell} (h : SameCell gc gc') (h' : SameCell gc' gc'') :
    SameCell gc gc'' :=
  ⟨h.attr.trans h'.attr, h.fg.trans h'.fg, h.bg.trans h'.bg, h.us.trans h'.us, h.link.trans h'.link,
    h.flags.trans h'.flags, h.data.trans h'.data⟩

theorem SameCell.symm {gc gc' : GridCell} (h : SameCell gc gc') : SameCell gc' gc :=
  ⟨h.attr.symm, h.fg.symm, h.bg.symm, h.us.symm, h.link.symm, h.flags.symm,
    ⟨h.data.size.symm, h.data.width.symm, h.data.bytes.symm⟩⟩

theorem SameCell.refl (gc : GridCell) : SameCell gc gc :=
  ⟨rfl, rfl, rfl, rfl, rfl, rfl, .refl _⟩

/-- The colours that are stored: a colour of the terminal, one of the 256, an RGB value or one of
a theme. -/
def IsColour (c : Int) : Prop :=
  (0 ≤ c ∧ c < 256) ∨ (COLOUR_FLAG_256 ≤ c ∧ c < COLOUR_FLAG_256 + 256) ∨
    (COLOUR_FLAG_RGB ≤ c ∧ c < COLOUR_FLAG_RGB + 0x1000000) ∨
    (COLOUR_FLAG_THEME ≤ c ∧ c < COLOUR_FLAG_THEME + 0x1000000)

instance (c : Int) : Decidable (IsColour c) := by
  unfold IsColour
  infer_instance

/-- A colour that an entry can hold is read back. -/
theorem IsColour.packed {c : Int} (h : IsColour c) (hrgb : colourHas c COLOUR_FLAG_RGB = false)
    (htheme : colourHas c COLOUR_FLAG_THEME = false) :
    ((UInt8.ofNat (c % 256).toNat).toNat : Int) +
      (if colourHas c COLOUR_FLAG_256 then COLOUR_FLAG_256 else 0) = c := by
  have hbyte : ((UInt8.ofNat (c % 256).toNat).toNat : Int) = c % 256 := by
    rw [UInt8.toNat_ofNat']
    omega
  simp only [IsColour, colourHas, COLOUR_FLAG_256, COLOUR_FLAG_RGB, COLOUR_FLAG_THEME,
    beq_eq_false_iff_ne, beq_iff_eq] at h hrgb htheme ⊢
  rw [hbyte]
  split_ifs with hflag <;> omega

/-- The cells that the code stores. -/
structure Storable (gc : GridCell) : Prop where
  attr : gc.attr ≤ 0x7fff
  fg : IsColour gc.fg
  bg : IsColour gc.bg
  flags : gc.flags.extended = false ∧ gc.flags.fg256 = false ∧ gc.flags.bg256 = false
  data : gc.flags.tab = false → gc.data.Bounded
  tab : gc.flags.tab = true → gc.flags.padding = false ∧ gc.data.width.toNat ≤ utf8Size ∧
    gc.data.size = gc.data.width ∧
    ∀ i : Fin utf8Size, i.val < gc.data.width.toNat → gc.data.data i = 0x20

theorem gridPaddingCell_storable : Storable GRID_PADDING_CELL :=
  ⟨by decide, by decide, by decide, by decide, fun _ => ⟨by decide, by decide⟩,
    fun h => absurd h (by decide)⟩

/-! ### Reading a line -/

theorem lineGetCell_of_lt {gl : GridLine} {px : Nat} (h : px < gl.celldata.length)
    (table : Utf8Table) : lineGetCell table gl px = gridGetCell1 table gl px :=
  if_neg (Nat.not_le.mpr h)

theorem lineGetCell_of_le {gl : GridLine} {px : Nat} (h : gl.celldata.length ≤ px)
    (table : Utf8Table) : lineGetCell table gl px = .ok GRID_DEFAULT_CELL :=
  if_pos h

theorem lineGetCell_packed {gl : GridLine} {px : Nat} {gce : GridCellEntry}
    (h : gl.celldata[px]? = some gce) (hpacked : gce.flags.extended = false)
    (table : Utf8Table) : lineGetCell table gl px = .ok (readPacked gce) := by
  obtain ⟨hlt, -⟩ := List.getElem?_eq_some_iff.mp h
  rw [lineGetCell_of_lt hlt, gridGetCell1, h]
  simp only [hpacked, Bool.false_eq_true, if_false]
  rfl

theorem lineGetCell_extended {gl : GridLine} {px : Nat} {gce : GridCellEntry}
    {gee : GridExtdEntry} (h : gl.celldata[px]? = some gce) (hext : gce.flags.extended = true)
    (hgee : gl.extddata[gce.offset]? = some gee) (table : Utf8Table) :
    lineGetCell table gl px = readExtended table gee := by
  obtain ⟨hlt, -⟩ := List.getElem?_eq_some_iff.mp h
  rw [lineGetCell_of_lt hlt, gridGetCell1, h]
  simp only [hext, if_true, hgee]

/-! ### Well-formed lines -/

/-- An extended cell that can be read. -/
structure GridExtdEntry.Readable (table : Utf8Table) (gee : GridExtdEntry) : Prop where
  attr : gee.attr ≤ 0x7fff
  tab : gee.flags.tab = true → gee.data.toNat ≤ utf8Size
  data : gee.flags.tab = false → Known table gee.data

theorem GridExtdEntry.Readable.grows {table table' : Utf8Table} {gee : GridExtdEntry}
    (h : gee.Readable table) (hgrows : table.Grows table') : gee.Readable table' :=
  ⟨h.attr, h.tab, fun htab => (h.data htab).grows hgrows⟩

/-- It is read the same from then on. -/
theorem GridExtdEntry.Readable.read {table : Utf8Table} {gee : GridExtdEntry}
    (h : gee.Readable table) :
    ∃ gc, readExtended table gee = .ok gc ∧
      ∀ table', table.Grows table' → readExtended table' gee = .ok gc := by
  have hattr : ¬ 0x7fff < gee.attr := UInt16.not_lt.mpr h.attr
  cases htab : gee.flags.tab with
  | true =>
      have hwidth : ¬ utf8Size < gee.data.toNat := Nat.not_lt.mpr (h.tab htab)
      simp only [readExtended, if_neg hattr, htab, if_true, gridSetTab, if_neg hwidth]
      exact ⟨_, rfl, fun _ _ => rfl⟩
  | false =>
      obtain ⟨ud, hread, -, -, hgrows⟩ := (h.data htab).utf8ToData
      refine ⟨⟨ud, gee.attr, gee.flags, gee.fg, gee.bg, gee.us, gee.link⟩, ?_, fun table' ht => ?_⟩
      · simp only [readExtended, if_neg hattr, htab, Bool.false_eq_true, if_false, hread, ok_bind]
        rfl
      · simp only [readExtended, if_neg hattr, htab, Bool.false_eq_true, if_false,
          hgrows table' ht, ok_bind]
        rfl

/-- Every extended entry has a record of its own, which can be read. -/
structure GridLine.WellFormed (table : Utf8Table) (gl : GridLine) : Prop where
  readable : ∀ (px : Nat) (gce : GridCellEntry), gl.celldata[px]? = some gce →
    gce.flags.extended = true →
    ∃ gee, gl.extddata[gce.offset]? = some gee ∧ gee.Readable table
  apart : ∀ (px qx : Nat) (gce gce' : GridCellEntry), gl.celldata[px]? = some gce →
    gl.celldata[qx]? = some gce' → gce.flags.extended = true → gce'.flags.extended = true →
    gce.offset = gce'.offset → px = qx

theorem GridLine.WellFormed.grows {table table' : Utf8Table} {gl : GridLine}
    (h : gl.WellFormed table) (hgrows : table.Grows table') : gl.WellFormed table' := by
  refine ⟨fun px gce hpx hext => ?_, h.apart⟩
  obtain ⟨gee, hgee, hreadable⟩ := h.readable px gce hpx hext
  exact ⟨gee, hgee, hreadable.grows hgrows⟩

/-- Every position of a well-formed line is read, and the same from then on. -/
theorem GridLine.WellFormed.read {table : Utf8Table} {gl : GridLine} (h : gl.WellFormed table)
    (px : Nat) :
    ∃ gc, lineGetCell table gl px = .ok gc ∧
      ∀ table', table.Grows table' → lineGetCell table' gl px = .ok gc := by
  rcases Nat.lt_or_ge px gl.celldata.length with hlt | hge
  · have hgce : gl.celldata[px]? = some gl.celldata[px] := List.getElem?_eq_getElem hlt
    cases hext : gl.celldata[px].flags.extended with
    | false =>
        exact ⟨_, lineGetCell_packed hgce hext table,
          fun table' _ => lineGetCell_packed hgce hext table'⟩
    | true =>
        obtain ⟨gee, hgee, hreadable⟩ := h.readable px _ hgce hext
        obtain ⟨gc, hgc, hgrows⟩ := hreadable.read
        refine ⟨gc, (lineGetCell_extended hgce hext hgee table).trans hgc, fun table' ht => ?_⟩
        exact (lineGetCell_extended hgce hext hgee table').trans (hgrows table' ht)
  · exact ⟨_, lineGetCell_of_le hge table, fun table' _ => lineGetCell_of_le hge table'⟩

/-! ### The rest of the line -/

/-- What is at the other positions than `px` stays. -/
structure GridLine.Elsewhere (gl gl' : GridLine) (px : Nat) : Prop where
  length : gl'.celldata.length = gl.celldata.length
  entry : ∀ qx : Nat, qx ≠ px → gl'.celldata[qx]? = gl.celldata[qx]?
  record : ∀ (qx : Nat) (gce : GridCellEntry), qx ≠ px → gl.celldata[qx]? = some gce →
    gce.flags.extended = true →
    gl'.extddata[gce.offset]? = gl.extddata[gce.offset]?

theorem GridLine.Elsewhere.read {gl gl' : GridLine} {px : Nat} (h : gl.Elsewhere gl' px)
    (table : Utf8Table) {qx : Nat} (hqx : qx ≠ px) :
    lineGetCell table gl' qx = lineGetCell table gl qx := by
  simp only [lineGetCell, GridLine.cellsize, h.length, gridGetCell1, h.entry qx hqx]
  cases hgce : gl.celldata[qx]? with
  | none => rfl
  | some gce =>
      dsimp only
      cases hext : gce.flags.extended with
      | false => simp only [Bool.false_eq_true, if_false]
      | true => simp only [if_true, h.record qx gce hqx hgce hext]

/-- An entry of four bytes at `px`. -/
theorem elsewhere_set (gl : GridLine) (px : Nat) (gce : GridCellEntry) :
    gl.Elsewhere { gl with celldata := gl.celldata.set px gce } px :=
  ⟨List.length_set, fun _ hqx => List.getElem?_set_ne hqx.symm, fun _ _ _ _ _ => rfl⟩

/-- A record for the extended entry at `px`. -/
theorem GridLine.WellFormed.elsewhere_record {table : Utf8Table} {gl : GridLine}
    (h : gl.WellFormed table) {px : Nat} {gce : GridCellEntry} (hgce : gl.celldata[px]? = some gce)
    (hext : gce.flags.extended = true) (gee : GridExtdEntry) :
    gl.Elsewhere { gl with extddata := gl.extddata.set gce.offset gee } px := by
  refine ⟨rfl, fun _ _ => rfl, fun qx gce' hqx hgce' hext' => ?_⟩
  have hne : gce.offset ≠ gce'.offset :=
    fun heq => hqx (h.apart px qx gce gce' hgce hgce' hext hext' heq).symm
  exact List.getElem?_set_ne hne

/-- A new extended entry at `px`. -/
theorem GridLine.WellFormed.elsewhere_extended {table : Utf8Table} {gl : GridLine}
    (h : gl.WellFormed table) (px : Nat) (gce : GridCellEntry) (flags : GridFlags)
    (gee : GridExtdEntry) : gl.Elsewhere (gridGetExtendedCell gl px gce flags gee) px := by
  refine ⟨List.length_set, fun _ hqx => List.getElem?_set_ne hqx.symm,
    fun qx gce' hqx hgce' hext' => ?_⟩
  obtain ⟨gee', hgee', -⟩ := h.readable qx gce' hgce' hext'
  obtain ⟨hlt, -⟩ := List.getElem?_eq_some_iff.mp hgee'
  exact List.getElem?_append_left hlt

/-! ### Well-formed stores -/

theorem GridLine.WellFormed.set_packed {table : Utf8Table} {gl : GridLine}
    (h : gl.WellFormed table) (px : Nat) {gce : GridCellEntry}
    (hpacked : gce.flags.extended = false) :
    GridLine.WellFormed table { gl with celldata := gl.celldata.set px gce } := by
  -- an extended entry is an old one
  have hold : ∀ (qx : Nat) (gce' : GridCellEntry), (gl.celldata.set px gce)[qx]? = some gce' →
      gce'.flags.extended = true → gl.celldata[qx]? = some gce' := by
    intro qx gce' hqx hext
    rw [List.getElem?_set] at hqx
    split_ifs at hqx with heq hlt
    · obtain rfl := Option.some.inj hqx
      rw [hpacked] at hext
      cases hext
    · exact hqx
  refine ⟨fun qx gce' hqx hext => h.readable qx gce' (hold qx gce' hqx hext) hext, ?_⟩
  intro qx rx gce₁ gce₂ hqx hrx hext₁ hext₂ hoff
  exact h.apart qx rx gce₁ gce₂ (hold _ _ hqx hext₁) (hold _ _ hrx hext₂) hext₁ hext₂ hoff

theorem GridLine.WellFormed.set_record {table : Utf8Table} {gl : GridLine}
    (h : gl.WellFormed table) (offset : Nat) {gee : GridExtdEntry} (hgee : gee.Readable table) :
    GridLine.WellFormed table { gl with extddata := gl.extddata.set offset gee } := by
  refine ⟨fun qx gce hqx hext => ?_, h.apart⟩
  obtain ⟨gee', hgee', hreadable⟩ := h.readable qx gce hqx hext
  obtain ⟨hlt, -⟩ := List.getElem?_eq_some_iff.mp hgee'
  change ∃ g, (gl.extddata.set offset gee)[gce.offset]? = some g ∧ _
  rw [List.getElem?_set]
  split_ifs with heq
  · exact ⟨gee, rfl, hgee⟩
  · exact absurd (heq ▸ hlt) ‹_›
  · exact ⟨gee', hgee', hreadable⟩

theorem GridLine.WellFormed.set_extended {table : Utf8Table} {gl : GridLine}
    (h : gl.WellFormed table) (px : Nat) (gce : GridCellEntry) (flags : GridFlags)
    {gee : GridExtdEntry} (hgee : gee.Readable table) :
    (gridGetExtendedCell gl px gce flags gee).WellFormed table := by
  -- an entry is the new one, with the last record, or an old one
  have hcases : ∀ (qx : Nat) (gce' : GridCellEntry),
      (gridGetExtendedCell gl px gce flags gee).celldata[qx]? = some gce' →
      gce'.flags.extended = true →
      (qx = px ∧ gce'.offset = gl.extddata.length) ∨
        (gl.celldata[qx]? = some gce' ∧ gce'.offset < gl.extddata.length) := by
    intro qx gce' hqx hext
    rw [gridGetExtendedCell, List.getElem?_set] at hqx
    split_ifs at hqx with heq hlt
    · obtain rfl := Option.some.inj hqx
      exact .inl ⟨heq.symm, rfl⟩
    · obtain ⟨gee', hgee', -⟩ := h.readable qx gce' hqx hext
      obtain ⟨hlt, -⟩ := List.getElem?_eq_some_iff.mp hgee'
      exact .inr ⟨hqx, hlt⟩
  refine ⟨fun qx gce' hqx hext => ?_, fun qx rx gce₁ gce₂ hqx hrx hext₁ hext₂ hoff => ?_⟩
  · rcases hcases qx gce' hqx hext with ⟨-, hoff⟩ | ⟨hold, hlt⟩
    · refine ⟨gee, ?_, hgee⟩
      rw [hoff]
      exact List.getElem?_concat_length
    · obtain ⟨gee', hgee', hreadable⟩ := h.readable qx gce' hold hext
      exact ⟨gee', (List.getElem?_append_left hlt).trans hgee', hreadable⟩
  · rcases hcases qx gce₁ hqx hext₁ with ⟨rfl, hoff₁⟩ | ⟨hold₁, hlt₁⟩ <;>
      rcases hcases rx gce₂ hrx hext₂ with ⟨rfl, hoff₂⟩ | ⟨hold₂, hlt₂⟩
    · rfl
    · omega
    · omega
    · exact h.apart qx rx gce₁ gce₂ hold₁ hold₂ hext₁ hext₂ hoff

/-! ### Expanding a line -/

theorem le_expandSize (gsx sx : Nat) : sx ≤ expandSize gsx sx := by
  rw [expandSize]
  split_ifs <;> omega

theorem clearCells_cleared (n px : Nat) (gl : GridLine)
    (h : ∀ qx, px ≤ qx → qx < px + n → gl.celldata[qx]? = some GRID_CLEARED_ENTRY) :
    clearCells 8 px n gl = gl := by
  induction n generalizing px with
  | zero => rfl
  | succ n ih =>
      have hpx := h px (Nat.le_refl px) (by omega)
      obtain ⟨hlt, heq⟩ := List.getElem?_eq_some_iff.mp hpx
      have hsame : gridClearCell gl px 8 = gl := by
        rw [gridClearCell, if_pos rfl, ← heq, List.set_getElem_self]
      rw [clearCells, hsame]
      exact ih (px + 1) fun qx hge hlt => h qx (by omega) (by omega)

/-- How many cells a line is expanded by. -/
def expandCount (gsx : Nat) (gl : GridLine) (sx : Nat) : Nat :=
  if sx ≤ gl.cellsize then 0 else expandSize gsx sx - gl.cellsize

/-- A line with `n` cleared cells more. -/
def GridLine.longer (gl : GridLine) (n : Nat) : GridLine :=
  { gl with celldata := gl.celldata ++ List.replicate n GRID_CLEARED_ENTRY }

theorem gridExpandLine_eq_longer (gsx : Nat) (gl : GridLine) (sx : Nat) :
    gridExpandLine gsx gl sx 8 = gl.longer (expandCount gsx gl sx) := by
  rw [gridExpandLine, expandCount]
  split_ifs with hle
  · simp only [GridLine.longer, List.replicate_zero, List.append_nil]
  · apply clearCells_cleared
    intro qx hge hlt
    rw [List.getElem?_append_right hge, List.getElem?_replicate, if_pos]
    rw [GridLine.cellsize] at hge hlt ⊢
    omega

theorem le_longer_expandCount (gsx : Nat) (gl : GridLine) (sx : Nat) :
    sx ≤ (gl.longer (expandCount gsx gl sx)).celldata.length := by
  have hle := le_expandSize gsx sx
  rw [GridLine.longer, List.length_append, List.length_replicate, expandCount]
  split_ifs with h
  · exact h
  · rw [GridLine.cellsize]
    omega

/-- An entry of the longer line is an old one or a cleared one. -/
theorem getElem?_longer {gl : GridLine} {n qx : Nat} {gce : GridCellEntry}
    (h : (gl.longer n).celldata[qx]? = some gce) :
    gl.celldata[qx]? = some gce ∨ (gl.celldata.length ≤ qx ∧ gce = GRID_CLEARED_ENTRY) := by
  rw [GridLine.longer] at h
  rcases Nat.lt_or_ge qx gl.celldata.length with hlt | hge
  · rw [List.getElem?_append_left hlt] at h
    exact .inl h
  · rw [List.getElem?_append_right hge, List.getElem?_replicate] at h
    split_ifs at h with hn
    exact .inr ⟨hge, (Option.some.inj h).symm⟩

theorem GridLine.WellFormed.longer {table : Utf8Table} {gl : GridLine} (h : gl.WellFormed table)
    (n : Nat) : (gl.longer n).WellFormed table := by
  have hold : ∀ (qx : Nat) (gce : GridCellEntry), (gl.longer n).celldata[qx]? = some gce →
      gce.flags.extended = true → gl.celldata[qx]? = some gce := by
    intro qx gce hqx hext
    rcases getElem?_longer hqx with hold | ⟨-, rfl⟩
    · exact hold
    · cases hext
  refine ⟨fun qx gce hqx hext => h.readable qx gce (hold qx gce hqx hext) hext, ?_⟩
  intro qx rx gce₁ gce₂ hqx hrx hext₁ hext₂ hoff
  exact h.apart qx rx gce₁ gce₂ (hold _ _ hqx hext₁) (hold _ _ hrx hext₂) hext₁ hext₂ hoff

/-- A cleared cell looks like one that is not there. -/
theorem readPacked_cleared : SameCell (readPacked GRID_CLEARED_ENTRY) GRID_DEFAULT_CELL :=
  ⟨rfl, rfl, rfl, rfl, rfl, rfl, ⟨rfl, rfl, rfl⟩⟩

theorem longer_read {table : Utf8Table} {gl : GridLine} {qx : Nat} {gc : GridCell}
    (h : lineGetCell table gl qx = .ok gc) (n : Nat) :
    ∃ gc', lineGetCell table (gl.longer n) qx = .ok gc' ∧ SameCell gc' gc := by
  rcases Nat.lt_or_ge qx gl.celldata.length with hlt | hge
  · refine ⟨gc, ?_, .refl gc⟩
    have hlt' : qx < (gl.longer n).celldata.length := by
      rw [GridLine.longer, List.length_append]
      omega
    rw [lineGetCell_of_lt hlt] at h
    rw [lineGetCell_of_lt hlt', ← h, gridGetCell1, gridGetCell1, GridLine.longer,
      List.getElem?_append_left hlt]
  · rw [lineGetCell_of_le hge] at h
    obtain rfl := Except.ok.inj h
    rcases Nat.lt_or_ge qx (gl.longer n).celldata.length with hlt' | hge'
    · have hentry : (gl.longer n).celldata[qx]? = some GRID_CLEARED_ENTRY := by
        rcases getElem?_longer (List.getElem?_eq_getElem hlt') with hold | ⟨-, heq⟩
        · rw [List.getElem?_eq_none hge] at hold
          cases hold
        · rw [List.getElem?_eq_getElem hlt', heq]
      exact ⟨_, lineGetCell_packed hentry rfl table, readPacked_cleared⟩
    · exact ⟨_, lineGetCell_of_le hge' table, .refl _⟩

/-! ### The two encodings -/

/-- One byte in one column is all that an entry of four bytes is read as. -/
theorem utf8Set_shows {ud : Utf8Data} :
    (utf8Set (ud.data 0)).Shows ud ↔ ud.size = 1 ∧ ud.width = 1 := by
  constructor
  · intro h
    exact ⟨h.size.symm, h.width.symm⟩
  · rintro ⟨hsize, hwidth⟩
    refine Utf8Data.shows_of_data hsize.symm hwidth.symm fun i hi => ?_
    obtain rfl : i = 0 := Fin.ext (Nat.lt_one_iff.mp hi)
    rfl

/-- A cell stored in four bytes. -/
theorem readPacked_gridStoreCell (gce : GridCellEntry) {gc : GridCell} (h : Storable gc)
    (hneed : cellNeedsExtended gc = false) :
    SameCell (readPacked (gridStoreCell gce gc (gc.data.data 0))) gc ↔
      gc.data.size = 1 ∧ gc.data.width = 1 := by
  simp only [cellNeedsExtended, Bool.or_eq_false_iff, decide_eq_false_iff_not, UInt16.not_lt,
    not_not] at hneed
  obtain ⟨⟨⟨⟨⟨⟨⟨⟨⟨hattr, -⟩, -⟩, hfgRgb⟩, hfgTheme⟩, hbgRgb⟩, hbgTheme⟩, hus⟩, hlink⟩, -⟩ := hneed
  obtain ⟨-, hfg256, hbg256⟩ := h.flags
  have hattr8 : gc.attr.toUInt8.toUInt16 = gc.attr := by
    apply UInt16.toNat.inj
    rw [UInt8.toNat_toUInt16, UInt16.toNat_toUInt8]
    exact Nat.mod_eq_of_lt (Nat.lt_succ_of_le (UInt16.le_iff_toNat_le.mp hattr))
  constructor
  · intro hsame
    exact utf8Set_shows.mp hsame.data
  · intro hdata
    refine ⟨hattr8, ?_, ?_, hus.symm, hlink.symm, ?_, utf8Set_shows.mpr hdata⟩
    · rw [← h.fg.packed hfgRgb hfgTheme]
      simp only [readPacked, gridStoreCell, hfg256, Bool.false_or]
    · rw [← h.bg.packed hbgRgb hbgTheme]
      simp only [readPacked, gridStoreCell, hbg256, Bool.false_or]
    · simp only [readPacked, gridStoreCell, hfg256, hbg256]

theorem IsColour.of_packed (c : UInt8) (flag : Bool) :
    IsColour ((c.toNat : Int) + if flag then COLOUR_FLAG_256 else 0) := by
  have hc := c.toNat_lt
  simp only [IsColour, COLOUR_FLAG_256, COLOUR_FLAG_RGB, COLOUR_FLAG_THEME]
  split_ifs <;> omega

/-- What an entry of four bytes is read as can be stored. -/
theorem readPacked_storable {gce : GridCellEntry} (hpacked : gce.flags.extended = false)
    (htab : gce.flags.tab = false) : Storable (readPacked gce) := by
  refine ⟨?_, .of_packed _ _, .of_packed _ _, ⟨hpacked, rfl, rfl⟩,
    fun _ => ⟨(by decide : (1 : UInt8).toNat ≤ 21), (by decide : (1 : UInt8).toNat ≤ 2)⟩,
    fun h => ?_⟩
  · have hattr := gce.attr.toNat_lt
    rw [UInt16.le_iff_toNat_le, readPacked, UInt8.toNat_toUInt16]
    exact Nat.le_of_lt (Nat.lt_trans hattr (by decide))
  · rw [readPacked, htab] at h
    cases h

def extendedRecord (gc : GridCell) (uc : Utf8Char) : GridExtdEntry :=
  ⟨uc, gc.attr, { gc.flags with cleared := false }, gc.fg, gc.bg, gc.us, gc.link⟩

/-- A cell made a tab. -/
def asTab (gc : GridCell) (width : UInt8) : GridCell :=
  { gc with
    data := ⟨fun i => if i.val < width.toNat then 0x20 else 0, width, width, width⟩
    flags := { gc.flags with tab := true, padding := false } }

theorem gridSetTab_ok (gc : GridCell) {width : UInt8} (h : width.toNat ≤ utf8Size) :
    gridSetTab gc width.toNat = .ok (asTab gc width) := by
  rw [gridSetTab, if_neg (Nat.not_lt.mpr h), UInt8.ofNat_toNat]
  rfl

theorem extendedRecord_tab (table : Utf8Table) {gc : GridCell} (h : Storable gc)
    (htab : gc.flags.tab = true) :
    (extendedRecord gc gc.data.width.toUInt32).Readable table ∧
      ∃ gc', readExtended table (extendedRecord gc gc.data.width.toUInt32) = .ok gc' ∧
        Storable gc' ∧ SameCell gc' gc := by
  obtain ⟨hpadding, hwidth, hsize, hspaces⟩ := h.tab htab
  have hnat : (extendedRecord gc gc.data.width.toUInt32).data.toNat = gc.data.width.toNat :=
    UInt8.toNat_toUInt32 _
  have hrecord : (extendedRecord gc gc.data.width.toUInt32).flags.tab = true := htab
  refine ⟨⟨h.attr, fun _ => by rw [hnat]; exact hwidth, fun hno => ?_⟩,
    asTab ⟨GRID_DEFAULT_CELL.data, gc.attr, { gc.flags with cleared := false }, gc.fg, gc.bg,
      gc.us, gc.link⟩ gc.data.width, ?_,
    ⟨h.attr, h.fg, h.bg, h.flags, fun hno => ?_, fun _ => ⟨rfl, hwidth, rfl, fun i hi => ?_⟩⟩,
    rfl, rfl, rfl, rfl, rfl, ?_, ?_⟩
  · rw [hrecord] at hno
    cases hno
  · have hattr : ¬ 0x7fff < (extendedRecord gc gc.data.width.toUInt32).attr :=
      UInt16.not_lt.mpr h.attr
    simp only [readExtended, if_neg hattr, hrecord, if_true, hnat]
    exact gridSetTab_ok _ hwidth
  · cases hno
  · exact if_pos hi
  · simp only [asTab, htab, hpadding]
  · refine Utf8Data.shows_of_data hsize.symm rfl fun i hi => ?_
    exact (if_pos hi).trans (hspaces i hi).symm

/-- What is recorded for a cell. -/
theorem extendedWord_ok {table : Utf8Table} (ht : table.Linked) {gc : GridCell} (h : Storable gc) :
    ∃ table' uc gc', extendedWord table gc = .ok (table', uc) ∧ table'.Linked ∧
      table.Grows table' ∧ (extendedRecord gc uc).Readable table' ∧
      readExtended table' (extendedRecord gc uc) = .ok gc' ∧ Storable gc' ∧
      (SameCell gc' gc ↔ gc.flags.tab = true ∨ table.HasRoom gc.data) ∧
      gc'.data.width ≤ gc.data.width := by
  cases htab : gc.flags.tab with
  | true =>
      obtain ⟨hreadable, gc', hread, hstorable, hsame⟩ := extendedRecord_tab table h htab
      exact ⟨table, _, gc', if_pos htab, ht, .refl table, hreadable, hread, hstorable,
        iff_of_true hsame (.inl rfl), hsame.data.width ▸ UInt8.le_refl _⟩
  | false =>
      obtain ⟨table', state, uc, ud, hfrom, ht', hgrows, hknown, hto, hbounded, hroom, hwidth⟩ :=
        utf8FromData_reads ht (h.data htab)
      have hrecord : (extendedRecord gc uc).flags.tab = false := htab
      refine ⟨table', uc, ⟨ud, gc.attr, { gc.flags with cleared := false }, gc.fg, gc.bg, gc.us,
        gc.link⟩, ?_, ht', hgrows, ⟨h.attr, fun hyes => ?_, fun _ => hknown⟩, ?_,
        ⟨h.attr, h.fg, h.bg, h.flags, fun _ => hbounded, fun hyes => ?_⟩, ?_, hwidth⟩
      · simp only [extendedWord, htab, Bool.false_eq_true, if_false, hfrom, ok_bind]
        rfl
      · rw [hrecord] at hyes
        cases hyes
      · have hattr : ¬ 0x7fff < (extendedRecord gc uc).attr := UInt16.not_lt.mpr h.attr
        have hdata : utf8ToData table' (extendedRecord gc uc).data = .ok ud := hto
        simp only [readExtended, if_neg hattr, hrecord, Bool.false_eq_true, if_false, hdata,
          ok_bind]
        rfl
      · cases htab.symm.trans hyes
      · rw [or_iff_right Bool.false_ne_true, ← hroom]
        exact ⟨fun hsame => hsame.data, fun hshows => ⟨rfl, rfl, rfl, rfl, rfl, rfl, hshows⟩⟩

/-! ### Setting a cell -/

def GridLine.isExtended (gl : GridLine) (px : Nat) : Bool :=
  (gl.celldata[px]?).any fun gce => gce.flags.extended

theorem isExtended_eq {gl : GridLine} {px : Nat} {gce : GridCellEntry}
    (h : gl.celldata[px]? = some gce) : gl.isExtended px = gce.flags.extended := by
  rw [GridLine.isExtended, h, Option.any_some]

/-- The cell has what it needs in the place it is stored in: room in the table for its character,
or a character that four bytes can hold. -/
def Keeps (table : Utf8Table) (gl : GridLine) (px : Nat) (gc : GridCell) : Prop :=
  if (gl.isExtended px || cellNeedsExtended gc) = true then
    gc.flags.tab = true ∨ table.HasRoom gc.data
  else gc.data.size = 1 ∧ gc.data.width = 1

/-- What `grid_set_cell` does to the entry at the position. -/
def storeCell (table : Utf8Table) (gl : GridLine) (px : Nat) (gce : GridCellEntry)
    (gc : GridCell) : Exec (Utf8Table × GridLine) :=
  if gridNeedExtendedCell gce gc then gridExtendedCell table gl px gce gc
  else
    pure (table, { gl with celldata := gl.celldata.set px (gridStoreCell gce gc (gc.data.data 0)) })

/-- What a store at `px` does to a line. -/
structure Stored (table table' : Utf8Table) (gl gl' : GridLine) (px : Nat) (gc : GridCell) :
    Prop where
  linked : table'.Linked
  grows : table.Grows table'
  wellFormed : gl'.WellFormed table'
  elsewhere : gl.Elsewhere gl' px
  extended : gl'.isExtended px = (gl.isExtended px || cellNeedsExtended gc)
  flags : { gl'.flags with hyperlink := gl.flags.hyperlink } =
    { gl.flags with
      extended := gl.flags.extended || (gl.isExtended px || cellNeedsExtended gc) }
  used : gl'.cellused = gl.cellused
  read : ∃ gc', lineGetCell table' gl' px = .ok gc' ∧ Storable gc' ∧
    (SameCell gc' gc ↔ Keeps table gl px gc) ∧
    (gl'.isExtended px = true → gc'.data.width ≤ gc.data.width)

/-- A store that went to an extended entry. -/
theorem gridExtendedCell_ok {table : Utf8Table} (ht : table.Linked) {gl : GridLine}
    (h : gl.WellFormed table) {px : Nat} {gce : GridCellEntry} (hgce : gl.celldata[px]? = some gce)
    {gc : GridCell} (hgc : Storable gc)
    (hneed : (gl.isExtended px || cellNeedsExtended gc) = true) :
    ∃ table' gl', gridExtendedCell table gl px gce gc = .ok (table', gl') ∧
      Stored table table' gl gl' px gc := by
  obtain ⟨table', uc, gc', hword, ht', hgrows, hreadable, hread, hstorable, hsame, hwidth⟩ :=
    extendedWord_ok ht hgc
  have hgrown := h.grows hgrows
  have hkeeps : SameCell gc' gc ↔ Keeps table gl px gc := by rw [hsame, Keeps, if_pos hneed]
  have hflags : (gl.flags.extended || (gl.isExtended px || cellNeedsExtended gc)) = true := by
    rw [hneed, Bool.or_true]
  obtain ⟨hlt, -⟩ := List.getElem?_eq_some_iff.mp hgce
  cases hext : gce.flags.extended with
  | true =>
      obtain ⟨gee, hgee, -⟩ := h.readable px gce hgce hext
      obtain ⟨hoff, -⟩ := List.getElem?_eq_some_iff.mp hgee
      refine ⟨table', { gl.flagExtended gc with
        extddata := gl.extddata.set gce.offset (extendedRecord gc uc) }, ?_, ht', hgrows, ?_, ?_,
        ?_, ?_, rfl, gc', ?_, hstorable, hkeeps, fun _ => hwidth⟩
      · simp only [gridExtendedCell, hext, true_and, if_neg (Nat.not_le.mpr hoff), hword, ok_bind,
          if_true]
        rfl
      · obtain ⟨hrec, hapart⟩ := hgrown.set_record gce.offset hreadable
        exact ⟨hrec, hapart⟩
      · obtain ⟨hlen, hentry, hrec⟩ := h.elsewhere_record hgce hext (extendedRecord gc uc)
        exact ⟨hlen, hentry, hrec⟩
      · exact (@isExtended_eq ⟨gl.celldata, _, _, _⟩ _ _ hgce).trans (hext.trans hneed.symm)
      · rw [hflags]
        rfl
      · have hnew : (gl.extddata.set gce.offset (extendedRecord gc uc))[gce.offset]? =
            some (extendedRecord gc uc) := List.getElem?_set_self hoff
        exact (@lineGetCell_extended ⟨gl.celldata, gl.cellused,
          gl.extddata.set gce.offset (extendedRecord gc uc), _⟩ _ _ _ hgce hext hnew
          table').trans hread
  | false =>
      have hentry := List.getElem?_set_self
        (a := ({ gce with
          offset := gl.extddata.length
          flags := { gc.flags with cleared := false, extended := true } } : GridCellEntry)) hlt
      refine ⟨table', gridGetExtendedCell (gl.flagExtended gc) px gce
        { gc.flags with cleared := false } (extendedRecord gc uc), ?_, ht', hgrows, ?_, ?_,
        ?_, ?_, rfl, gc', ?_, hstorable, hkeeps, fun _ => hwidth⟩
      · simp only [gridExtendedCell, hext, Bool.false_eq_true, false_and, if_false, hword, ok_bind]
        rfl
      · obtain ⟨hrec, hapart⟩ :=
          hgrown.set_extended px gce { gc.flags with cleared := false } hreadable
        exact ⟨hrec, hapart⟩
      · obtain ⟨hlen, hentry, hrec⟩ := h.elsewhere_extended px gce
          { gc.flags with cleared := false } (extendedRecord gc uc)
        exact ⟨hlen, hentry, hrec⟩
      · exact (@isExtended_eq ⟨_, gl.cellused, _, _⟩ _ _ hentry).trans hneed.symm
      · rw [hflags]
        rfl
      · have hnew : (gl.extddata ++ [extendedRecord gc uc])[gl.extddata.length]? =
            some (extendedRecord gc uc) := List.getElem?_concat_length
        exact (@lineGetCell_extended ⟨_, gl.cellused, _, _⟩ _ _ _ hentry rfl hnew table').trans
          hread

/-- A store to an entry of a well-formed line. -/
theorem storeCell_ok {table : Utf8Table} (ht : table.Linked) {gl : GridLine}
    (h : gl.WellFormed table) {px : Nat} {gce : GridCellEntry} (hgce : gl.celldata[px]? = some gce)
    {gc : GridCell} (hgc : Storable gc) :
    ∃ table' gl', storeCell table gl px gce gc = .ok (table', gl') ∧
      Stored table table' gl gl' px gc := by
  have hat := isExtended_eq hgce
  have hneed : gridNeedExtendedCell gce gc = (gl.isExtended px || cellNeedsExtended gc) := by
    rw [gridNeedExtendedCell, hat]
  rw [storeCell, hneed]
  by_cases hyes : (gl.isExtended px || cellNeedsExtended gc) = true
  · rw [if_pos hyes]
    exact gridExtendedCell_ok ht h hgce hgc hyes
  · rw [if_neg hyes]
    have hno := Bool.not_eq_true _ ▸ hyes
    obtain ⟨hext, hpack⟩ := Bool.or_eq_false_iff.mp hno
    obtain ⟨hlt, -⟩ := List.getElem?_eq_some_iff.mp hgce
    have hpacked : (gridStoreCell gce gc (gc.data.data 0)).flags.extended = false := hgc.flags.1
    have htab : (gridStoreCell gce gc (gc.data.data 0)).flags.tab = false :=
      (Bool.or_eq_false_iff.mp hpack).2
    have hnew : (gl.celldata.set px (gridStoreCell gce gc (gc.data.data 0)))[px]? =
        some (gridStoreCell gce gc (gc.data.data 0)) := List.getElem?_set_self hlt
    refine ⟨table, _, rfl, ht, .refl table, h.set_packed px hpacked, elsewhere_set gl px _, ?_, ?_,
      rfl, _, @lineGetCell_packed ⟨_, gl.cellused, _, _⟩ _ _ hnew hpacked table,
      readPacked_storable hpacked htab, ?_, fun hyes => ?_⟩
    · exact (@isExtended_eq ⟨_, gl.cellused, _, _⟩ _ _ hnew).trans (hpacked.trans hno.symm)
    · rw [hno, Bool.or_false]
    · rw [Keeps, if_neg hyes]
      exact readPacked_gridStoreCell gce hgc hpack
    · rw [@isExtended_eq ⟨_, gl.cellused, _, _⟩ _ _ hnew, hpacked] at hyes
      cases hyes

/-- `px` is in the line after it was expanded, and its entry is extended if it was before. -/
theorem longer_entry (gsx : Nat) (gl : GridLine) (px : Nat) :
    ∃ gce, (gl.longer (expandCount gsx gl (px + 1))).celldata[px]? = some gce ∧
      (gl.longer (expandCount gsx gl (px + 1))).isExtended px = gl.isExtended px := by
  have hlt : px < _ := le_longer_expandCount gsx gl (px + 1)
  have hgce := List.getElem?_eq_getElem hlt
  refine ⟨_, hgce, ?_⟩
  rw [GridLine.isExtended, GridLine.isExtended, hgce, Option.any_some]
  rcases getElem?_longer hgce with hold | ⟨hge, heq⟩
  · rw [hold, Option.any_some]
  · rw [List.getElem?_eq_none hge, Option.any_none, heq]
    rfl

/-- The line that `grid_set_cell` stores in: long enough, and used as far as the cell. -/
def GridLine.readied (gl : GridLine) (gsx px : Nat) : GridLine :=
  { gl.longer (expandCount gsx gl (px + 1)) with
    cellused := if gl.cellused < px + 1 then px + 1 else gl.cellused }

theorem GridLine.WellFormed.readied {table : Utf8Table} {gl : GridLine} (h : gl.WellFormed table)
    (gsx px : Nat) : (gl.readied gsx px).WellFormed table := by
  obtain ⟨hreadable, hapart⟩ := h.longer (expandCount gsx gl (px + 1))
  exact ⟨hreadable, hapart⟩

theorem lineSetCell_stored {table : Utf8Table} (ht : table.Linked) (gsx : Nat) {gl : GridLine}
    (h : gl.WellFormed table) (px : Nat) {gc : GridCell} (hgc : Storable gc) :
    ∃ table' gl', lineSetCell table gsx gl px gc = .ok (table', gl') ∧
      Stored table table' (gl.readied gsx px) gl' px gc := by
  obtain ⟨gce, hgce, -⟩ := longer_entry gsx gl px
  obtain ⟨table', gl', hok, hstored⟩ := storeCell_ok ht (h.readied gsx px) hgce hgc
  refine ⟨table', gl', ?_, hstored⟩
  simp only [lineSetCell, gridExpandLine_eq_longer, hgce]
  exact hok

theorem readied_isExtended (gl : GridLine) (gsx px : Nat) :
    (gl.readied gsx px).isExtended px = gl.isExtended px := by
  obtain ⟨gce, -, hsame⟩ := longer_entry gsx gl px
  exact hsame

/-- The other cells look as before. -/
theorem Stored.reads {table table' : Utf8Table} {gsx px : Nat} {gl gl' : GridLine} {gc : GridCell}
    (h : Stored table table' (gl.readied gsx px) gl' px gc) (hgl : gl.WellFormed table) {qx : Nat}
    (hqx : qx ≠ px) :
    ∃ old new, lineGetCell table gl qx = .ok old ∧ lineGetCell table' gl' qx = .ok new ∧
      SameCell new old := by
  obtain ⟨old, hold, -⟩ := hgl.read qx
  obtain ⟨new, hnew, heq⟩ := longer_read hold (expandCount gsx gl (px + 1))
  refine ⟨old, new, hold, ?_, heq⟩
  obtain ⟨_, hnew', hstays⟩ := (hgl.readied gsx px).read qx
  obtain rfl : new = _ := Except.ok.inj (hnew.symm.trans hnew')
  rw [h.elsewhere.read table' hqx]
  exact hstays table' h.grows

/-! ### Grids -/

/-- The lines are all there and well formed, and the table is. -/
structure GridWellFormed (table : Utf8Table) (gd : Grid) : Prop where
  linked : table.Linked
  length : gd.linedata.length = gd.hsize + gd.sy
  line : ∀ gl ∈ gd.linedata, gl.WellFormed table

/-- What `grid_set_cell` is for: the cell is read back, and every other one as before. -/
def ReadsBack (table : Utf8Table) (gd : Grid) (px py : Nat) (gc : GridCell) : Prop :=
  ∃ table' gd', gridSetCell table gd px py gc = .ok (table', gd') ∧ GridWellFormed table' gd' ∧
    (∀ qx qy, (qx, qy) ≠ (px, py) → ∃ old new, gridGetCell table gd qx qy = .ok old ∧
      gridGetCell table' gd' qx qy = .ok new ∧ SameCell new old) ∧
    ∃ gc', gridGetCell table' gd' px py = .ok gc' ∧ SameCell gc' gc

theorem gridGetCell_of_lt {table : Utf8Table} {gd : Grid} {py : Nat} {gl : GridLine}
    (hpy : py < gd.hsize + gd.sy) (hgl : gd.linedata[py]? = some gl) (px : Nat) :
    gridGetCell table gd px py = lineGetCell table gl px := by
  rw [gridGetCell, if_neg (Nat.not_le.mpr hpy), hgl]

def Grid.setLine (gd : Grid) (py : Nat) (gl : GridLine) : Grid :=
  { gd with linedata := gd.linedata.set py gl }

theorem gridGetCell_setLine_self (table : Utf8Table) {gd : Grid} {py : Nat} (gl : GridLine)
    (hpy : py < gd.hsize + gd.sy) (hlt : py < gd.linedata.length) (px : Nat) :
    gridGetCell table (gd.setLine py gl) px py = lineGetCell table gl px := by
  have hnew : (gd.setLine py gl).linedata[py]? = some gl := List.getElem?_set_self hlt
  have hpy' : py < (gd.setLine py gl).hsize + (gd.setLine py gl).sy := hpy
  exact gridGetCell_of_lt hpy' hnew px

theorem gridGetCell_setLine_ne (table : Utf8Table) (gd : Grid) {py qy : Nat} (gl : GridLine)
    (hne : qy ≠ py) (px : Nat) :
    gridGetCell table (gd.setLine py gl) px qy = gridGetCell table gd px qy := by
  have hold : (gd.setLine py gl).linedata[qy]? = gd.linedata[qy]? := List.getElem?_set_ne hne.symm
  rw [gridGetCell, gridGetCell, hold]
  rfl

theorem GridWellFormed.line_at {table : Utf8Table} {gd : Grid} (h : GridWellFormed table gd)
    {py : Nat} (hpy : py < gd.hsize + gd.sy) :
    ∃ gl, gd.linedata[py]? = some gl ∧ gl.WellFormed table := by
  have hlt : py < gd.linedata.length := h.length ▸ hpy
  exact ⟨_, List.getElem?_eq_getElem hlt, h.line _ (List.getElem_mem hlt)⟩

theorem GridWellFormed.setLine {table table' : Utf8Table} {gd : Grid}
    (h : GridWellFormed table gd) (ht' : table'.Linked) (hgrows : table.Grows table') (py : Nat)
    {gl' : GridLine} (hgl' : gl'.WellFormed table') :
    GridWellFormed table' (gd.setLine py gl') := by
  refine ⟨ht', List.length_set.trans h.length, fun gl hgl => ?_⟩
  rcases List.mem_or_eq_of_mem_set hgl with hold | rfl
  · exact (h.line gl hold).grows hgrows
  · exact hgl'

/-- Every position of a well-formed grid is read, and the same from then on. -/
theorem GridWellFormed.read {table : Utf8Table} {gd : Grid} (h : GridWellFormed table gd)
    (px py : Nat) :
    ∃ gc, gridGetCell table gd px py = .ok gc ∧
      ∀ table', table.Grows table' → gridGetCell table' gd px py = .ok gc := by
  rcases Nat.lt_or_ge py (gd.hsize + gd.sy) with hpy | hpy
  · obtain ⟨gl, hgl, hwf⟩ := h.line_at hpy
    obtain ⟨gc, hgc, hstays⟩ := hwf.read px
    exact ⟨gc, (gridGetCell_of_lt hpy hgl px).trans hgc,
      fun table' ht' => (gridGetCell_of_lt hpy hgl px).trans (hstays table' ht')⟩
  · exact ⟨_, if_pos hpy, fun _ _ => if_pos hpy⟩

/-- A cell that is set in a well-formed grid is read back exactly when its entry can keep it:
one that is or will be extended, for a character that the table has or has room for, or one of
four bytes, for one byte in one column. -/
theorem gridSetCell_reads_back_iff {table : Utf8Table} {gd : Grid} {px py : Nat} {gc : GridCell}
    {gl : GridLine} (h : GridWellFormed table gd) (hgl : gd.linedata[py]? = some gl)
    (hgc : Storable gc) :
    ReadsBack table gd px py gc ↔ Keeps table gl px gc := by
  obtain ⟨hlt, hget⟩ := List.getElem?_eq_some_iff.mp hgl
  have hpy : py < gd.hsize + gd.sy := h.length ▸ hlt
  have hwf : gl.WellFormed table := h.line gl (hget ▸ List.getElem_mem hlt)
  obtain ⟨table', gl', hok, hstored⟩ := lineSetCell_stored h.linked gd.sx hwf px hgc
  obtain ⟨gc', hread, -, hkeeps, -⟩ := hstored.read
  rw [Keeps, readied_isExtended, ← Keeps] at hkeeps
  have hset : gridSetCell table gd px py gc = .ok (table', gd.setLine py gl') := by
    simp only [gridSetCell, if_neg (Nat.not_le.mpr hpy), hgl, hok, ok_bind]
    rfl
  have hback : gridGetCell table' (gd.setLine py gl') px py = .ok gc' :=
    (gridGetCell_setLine_self table' gl' hpy hlt px).trans hread
  constructor
  · rintro ⟨table'', gd'', hset', -, -, gc'', hback', hsame⟩
    obtain ⟨rfl, rfl⟩ := Prod.mk.inj (Except.ok.inj (hset.symm.trans hset'))
    obtain rfl := Except.ok.inj (hback.symm.trans hback')
    exact hkeeps.mp hsame
  · intro hyes
    refine ⟨table', _, hset, h.setLine hstored.linked hstored.grows py hstored.wellFormed,
      fun qx qy hne => ?_, gc', hback, hkeeps.mpr hyes⟩
    by_cases heq : qy = py
    · subst heq
      have hqx : qx ≠ px := fun hx => hne (Prod.ext hx rfl)
      obtain ⟨old, new, hold, hnew, hsame⟩ := hstored.reads hwf hqx
      exact ⟨old, new, (gridGetCell_of_lt hpy hgl qx).trans hold,
        (gridGetCell_setLine_self table' gl' hpy hlt qx).trans hnew, hsame⟩
    · obtain ⟨old, hold, hstays⟩ := h.read qx qy
      exact ⟨old, old, hold,
        (gridGetCell_setLine_ne table' gd gl' heq qx).trans (hstays table' hstored.grows),
        .refl old⟩

/-! ### One line -/

/-- One line of four columns. -/
def emptyGrid : Grid := ⟨4, 1, 0, 0, [.zeroed]⟩

/-- A grid without extended entries is well formed, whatever is in its lines. -/
theorem GridWellFormed.of_packed {gd : Grid} (hlength : gd.linedata.length = gd.hsize + gd.sy)
    (hpacked : ∀ gl ∈ gd.linedata, ∀ gce ∈ gl.celldata, gce.flags.extended = false) :
    GridWellFormed Utf8Table.empty gd := by
  have hnone : ∀ gl ∈ gd.linedata, ∀ (px : Nat) (gce : GridCellEntry),
      gl.celldata[px]? = some gce → ¬ gce.flags.extended = true := by
    intro gl hgl px gce hpx
    rw [hpacked gl hgl gce (List.mem_of_getElem? hpx)]
    exact Bool.false_ne_true
  refine ⟨Utf8Table.empty_linked, hlength, fun gl hgl => ⟨?_, ?_⟩⟩
  · intro px gce hpx hext
    exact absurd hext (hnone gl hgl px gce hpx)
  · intro px qx gce gce' hpx _ hext
    exact absurd hext (hnone gl hgl px gce hpx)

theorem emptyGrid_wellFormed : GridWellFormed Utf8Table.empty emptyGrid := by
  refine .of_packed rfl fun gl hgl gce hgce => ?_
  obtain rfl := List.mem_singleton.mp hgl
  cases hgce

/-- Two columns wide. -/
def wideCell : GridCell :=
  ⟨⟨fun i => if i.val = 0 then 0xe4 else if i.val = 1 then 0xb8 else if i.val = 2 then 0xad else 0,
    3, 3, 2⟩, 0, .empty, 8, 8, 8, 0⟩

theorem wideCell_storable : Storable wideCell :=
  ⟨by decide, by decide, by decide, by decide, fun _ => ⟨by decide, by decide⟩,
    fun h => absurd h (by decide)⟩

theorem wideCell_reads_back :
    GridWellFormed Utf8Table.empty emptyGrid ∧ Storable wideCell ∧
      ReadsBack Utf8Table.empty emptyGrid 1 0 wideCell := by
  have hkeeps : Keeps Utf8Table.empty .zeroed 1 wideCell := by
    rw [Keeps,
      if_pos (by decide : (GridLine.zeroed.isExtended 1 || cellNeedsExtended wideCell) = true)]
    exact Or.inr (Or.inl (show (3 : UInt8) ≤ 3 by decide))
  exact ⟨emptyGrid_wellFormed, wideCell_storable,
    (gridSetCell_reads_back_iff emptyGrid_wellFormed rfl wideCell_storable).mpr hkeeps⟩

/-- A padding cell has no size and no width, and is read back with both. -/
theorem gridSetPadding_forgets :
    Storable GRID_PADDING_CELL ∧ GridWellFormed Utf8Table.empty emptyGrid ∧
      ¬ ReadsBack Utf8Table.empty emptyGrid 1 0 GRID_PADDING_CELL := by
  refine ⟨gridPaddingCell_storable, emptyGrid_wellFormed, ?_⟩
  rintro ⟨table', gd', hset, -, -, gc, hget, hsame⟩
  have hresult : gridSetCell Utf8Table.empty emptyGrid 1 0 GRID_PADDING_CELL =
    .ok (Utf8Table.empty, emptyGrid.setLine 0 ⟨[GRID_CLEARED_ENTRY,
      gridStoreCell GRID_CLEARED_ENTRY GRID_PADDING_CELL 0x21, GRID_CLEARED_ENTRY,
      GRID_CLEARED_ENTRY], 2, [], .empty⟩) := rfl
  obtain ⟨rfl, rfl⟩ := Prod.mk.inj (Except.ok.inj (hresult.symm.trans hset))
  have hread : gridGetCell Utf8Table.empty (emptyGrid.setLine 0 ⟨[GRID_CLEARED_ENTRY,
      gridStoreCell GRID_CLEARED_ENTRY GRID_PADDING_CELL 0x21, GRID_CLEARED_ENTRY,
      GRID_CLEARED_ENTRY], 2, [], .empty⟩) 1 0 =
    .ok (readPacked (gridStoreCell GRID_CLEARED_ENTRY GRID_PADDING_CELL 0x21)) := rfl
  obtain rfl := Except.ok.inj (hread.symm.trans hget)
  exact absurd hsame.data.width (by decide)

end Ztmux.Grids
