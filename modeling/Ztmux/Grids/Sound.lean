import Ztmux.Grids.Columns

/-!
Lines whose cells can be copied.

In a sound line every cell that is read can be stored again, and the line has the flag that says
whether it has extended cells. Storing a cell, taking a part of a line and marking it as wrapped
all keep it sound, so cells can be read from one grid and stored in another without end.
-/

namespace Ztmux.Grids

open Utf8 ScreenWrite

/-! ### Cells -/

theorem shows_data {ud ud' : Utf8Data} (h : ud.Shows ud') {i : Fin utf8Size}
    (hi : i.val < ud.size.toNat) : ud.data i = ud'.data i := by
  have hi' : i.val < ud'.size.toNat := h.size ▸ hi
  have hget := congrArg (fun l : List UInt8 => l[i.val]?) h.bytes
  simp only [Utf8Data.initializedSlice, List.getElem?_take_of_lt hi, List.getElem?_take_of_lt hi',
    List.getElem?_ofFn, i.isLt, dif_pos, Option.some.injEq] at hget
  exact hget

theorem SameCell.flag {gc gc' : GridCell} (h : SameCell gc gc') {f : GridFlags → Bool}
    (hf : ∀ flags : GridFlags, f { flags with cleared := false } = f flags) :
    f gc.flags = f gc'.flags := by
  rw [← hf gc.flags, h.flags, hf]

/-- A cell that looks like one that can be stored. -/
theorem Storable.of_same {gc gc' : GridCell} (h : Storable gc') (hsame : SameCell gc gc') :
    Storable gc := by
  have htab : gc.flags.tab = gc'.flags.tab := hsame.flag (f := GridFlags.tab) fun _ => rfl
  refine ⟨hsame.attr ▸ h.attr, hsame.fg ▸ h.fg, hsame.bg ▸ h.bg, ?_, fun hno => ?_, fun hyes => ?_⟩
  · have hext : gc.flags.extended = gc'.flags.extended :=
      hsame.flag (f := GridFlags.extended) fun _ => rfl
    have hfg : gc.flags.fg256 = gc'.flags.fg256 := hsame.flag (f := GridFlags.fg256) fun _ => rfl
    have hbg : gc.flags.bg256 = gc'.flags.bg256 := hsame.flag (f := GridFlags.bg256) fun _ => rfl
    rw [hext, hfg, hbg]
    exact h.flags
  · exact hsame.data.bounded (h.data (htab ▸ hno))
  · obtain ⟨hpadding, hwidth, hsize, hspaces⟩ := h.tab (htab ▸ hyes)
    have hsame' : gc.flags.padding = gc'.flags.padding :=
      hsame.flag (f := GridFlags.padding) fun _ => rfl
    refine ⟨hsame'.trans hpadding, hsame.data.width ▸ hwidth,
      hsame.data.size.trans (hsize.trans hsame.data.width.symm), fun i hi => ?_⟩
    have hlt : i.val < gc'.data.width.toNat := hsame.data.width ▸ hi
    have hin : i.val < gc.data.size.toNat := by
      rw [hsame.data.size, hsize]
      exact hlt
    rw [shows_data hsame.data hin]
    exact hspaces i hlt

theorem gridDefaultCell_storable : Storable GRID_DEFAULT_CELL :=
  ⟨by decide, by decide, by decide, by decide, fun _ => ⟨by decide, by decide⟩,
    fun h => absurd h (by decide)⟩

/-! ### Lines -/

/-- The cells of a line that is sound can be stored again. -/
structure GridLine.Sound (table : Utf8Table) (gl : GridLine) : Prop where
  wellFormed : gl.WellFormed table
  used : gl.cellused ≤ gl.celldata.length
  flagged : ∀ px, gl.isExtended px = true → gl.flags.extended = true
  cells : ∀ px gc, lineGetCell table gl px = .ok gc → Storable gc

theorem GridLine.Sound.grows {table table' : Utf8Table} {gl : GridLine} (h : gl.Sound table)
    (hgrows : table.Grows table') : gl.Sound table' := by
  refine ⟨h.wellFormed.grows hgrows, h.used, h.flagged, fun px gc hgc => ?_⟩
  obtain ⟨gc', hgc', hstays⟩ := h.wellFormed.read px
  obtain rfl := Except.ok.inj ((hstays table' hgrows).symm.trans hgc)
  exact h.cells px _ hgc'

theorem sound_of_nil (table : Utf8Table) {gl : GridLine} (hcells : gl.celldata = [])
    (hused : gl.cellused = 0) : gl.Sound table := by
  refine ⟨⟨fun px gce hpx _ => ?_, fun px qx gce gce' hpx _ _ _ _ => ?_⟩, ?_, fun px hpx => ?_,
    fun px gc hgc => ?_⟩
  · rw [hcells] at hpx
    cases hpx
  · rw [hcells] at hpx
    cases hpx
  · rw [hused]
    exact Nat.zero_le _
  · rw [GridLine.isExtended, hcells] at hpx
    cases hpx
  · rw [lineGetCell_of_le (by rw [hcells]; exact Nat.zero_le px)] at hgc
    exact Except.ok.inj hgc ▸ gridDefaultCell_storable

/-- A line with other flags, which still say that it has extended cells. -/
theorem GridLine.Sound.of_flags {table : Utf8Table} {gl : GridLine} (h : gl.Sound table)
    {flags : GridLineFlags} (hflags : gl.flags.extended = true → flags.extended = true) :
    GridLine.Sound table { gl with flags := flags } := by
  obtain ⟨⟨hreadable, hapart⟩, hused, hflagged, hcells⟩ := h
  exact ⟨⟨hreadable, hapart⟩, hused, fun px hpx => hflags (hflagged px hpx), hcells⟩

/-- The `n` cells of a line from `src` on are a line. -/
theorem GridLine.Sound.part {table : Utf8Table} {gl : GridLine} (h : gl.Sound table) {src n : Nat}
    (hn : src + n ≤ gl.celldata.length) :
    GridLine.Sound table
      { gl with celldata := (gl.celldata.drop src).take n, cellused := n } := by
  have hlength : ((gl.celldata.drop src).take n).length = n :=
    List.length_take_of_le (by rw [List.length_drop]; omega)
  have hentry : ∀ px gce, ((gl.celldata.drop src).take n)[px]? = some gce →
      gl.celldata[src + px]? = some gce := by
    intro px gce hpx
    obtain ⟨hlt, -⟩ := List.getElem?_eq_some_iff.mp hpx
    rwa [List.getElem?_take_of_lt (hlength ▸ hlt), List.getElem?_drop] at hpx
  refine ⟨⟨fun px gce hpx hext => h.wellFormed.readable _ gce (hentry px gce hpx) hext,
    fun px qx gce gce' hpx hqx hext hext' hoff => ?_⟩, Nat.le_of_eq hlength.symm,
    fun px hpx => ?_, fun px gc hgc => ?_⟩
  · have := h.wellFormed.apart _ _ gce gce' (hentry px gce hpx) (hentry qx gce' hqx) hext hext' hoff
    omega
  · rw [GridLine.isExtended, Option.any_eq_true] at hpx
    obtain ⟨gce, hgce, hext⟩ := hpx
    exact h.flagged (src + px) ((isExtended_eq (hentry px gce hgce)).trans hext)
  · rcases Nat.lt_or_ge px n with hlt | hge
    · have hget := List.getElem?_eq_getElem (Nat.lt_of_lt_of_eq hlt hlength.symm)
      refine h.cells (src + px) gc ?_
      rw [← hgc]
      exact (@lineGetCell_congr table gl ⟨_, n, gl.extddata, _⟩ _ _ _ (hentry px _ hget) hget
        fun _ => rfl).symm
    · rw [lineGetCell_of_le (Nat.le_trans (Nat.le_of_eq hlength) hge)] at hgc
      exact Except.ok.inj hgc ▸ gridDefaultCell_storable

theorem GridLine.Sound.read {table : Utf8Table} {gl : GridLine} (h : gl.Sound table) {px : Nat}
    (hpx : px < gl.cellused) :
    ∃ gc, gridGetCell1 table gl px = .ok gc ∧ lineGetCell table gl px = .ok gc ∧ Storable gc := by
  obtain ⟨gc, hgc, -⟩ := h.wellFormed.read px
  refine ⟨gc, ?_, hgc, h.cells px gc hgc⟩
  rw [← lineGetCell_of_lt (Nat.lt_of_lt_of_le hpx h.used)]
  exact hgc

theorem GridLine.Sound.stored {table table' : Utf8Table} {gsx px : Nat} {gl gl' : GridLine}
    {gc : GridCell} (h : gl.Sound table)
    (hstored : Stored table table' (gl.readied gsx px) gl' px gc) : gl'.Sound table' := by
  have hlong := le_longer_expandCount gsx gl (px + 1)
  have hflag : gl'.flags.extended =
      (gl.flags.extended || (gl.isExtended px || cellNeedsExtended gc)) := by
    have hflags := congrArg GridLineFlags.extended hstored.flags
    rw [readied_isExtended] at hflags
    exact hflags
  refine ⟨hstored.wellFormed, ?_, fun qx hqx => ?_, fun qx gc' hgc' => ?_⟩
  · rw [hstored.used, hstored.elsewhere.length]
    change (if gl.cellused < px + 1 then px + 1 else gl.cellused) ≤
      (gl.longer (expandCount gsx gl (px + 1))).celldata.length
    have hused := h.used
    split_ifs
    · exact hlong
    · rw [GridLine.longer, List.length_append]
      omega
  · rw [hflag]
    by_cases heq : qx = px
    · subst heq
      rw [hstored.extended, readied_isExtended] at hqx
      rw [hqx, Bool.or_true]
    · have hold : gl.isExtended qx = true := by
        rw [GridLine.isExtended, hstored.elsewhere.entry qx heq, Option.any_eq_true] at hqx
        obtain ⟨gce, hgce, hext⟩ := hqx
        rcases getElem?_longer hgce with hold | ⟨-, rfl⟩
        · exact (isExtended_eq hold).trans hext
        · cases hext
      rw [h.flagged qx hold, Bool.true_or]
  · by_cases heq : qx = px
    · subst heq
      obtain ⟨gc'', hread, hstorable, -⟩ := hstored.read
      obtain rfl := Except.ok.inj (hread.symm.trans hgc')
      exact hstorable
    · obtain ⟨old, new, hold, hnew, hsame⟩ := hstored.reads h.wellFormed heq
      obtain rfl := Except.ok.inj (hnew.symm.trans hgc')
      exact (h.cells qx old hold).of_same hsame

/-! ### Grids -/

structure GridSound (table : Utf8Table) (gd : Grid) : Prop where
  linked : table.Linked
  length : gd.linedata.length = gd.hsize + gd.sy
  line : ∀ gl ∈ gd.linedata, gl.Sound table

theorem GridSound.grows {table table' : Utf8Table} {gd : Grid} (h : GridSound table gd)
    (ht' : table'.Linked) (hgrows : table.Grows table') : GridSound table' gd :=
  ⟨ht', h.length, fun gl hgl => (h.line gl hgl).grows hgrows⟩

theorem GridSound.line_at {table : Utf8Table} {gd : Grid} (h : GridSound table gd) {py : Nat}
    {gl : GridLine} (hgl : gd.linedata[py]? = some gl) : gl.Sound table :=
  h.line gl (List.mem_of_getElem? hgl)

theorem GridSound.setLine {table : Utf8Table} {gd : Grid} (h : GridSound table gd) (py : Nat)
    {gl : GridLine} (hgl : gl.Sound table) : GridSound table (gd.setLine py gl) := by
  refine ⟨h.linked, List.length_set.trans h.length, fun gl' hgl' => ?_⟩
  rcases List.mem_or_eq_of_mem_set hgl' with hold | rfl
  · exact h.line gl' hold
  · exact hgl

/-- `grid_set_cell` on a sound grid stores in the one line. -/
theorem gridSetCell_sound {table : Utf8Table} {gd : Grid} (h : GridSound table gd) (px : Nat)
    {py : Nat} {gl : GridLine} (hgl : gd.linedata[py]? = some gl) {gc : GridCell}
    (hgc : Storable gc) :
    ∃ table' gl', gridSetCell table gd px py gc = .ok (table', gd.setLine py gl') ∧
      GridSound table' (gd.setLine py gl') ∧ table.Grows table' ∧
      Stored table table' (gl.readied gd.sx px) gl' px gc := by
  obtain ⟨hlt, -⟩ := List.getElem?_eq_some_iff.mp hgl
  have hpy : py < gd.hsize + gd.sy := h.length ▸ hlt
  have hsound := h.line_at hgl
  obtain ⟨table', gl', hok, hstored⟩ :=
    lineSetCell_stored h.linked gd.sx hsound.wellFormed px hgc
  refine ⟨table', gl', ?_, (h.grows hstored.linked hstored.grows).setLine py
    (hsound.stored hstored), hstored.grows, hstored⟩
  simp only [gridSetCell, if_neg (Nat.not_le.mpr hpy), hgl, hok, ok_bind]
  rfl

end Ztmux.Grids
