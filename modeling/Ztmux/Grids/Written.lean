import Ztmux.Grids.Reflowed

/-!
Reflowing the lines that the screen writer has written.

A wide character is followed by a padding cell, which is drawn with no columns at all. What a reflow
adds up are the widths that cells are read with, and a padding cell in an entry of four bytes is
read with one column. A line that is short enough for both goes to the new grid as it is, unless it
is joined to a line above.
-/

namespace Ztmux.Grids

open Utf8 ScreenWrite

/-! ### Lines as they are written -/

/-- A character of this many columns. -/
structure Drawable (columns : UInt8) (gc : GridCell) : Prop where
  storable : Storable gc
  width : gc.data.width = columns
  padding : gc.flags.padding = false
  tab : gc.flags.tab = false

/-- The lines that the screen writer has written, on grids of any width and with the table growing
on the way, and the columns that the cells were drawn with. -/
inductive LineWritten : Utf8Table → GridLine → (Nat → Nat) → Prop
  | fresh {table : Utf8Table} : table.Linked → LineWritten table .zeroed fun _ => 1
  | ordinary {table table' : Utf8Table} {gsx px : Nat} {gl gl' : GridLine} {drawn : Nat → Nat}
      {gc : GridCell} : LineWritten table gl drawn → Drawable 1 gc →
      lineSetCell table gsx gl px gc = .ok (table', gl') →
      LineWritten table' gl' (Function.update drawn px 1)
  | wide {table table' table'' : Utf8Table} {gsx px : Nat} {gl gl' gl'' : GridLine}
      {drawn : Nat → Nat} {gc : GridCell} : LineWritten table gl drawn → Drawable 2 gc →
      lineSetCell table gsx gl px gc = .ok (table', gl') →
      -- `grid_set_padding`
      lineSetCell table' gsx gl' (px + 1) GRID_PADDING_CELL = .ok (table'', gl'') →
      LineWritten table'' gl'' (Function.update (Function.update drawn px 2) (px + 1) 0)
  | wrap {table : Utf8Table} {gl : GridLine} {drawn : Nat → Nat} (wrapped : Bool) :
      LineWritten table gl drawn →
      LineWritten table { gl with flags := { gl.flags with wrapped := wrapped } } drawn
  | grows {table table' : Utf8Table} {gl : GridLine} {drawn : Nat → Nat} :
      LineWritten table gl drawn → table'.Linked → table.Grows table' →
      LineWritten table' gl drawn

/-- A grid of such lines. -/
structure GridWritten (table : Utf8Table) (gd : Grid) (drawn : Nat → Nat → Nat) : Prop where
  linked : table.Linked
  length : gd.linedata.length = gd.hsize + gd.sy
  line : ∀ (py : Nat) (gl : GridLine), gd.linedata[py]? = some gl →
    LineWritten table gl (drawn py)

/-- The columns that the cells in use were drawn with. -/
def trueWidth (gl : GridLine) (drawn : Nat → Nat) : Nat :=
  ((List.range gl.cellused).map drawn).sum

/-- A padding cell in an entry that is not extended. -/
def GridLine.isPackedPadding (gl : GridLine) (px : Nat) : Bool :=
  (gl.celldata[px]?).any fun gce => gce.flags.padding && !gce.flags.extended

def packedPaddings (gl : GridLine) : Nat := (List.range gl.cellused).countP gl.isPackedPadding

/-- The columns that the cells in use are read with. -/
def readWidth (table : Utf8Table) (gl : GridLine) : Nat := (widths table gl 0 gl.cellused).sum

/-! ### The widths that are read -/

/-- What is read of a written line: no more columns than were drawn, but for packed padding. -/
structure Drawn (table : Utf8Table) (gl : GridLine) (drawn : Nat → Nat) : Prop where
  linked : table.Linked
  sound : gl.Sound table
  live : gl.flags.dead = false
  width : ∀ px : Nat, widthAt table gl px ≤ drawn px + if gl.isPackedPadding px then 1 else 0

theorem widthAt_of_ok {table : Utf8Table} {gl : GridLine} {px : Nat} {gc : GridCell}
    (h : lineGetCell table gl px = .ok gc) : widthAt table gl px = gc.data.width.toNat := by
  rw [widthAt, h]

theorem widthAt_packed {table : Utf8Table} {gl : GridLine} {px : Nat}
    (h : gl.isExtended px = false) : widthAt table gl px = 1 := by
  rcases Nat.lt_or_ge px gl.celldata.length with hlt | hge
  · have hget := List.getElem?_eq_getElem hlt
    rw [isExtended_eq hget] at h
    exact widthAt_of_ok (lineGetCell_packed hget h table)
  · exact widthAt_of_ok (lineGetCell_of_le hge table)

/-- Packed padding elsewhere in the line stays. -/
theorem Stored.packedPadding {table table' : Utf8Table} {gsx px : Nat} {gl gl' : GridLine}
    {gc : GridCell} (h : Stored table table' (gl.readied gsx px) gl' px gc) {qx : Nat}
    (hqx : qx ≠ px) (hpadding : gl.isPackedPadding qx = true) : gl'.isPackedPadding qx = true := by
  rw [GridLine.isPackedPadding, Option.any_eq_true] at hpadding ⊢
  obtain ⟨gce, hgce, hyes⟩ := hpadding
  refine ⟨gce, ?_, hyes⟩
  obtain ⟨hlt, -⟩ := List.getElem?_eq_some_iff.mp hgce
  rw [h.elsewhere.entry qx hqx]
  exact (List.getElem?_append_left hlt).trans hgce

/-- A cell that does not make its entry extended has its flags in it. -/
theorem lineSetCell_packedPadding {table table' : Utf8Table} {gsx px : Nat} {gl gl' : GridLine}
    {gc : GridCell} (h : Stored table table' (gl.readied gsx px) gl' px gc)
    (hok : lineSetCell table gsx gl px gc = .ok (table', gl')) (hgc : gc.flags.extended = false)
    (hpacked : gl'.isExtended px = false) (hpadding : gc.flags.padding = true) :
    gl'.isPackedPadding px = true := by
  obtain ⟨gce, hgce, -⟩ := longer_entry gsx gl px
  have hneed : gridNeedExtendedCell gce gc = false := by
    have hready := @isExtended_eq (gl.readied gsx px) px gce hgce
    rw [gridNeedExtendedCell, ← hready, ← h.extended]
    exact hpacked
  have hset : lineSetCell table gsx gl px gc = .ok (table, { gl.readied gsx px with
      celldata :=
        (gl.readied gsx px).celldata.set px (gridStoreCell gce gc (gc.data.data 0)) }) := by
    simp only [lineSetCell, gridExpandLine_eq_longer, hgce, hneed, Bool.false_eq_true, if_false]
    rfl
  obtain ⟨-, rfl⟩ := Prod.mk.inj (Except.ok.inj (hset.symm.trans hok))
  obtain ⟨hlt, -⟩ := List.getElem?_eq_some_iff.mp hgce
  have hnew : ((gl.readied gsx px).celldata.set px (gridStoreCell gce gc (gc.data.data 0)))[px]? =
      some (gridStoreCell gce gc (gc.data.data 0)) := List.getElem?_set_self hlt
  rw [GridLine.isPackedPadding, Option.any_eq_true]
  refine ⟨_, hnew, ?_⟩
  have hflags : (gridStoreCell gce gc (gc.data.data 0)).flags.extended = false := hgc
  have hflags' : (gridStoreCell gce gc (gc.data.data 0)).flags.padding = true := hpadding
  rw [hflags, hflags']
  rfl

/-- A cell is stored and drawn: padding with no columns, or any other cell with one or more. -/
theorem Drawn.store {table table' : Utf8Table} {gsx px columns : Nat} {gl gl' : GridLine}
    {drawn : Nat → Nat} {gc : GridCell} (h : Drawn table gl drawn) (hgc : Storable gc)
    (hok : lineSetCell table gsx gl px gc = .ok (table', gl'))
    (hwidth : gc.data.width.toNat ≤ columns) (hpadding : gc.flags.padding = true ∨ 1 ≤ columns) :
    Drawn table' gl' (Function.update drawn px columns) := by
  obtain ⟨table₁, gl₁, hok₁, hstored⟩ := lineSetCell_stored h.linked gsx h.sound.wellFormed px hgc
  obtain ⟨rfl, rfl⟩ := Prod.mk.inj (Except.ok.inj (hok₁.symm.trans hok))
  refine ⟨hstored.linked, h.sound.stored hstored, ?_, fun qx => ?_⟩
  · have hflags := congrArg GridLineFlags.dead hstored.flags
    exact hflags.trans h.live
  · by_cases hqx : qx = px
    · subst hqx
      rw [Function.update_self]
      cases hext : gl₁.isExtended qx with
      | true =>
          obtain ⟨gc', hread, -, -, hle⟩ := hstored.read
          rw [widthAt_of_ok hread]
          have := UInt8.le_iff_toNat_le.mp (hle hext)
          omega
      | false =>
          rw [widthAt_packed hext]
          rcases hpadding with hyes | hpos
          · rw [lineSetCell_packedPadding hstored hok hgc.flags.1 hext hyes]
            exact Nat.le_add_left _ _
          · exact Nat.le_add_right_of_le hpos
    · rw [Function.update_of_ne hqx]
      obtain ⟨old, new, hold, hnew, hsame⟩ := hstored.reads h.sound.wellFormed hqx
      have hstays : widthAt table₁ gl₁ qx = widthAt table gl qx := by
        rw [widthAt_of_ok hnew, widthAt_of_ok hold, hsame.data.width]
      have hbefore := h.width qx
      rw [hstays]
      by_cases hpad : gl.isPackedPadding qx = true
      · rw [if_pos hpad] at hbefore
        rw [if_pos (hstored.packedPadding hqx hpad)]
        exact hbefore
      · rw [if_neg hpad] at hbefore
        exact Nat.le_add_right_of_le hbefore

/-- Every written line is sound, and is read with the columns that were drawn. -/
theorem LineWritten.read_drawn {table : Utf8Table} {gl : GridLine} {drawn : Nat → Nat}
    (h : LineWritten table gl drawn) : Drawn table gl drawn := by
  induction h with
  | fresh hlinked =>
      refine ⟨hlinked, sound_of_nil _ rfl rfl, rfl, fun px => ?_⟩
      rw [widthAt_packed rfl]
      exact Nat.le_add_right _ _
  | ordinary _ hgc hok ih =>
      refine ih.store hgc.storable hok ?_ (.inr (Nat.le_refl 1))
      rw [hgc.width]
      exact Nat.le_refl 1
  | wide _ hgc hok hok' ih =>
      have hwide := @ih.store _ _ _ _ 2 _ _ _ _ hgc.storable hok (by rw [hgc.width]; decide)
        (.inr (by decide))
      exact hwide.store gridPaddingCell_storable hok' (Nat.le_refl 0) (.inl rfl)
  | wrap wrapped _ ih =>
      exact ⟨ih.linked, ih.sound.of_flags fun hext => hext, ih.live, ih.width⟩
  | grows _ hlinked hgrows ih =>
      refine ⟨hlinked, ih.sound.grows hgrows, ih.live, fun px => ?_⟩
      obtain ⟨gc, hgc, hstays⟩ := ih.sound.wellFormed.read px
      rw [widthAt_of_ok (hstays _ hgrows), ← widthAt_of_ok hgc]
      exact ih.width px

theorem sum_map_le_add_countP (l : List Nat) {f g : Nat → Nat} {p : Nat → Bool}
    (h : ∀ x, f x ≤ g x + if p x then 1 else 0) : (l.map f).sum ≤ (l.map g).sum + l.countP p := by
  induction l with
  | nil => exact Nat.zero_le _
  | cons x l ih =>
      have hx := h x
      rw [List.map_cons, List.map_cons, List.sum_cons, List.sum_cons, List.countP_cons]
      split_ifs at hx ⊢ <;> omega

theorem Drawn.readWidth_le {table : Utf8Table} {gl : GridLine} {drawn : Nat → Nat}
    (h : Drawn table gl drawn) : readWidth table gl ≤ trueWidth gl drawn + packedPaddings gl := by
  rw [readWidth, widths, ← List.range_eq_range']
  exact sum_map_le_add_countP _ h.width

/-! ### What is read as the table grows -/

theorem GridLine.Sound.reads_later {table table' : Utf8Table} {gl : GridLine} (h : gl.Sound table)
    (hgrows : table.Grows table') (px : Nat) :
    lineGetCell table' gl px = lineGetCell table gl px := by
  obtain ⟨gc, hgc, hagain⟩ := h.wellFormed.read px
  exact (hagain table' hgrows).trans hgc.symm

theorem GridLine.Sound.widthAt_later {table table' : Utf8Table} {gl : GridLine}
    (h : gl.Sound table) (hgrows : table.Grows table') (px : Nat) :
    widthAt table' gl px = widthAt table gl px := by
  rw [widthAt, widthAt, h.reads_later hgrows px]

theorem GridLine.Sound.readWidth_later {table table' : Utf8Table} {gl : GridLine}
    (h : gl.Sound table) (hgrows : table.Grows table') :
    readWidth table' gl = readWidth table gl := by
  rw [readWidth, readWidth, widths, widths]
  congr 1
  apply List.map_congr_left
  intro px _
  exact h.widthAt_later hgrows px

/-! ### Grids as they are written -/

theorem GridWritten.sound {table : Utf8Table} {gd : Grid} {drawn : Nat → Nat → Nat}
    (h : GridWritten table gd drawn) : GridSound table gd := by
  refine ⟨h.linked, h.length, fun gl hgl => ?_⟩
  obtain ⟨py, hpy⟩ := List.mem_iff_getElem?.mp hgl
  exact (h.line py gl hpy).read_drawn.sound

/-! ### Lines that stay -/

/-- The line is in the new grid as it was, behind what became of the lines above it, and is
read as before. -/
def LeftUnchanged (table : Utf8Table) (gd : Grid) (sx yy : Nat) (gl : GridLine) : Prop :=
  ∃ st table' gd' after, reflowLines sx yy 0 (.start table gd) = .ok st ∧
    gridReflow table gd sx = .ok (table', gd') ∧
    gd'.linedata = st.target.linedata ++ gl :: after ∧
    ∀ px, lineGetCell table' gl px = lineGetCell table gl px

theorem start_sound {table : Utf8Table} {gd : Grid} (h : GridSound table gd) :
    (Reflow.start table gd).Sound :=
  ⟨h, ⟨h.linked, rfl, fun _ hgl => absurd hgl List.not_mem_nil⟩, rfl⟩

theorem finishReflow_linedata (st : Reflow) :
    ∃ more, (finishReflow st).linedata = st.target.linedata ++ more := by
  rw [finishReflow]
  dsimp only
  split_ifs
  · exact ⟨_, rfl⟩
  · exact ⟨[], (List.append_nil _).symm⟩

/-- The line has no cell that fits behind so many columns. -/
def NoRoom (table : Utf8Table) (sx width : Nat) (gl : GridLine) : Prop :=
  if gl.cellused = 0 then gl.flags.wrapped = false else sx < width + widthAt table gl 0

instance (table : Utf8Table) (sx width : Nat) (gl : GridLine) :
    Decidable (NoRoom table sx width gl) :=
  inferInstanceAs (Decidable
    (if gl.cellused = 0 then gl.flags.wrapped = false else sx < width + widthAt table gl 0))

theorem NoRoom.later {table table' : Utf8Table} {sx width : Nat} {gl : GridLine}
    (h : NoRoom table sx width gl) (hsound : gl.Sound table) (hgrows : table.Grows table') :
    NoRoom table' sx width gl := by
  rw [NoRoom] at h ⊢
  rw [hsound.widthAt_later hgrows 0]
  exact h

/-- Nothing of the line is joined to the lines above: it is the first one, or the one above is not
wrapped, or the one above is kept apart itself and either is full or leaves no room for a cell. -/
inductive Apart (table : Utf8Table) (gd : Grid) (sx : Nat) : Nat → Prop
  | first : Apart table gd sx 0
  | unwrapped {yy : Nat} {above : GridLine} : gd.linedata[yy]? = some above →
      above.flags.wrapped = false → Apart table gd sx (yy + 1)
  | full {yy : Nat} {above : GridLine} : Apart table gd sx yy → gd.linedata[yy]? = some above →
      readWidth table above = sx → Apart table gd sx (yy + 1)
  | noRoom {yy : Nat} {above gl : GridLine} : Apart table gd sx yy →
      gd.linedata[yy]? = some above → gd.linedata[yy + 1]? = some gl →
      readWidth table above < sx → NoRoom table sx (readWidth table above) gl →
      Apart table gd sx (yy + 1)

theorem joinLines_noRoom {table : Utf8Table} {gl : GridLine} (h : gl.Sound table) {sx dst : Nat}
    (rest : List GridLine) {j : Join} (hgrows : table.Grows j.table)
    (hroom : NoRoom table sx j.width gl) :
    joinLines sx dst (gl :: rest) j = .ok { j with wrapped := j.wrapped && gl.flags.wrapped } := by
  rw [NoRoom] at hroom
  rw [joinLines]
  dsimp only
  by_cases hempty : gl.cellused = 0
  · rw [if_pos hempty] at hroom
    rw [if_pos hempty, hroom, Bool.and_false, if_neg Bool.false_ne_true]
    rfl
  · rw [if_neg hempty] at hroom
    obtain ⟨n, hn⟩ := Nat.exists_eq_succ_of_ne_zero hempty
    obtain ⟨gc, hread, -, hwidth⟩ := h.read_later hgrows (Nat.pos_of_ne_zero hempty)
    rw [if_neg hempty, hn, joinCells, hread, ok_bind, hwidth, if_pos hroom]
    rfl

/-- A line that has no room for the one below is only moved. -/
theorem gridReflowJoin_noRoom {st : Reflow} (h : st.Sound) {sx yy width : Nat} {gl below : GridLine}
    (hgl : st.gd.linedata[yy]? = some gl) (hbelow : st.gd.linedata[yy + 1]? = some below)
    (hroom : NoRoom st.table sx width below) :
    gridReflowJoin st sx yy width false = .ok (gridReflowMove st yy gl) := by
  have htarget := gridReflowMove_target h yy gl
  have hlast : (gridReflowMove st yy gl).target.linedata[(gridReflowMove st yy gl).target.sy - 1]? =
      some gl := by
    rw [htarget]
    change (st.target.linedata ++ [gl])[st.target.sy + 1 - 1]? = some gl
    rw [Nat.add_sub_cancel, h.sy, List.getElem?_concat_length]
  have hnext : (gridReflowMove st yy gl).gd.linedata[yy + 1]? = some below :=
    (List.getElem?_set_ne (Nat.ne_of_lt (Nat.lt_succ_self yy))).trans hbelow
  obtain ⟨hlt, hget⟩ := List.getElem?_eq_some_iff.mp hnext
  rw [gridReflowJoin, if_neg Bool.false_ne_true, hgl]
  dsimp only
  rw [joinBelow, hlast]
  dsimp only
  rw [List.drop_eq_getElem_cons hlt, hget,
    joinLines_noRoom (h.gd.line_at hbelow) _ (.refl _) hroom]
  rfl

/-- A line that is not too wide is moved, if it is not wrapped, or full, or has no room for the one
below. -/
theorem reflowLine_move {st : Reflow} (h : st.Sound) {sx yy : Nat} {gl : GridLine}
    (hgl : st.gd.linedata[yy]? = some gl) (hlive : gl.flags.dead = false)
    (hwidth : readWidth st.table gl ≤ sx)
    (hroom : readWidth st.table gl < sx → gl.flags.wrapped = true →
      ∃ below, st.gd.linedata[yy + 1]? = some below ∧
        NoRoom st.table sx (readWidth st.table gl) below) :
    reflowLine sx st yy = .ok (gridReflowMove st yy gl) := by
  obtain ⟨hit, hmeasure, -, -⟩ := measureLine_ok (h.gd.line_at hgl) sx
  rw [← readWidth] at hmeasure
  rw [reflowLine, hgl]
  dsimp only
  rw [hlive, if_neg Bool.false_ne_true, hmeasure, ok_bind]
  dsimp only
  split_ifs with hfull hwide hwrapped
  · rfl
  · exact absurd hwidth (Nat.not_le.mpr hwide)
  · obtain ⟨below, hbelow, hno⟩ := hroom (Nat.lt_of_le_of_ne hwidth hfull) hwrapped
    exact gridReflowJoin_noRoom h hgl hbelow hno
  · rfl

/-- The lines above `yy` have been taken, and those from it on are still as they were. -/
structure Arrived (table : Utf8Table) (gd : Grid) (sx yy : Nat) (st : Reflow) : Prop where
  run : reflowLines sx yy 0 (.start table gd) = .ok st
  sound : st.Sound
  grows : table.Grows st.table
  length : st.gd.linedata.length = gd.linedata.length
  lines : ∀ k, yy ≤ k → st.gd.linedata[k]? = gd.linedata[k]?

theorem Arrived.move {table : Utf8Table} {gd : Grid} {sx yy : Nat} {st : Reflow}
    (h : Arrived table gd sx yy st) {gl : GridLine} (hgl : gd.linedata[yy]? = some gl)
    (hmove : reflowLine sx st yy = .ok (gridReflowMove st yy gl)) :
    Arrived table gd sx (yy + 1) (gridReflowMove st yy gl) := by
  have hmoved := gridReflowMove_ok h.sound ((h.lines yy (Nat.le_refl yy)).trans hgl)
  refine ⟨?_, hmoved.sound, h.grows, List.length_set.trans h.length, fun k hk => ?_⟩
  · rw [reflowLines_add, h.run, ok_bind, Nat.zero_add, reflowLines, hmove]
    rfl
  · exact (List.getElem?_set_ne (Nat.ne_of_lt hk)).trans (h.lines k (Nat.le_of_succ_le hk))

/-- The lines above leave a line alone that is kept apart. -/
theorem Apart.arrived {table : Utf8Table} {gd : Grid} {drawn : Nat → Nat → Nat}
    (h : GridWritten table gd drawn) {sx yy : Nat} (hsx : 0 < sx) (hapart : Apart table gd sx yy) :
    yy < gd.linedata.length → ∃ st, Arrived table gd sx yy st := by
  have hlength : ∀ {st : Reflow}, st.Sound → SameSize gd st.gd →
      st.gd.linedata.length = gd.linedata.length := by
    intro st hst hsize
    rw [hst.gd.length, h.length, hsize.hsize, hsize.sy]
  induction hapart with
  | first => exact fun _ => ⟨_, rfl, start_sound h.sound, .refl _, rfl, fun _ _ => rfl⟩
  | @unwrapped yy above habove hno =>
      intro hyy
      obtain ⟨st, hok, hst, hgrows, -, hsize, hsource⟩ := reflowLines_ok hsx (yy + 1) 0
        (start_sound h.sound) (by rw [Nat.zero_add]; exact Nat.le_of_lt hyy)
      have hblock : ∀ gl, gd.linedata[yy]? = some gl → gl.flags.wrapped = false := by
        intro gl hgl
        obtain rfl := Option.some.inj (habove.symm.trans hgl)
        exact hno
      exact ⟨st, hok, hst, hgrows, hlength hst hsize,
        (hsource yy (Nat.zero_add _) (Nat.succ_pos yy) hblock).below⟩
  | @full yy above _ habove hfull ih =>
      intro hyy
      obtain ⟨st, hst⟩ := ih (Nat.lt_of_succ_lt hyy)
      have hdrawn := (h.line yy above habove).read_drawn
      have hwidth := (hdrawn.sound.readWidth_later hst.grows).trans hfull
      exact ⟨_, hst.move habove (reflowLine_move hst.sound
        ((hst.lines yy (Nat.le_refl yy)).trans habove) hdrawn.live (Nat.le_of_eq hwidth)
        fun hlt => absurd hwidth (Nat.ne_of_lt hlt))⟩
  | @noRoom yy above gl _ habove hgl hlt hroom ih =>
      intro hyy
      obtain ⟨st, hst⟩ := ih (Nat.lt_of_succ_lt hyy)
      have hdrawn := (h.line yy above habove).read_drawn
      have hbelow := (h.line (yy + 1) gl hgl).read_drawn
      have hwidth := hdrawn.sound.readWidth_later hst.grows
      refine ⟨_, hst.move habove (reflowLine_move hst.sound
        ((hst.lines yy (Nat.le_refl yy)).trans habove) hdrawn.live ?_ fun _ _ => ⟨gl, ?_, ?_⟩)⟩
      · rw [hwidth]
        exact Nat.le_of_lt hlt
      · exact (hst.lines (yy + 1) (Nat.le_succ yy)).trans hgl
      · rw [hwidth]
        exact hroom.later hbelow.sound hst.grows

/-- A written line that is not wrapped, and of which nothing is joined to the lines above, is left
unchanged when there are columns enough for its cells and for the padding that is packed. -/
theorem gridReflow_unchanged {table : Utf8Table} {gd : Grid} {drawn : Nat → Nat → Nat}
    (h : GridWritten table gd drawn) {sx yy : Nat} (hsx : 0 < sx) {gl : GridLine}
    (hgl : gd.linedata[yy]? = some gl) (hwrapped : gl.flags.wrapped = false)
    (hapart : Apart table gd sx yy)
    (hwidth : trueWidth gl (drawn yy) + packedPaddings gl ≤ sx) :
    LeftUnchanged table gd sx yy gl := by
  obtain ⟨hyy, -⟩ := List.getElem?_eq_some_iff.mp hgl
  have hdrawn := (h.line yy gl hgl).read_drawn
  obtain ⟨st, hst⟩ := hapart.arrived h hsx hyy
  have hat : st.gd.linedata[yy]? = some gl := (hst.lines yy (Nat.le_refl yy)).trans hgl
  have hfits : readWidth st.table gl ≤ sx := by
    rw [hdrawn.sound.readWidth_later hst.grows]
    exact Nat.le_trans hdrawn.readWidth_le hwidth
  have hmove := reflowLine_move hst.sound hat hdrawn.live hfits fun _ hyes => by
    rw [hwrapped] at hyes
    cases hyes
  have hmoved := hst.move hgl hmove
  -- the lines below only add to the new grid
  obtain ⟨n, hn⟩ := Nat.exists_eq_add_of_lt hyy
  obtain ⟨st', hok', -, hgrows', hkept, -, -⟩ := reflowLines_ok hsx n (yy + 1) hmoved.sound
    (by rw [hmoved.length]; omega)
  obtain ⟨block, hblock⟩ := hkept.append
  obtain ⟨more, hmore⟩ := finishReflow_linedata st'
  refine ⟨st, st'.table, finishReflow st', block ++ more, hst.run, ?_, ?_,
    hdrawn.sound.reads_later (hmoved.grows.trans hgrows')⟩
  · rw [gridReflow, ← h.length, hn, Nat.add_right_comm, reflowLines_add, hmoved.run, ok_bind,
      Nat.zero_add, hok', ok_bind]
    rfl
  · rw [hmore, hblock, gridReflowMove_target hst.sound, List.append_assoc, List.append_assoc]
    rfl

/-! ### Lines that do not stay -/

/-- One column wide. -/
def letterCell : GridCell := { GRID_DEFAULT_CELL with data := utf8Set 0x61 }

theorem letterCell_drawable : Drawable 1 letterCell :=
  ⟨⟨by decide, by decide, by decide, by decide, fun _ => ⟨by decide, by decide⟩,
    fun h => absurd h (by decide)⟩, rfl, rfl, rfl⟩

theorem wideCell_drawable : Drawable 2 wideCell := ⟨wideCell_storable, rfl, rfl, rfl⟩

/-- A line with a cell set in it. -/
def lineWith (gsx : Nat) (gl : GridLine) (px : Nat) (gc : GridCell) : GridLine :=
  match lineSetCell Utf8Table.empty gsx gl px gc with
  | .ok (_, gl) => gl
  | .error _ => gl

theorem LineWritten.letter {gl gl' : GridLine} (h : LineWritten Utf8Table.empty gl fun _ => 1)
    {gsx px : Nat}
    (hok : lineSetCell Utf8Table.empty gsx gl px letterCell = .ok (Utf8Table.empty, gl')) :
    LineWritten Utf8Table.empty gl' fun _ => 1 := by
  have hnext := h.ordinary letterCell_drawable hok
  rw [Function.update_eq_self px fun _ => 1] at hnext
  exact hnext

def letterLine : GridLine := lineWith 4 .zeroed 0 letterCell

theorem letterLine_written : LineWritten Utf8Table.empty letterLine fun _ => 1 :=
  @LineWritten.letter _ letterLine (.fresh Utf8Table.empty_linked) 4 0 rfl

/-- A wide character on a line that is full with it. -/
def wideLine : GridLine := lineWith 2 (lineWith 2 .zeroed 0 wideCell) 1 GRID_PADDING_CELL

def wideDrawn : Nat → Nat := Function.update (Function.update (fun _ => 1) 0 2) 1 0

theorem wideLine_written : LineWritten Utf8Table.empty wideLine wideDrawn :=
  @LineWritten.wide _ _ _ 2 0 _ _ _ _ _ (.fresh Utf8Table.empty_linked) wideCell_drawable rfl rfl

def twoLetters : GridLine := lineWith 3 (lineWith 3 .zeroed 0 letterCell) 1 letterCell

theorem twoLetters_written : LineWritten Utf8Table.empty twoLetters fun _ => 1 :=
  @LineWritten.letter _ twoLetters
    (@LineWritten.letter _ (lineWith 3 .zeroed 0 letterCell) (.fresh Utf8Table.empty_linked) 3 0
      rfl) 3 1 rfl

def threeLetters : GridLine := lineWith 3 twoLetters 2 letterCell

/-- A line that is full, one that has no room for a wide character, and the wide character, as they
are wrapped on three columns. -/
def filledGrid : Grid :=
  ⟨3, 3, 0, 0,
    [{ threeLetters with flags := { threeLetters.flags with wrapped := true } },
      { twoLetters with flags := { twoLetters.flags with wrapped := true } }, wideLine]⟩

def filledDrawn (py : Nat) : Nat → Nat := if py = 2 then wideDrawn else fun _ => 1

theorem filledGrid_written : GridWritten Utf8Table.empty filledGrid filledDrawn := by
  refine ⟨Utf8Table.empty_linked, rfl, fun py gl hgl => ?_⟩
  obtain ⟨hpy, -⟩ := List.getElem?_eq_some_iff.mp hgl
  have hthree : LineWritten Utf8Table.empty threeLetters fun _ => 1 :=
    @LineWritten.letter _ threeLetters twoLetters_written 3 2 rfl
  change py < 3 at hpy
  interval_cases py
  · obtain rfl := Option.some.inj hgl
    exact hthree.wrap true
  · obtain rfl := Option.some.inj hgl
    exact twoLetters_written.wrap true
  · obtain rfl := Option.some.inj hgl
    exact wideLine_written

theorem filledGrid_apart : Apart Utf8Table.empty filledGrid 3 2 :=
  .noRoom (.full .first rfl (by decide)) rfl rfl (by decide) (by decide)

theorem gridReflow_unchanged_wide :
    GridWritten Utf8Table.empty filledGrid filledDrawn ∧
      Apart Utf8Table.empty filledGrid 3 2 ∧
      trueWidth wideLine wideDrawn + packedPaddings wideLine ≤ 3 ∧
      LeftUnchanged Utf8Table.empty filledGrid 3 2 wideLine :=
  ⟨filledGrid_written, filledGrid_apart, by decide,
    gridReflow_unchanged filledGrid_written (by decide) rfl rfl filledGrid_apart (by decide)⟩

def wideGrid : Grid := ⟨2, 1, 0, 0, [wideLine]⟩

theorem wideGrid_written : GridWritten Utf8Table.empty wideGrid fun _ => wideDrawn := by
  refine ⟨Utf8Table.empty_linked, rfl, fun py gl hgl => ?_⟩
  obtain rfl : gl = wideLine := List.mem_singleton.mp (List.mem_of_getElem? hgl)
  exact wideLine_written

/-- A wrapped line and the rest of it. -/
def joinedGrid : Grid :=
  ⟨4, 2, 0, 0, [{ letterLine with flags := { letterLine.flags with wrapped := true } }, letterLine]⟩

theorem joinedGrid_written : GridWritten Utf8Table.empty joinedGrid fun _ _ => 1 := by
  refine ⟨Utf8Table.empty_linked, rfl, fun py gl hgl => ?_⟩
  rcases List.mem_cons.mp (List.mem_of_getElem? hgl) with rfl | hlast
  · exact letterLine_written.wrap true
  · obtain rfl := List.mem_singleton.mp hlast
    exact letterLine_written

/-- A blank line and one with a letter. -/
def letterGrid : Grid := ⟨4, 2, 0, 0, [.zeroed, letterLine]⟩

theorem letterGrid_written : GridWritten Utf8Table.empty letterGrid fun _ _ => 1 := by
  refine ⟨Utf8Table.empty_linked, rfl, fun py gl hgl => ?_⟩
  rcases List.mem_cons.mp (List.mem_of_getElem? hgl) with rfl | hlast
  · exact .fresh Utf8Table.empty_linked
  · obtain rfl := List.mem_singleton.mp hlast
    exact letterLine_written

/-- How many cells of each line are in use after a reflow. -/
def usedAfter (gd : Grid) (sx : Nat) : Option (List Nat) :=
  match gridReflow Utf8Table.empty gd sx with
  | .ok (_, gd) => some (gd.linedata.map GridLine.cellused)
  | .error _ => none

theorem LeftUnchanged.mem_usedAfter {gd : Grid} {sx yy : Nat} {gl : GridLine}
    (h : LeftUnchanged Utf8Table.empty gd sx yy gl) :
    ∃ used, usedAfter gd sx = some used ∧ gl.cellused ∈ used := by
  obtain ⟨st, table', gd', after, -, hok, hlines, -⟩ := h
  refine ⟨gd'.linedata.map GridLine.cellused, ?_, ?_⟩
  · rw [usedAfter, hok]
  · rw [hlines]
    exact List.mem_map_of_mem (List.mem_append_right _ List.mem_cons_self)

/-- The line at `yy` is left unchanged if it is not wrapped and its true width fits. -/
def StaysWhenItFits (table : Utf8Table) (gd : Grid) (drawn : Nat → Nat → Nat) (sx yy : Nat) :
    Prop :=
  ∀ gl, gd.linedata[yy]? = some gl → gl.flags.wrapped = false → trueWidth gl (drawn yy) ≤ sx →
    LeftUnchanged table gd sx yy gl

/-- A line below a wrapped one is joined to it, a line that is full with a wide character is split,
both at the width of the grid, and a reflow to no columns at all divides by zero. -/
theorem gridReflow_moves_fitting :
    (GridWritten Utf8Table.empty joinedGrid (fun _ _ => 1) ∧
      ¬ StaysWhenItFits Utf8Table.empty joinedGrid (fun _ _ => 1) joinedGrid.sx 1) ∧
    (GridWritten Utf8Table.empty wideGrid (fun _ => wideDrawn) ∧
      ¬ StaysWhenItFits Utf8Table.empty wideGrid (fun _ => wideDrawn) wideGrid.sx 0) ∧
    GridWritten Utf8Table.empty letterGrid (fun _ _ => 1) ∧
      ¬ StaysWhenItFits Utf8Table.empty letterGrid (fun _ _ => 1) 0 0 := by
  refine ⟨⟨joinedGrid_written, fun hstays => ?_⟩, ⟨wideGrid_written, fun hstays => ?_⟩,
    letterGrid_written, fun hstays => ?_⟩
  · obtain ⟨used, hused, hmem⟩ := (hstays letterLine rfl rfl (by decide)).mem_usedAfter
    have hjoined : usedAfter joinedGrid joinedGrid.sx = some [2, 0] := by decide +kernel
    obtain rfl := Option.some.inj (hjoined.symm.trans hused)
    exact absurd hmem (by decide)
  · obtain ⟨used, hused, hmem⟩ := (hstays wideLine rfl rfl (by decide)).mem_usedAfter
    have hsplit : usedAfter wideGrid wideGrid.sx = some [1, 1] := by decide +kernel
    obtain rfl := Option.some.inj (hsplit.symm.trans hused)
    exact absurd hmem (by decide)
  · obtain ⟨used, hused, -⟩ := (hstays .zeroed rfl rfl (by decide)).mem_usedAfter
    have hpanic : usedAfter letterGrid 0 = none := by decide +kernel
    cases hpanic.symm.trans hused

end Ztmux.Grids
