import Ztmux.Grids.Reflow
import Ztmux.Grids.Sound

/-!
Reflowing a grid of sound lines.

Every step comes to an end with sound grids, only adds lines to the new grid, and takes lines from
the old one no further than the first that is not wrapped. A split has as many lines as it
counted: both loops start a new one at the same cells.
-/

namespace Ztmux.Grids

open Utf8 ScreenWrite

/-! ### Widths -/

/-- The width that a position is read with. -/
def widthAt (table : Utf8Table) (gl : GridLine) (px : Nat) : Nat :=
  match lineGetCell table gl px with
  | .ok gc => gc.data.width.toNat
  | .error _ => 0

/-- The widths of `n` positions from `src` on. -/
def widths (table : Utf8Table) (gl : GridLine) (src n : Nat) : List Nat :=
  (List.range' src n).map (widthAt table gl)

theorem widths_succ (table : Utf8Table) (gl : GridLine) (src n : Nat) :
    widths table gl src (n + 1) = widthAt table gl src :: widths table gl (src + 1) n := rfl

/-- A cell in use is read, with its width, from then on. -/
theorem GridLine.Sound.read_later {table table' : Utf8Table} {gl : GridLine} (h : gl.Sound table)
    (hgrows : table.Grows table') {px : Nat} (hpx : px < gl.cellused) :
    ∃ gc, gridGetCell1 table' gl px = .ok gc ∧ Storable gc ∧
      gc.data.width.toNat = widthAt table gl px := by
  obtain ⟨gc, hread, hget, hstorable⟩ := (h.grows hgrows).read hpx
  obtain ⟨gc', hget', hstays⟩ := h.wellFormed.read px
  obtain rfl := Except.ok.inj ((hstays table' hgrows).symm.trans hget)
  exact ⟨_, hread, hstorable, by rw [widthAt, hget']⟩

/-- Without extended cells every cell is one column wide. -/
theorem GridLine.Sound.widths_unflagged {table : Utf8Table} {gl : GridLine} (h : gl.Sound table)
    (hflag : gl.flags.extended = false) (src n : Nat) :
    widths table gl src n = List.replicate n 1 := by
  have hone : ∀ px, widthAt table gl px = 1 := by
    intro px
    have hpacked : gl.isExtended px = false :=
      Bool.eq_false_iff.mpr fun hext => Bool.eq_false_iff.mp hflag (h.flagged px hext)
    rw [widthAt]
    rcases Nat.lt_or_ge px gl.celldata.length with hlt | hge
    · have hget := List.getElem?_eq_getElem hlt
      rw [isExtended_eq hget] at hpacked
      rw [lineGetCell_packed hget hpacked]
      rfl
    · rw [lineGetCell_of_le hge]
      rfl
  rw [widths, List.eq_replicate_iff, List.length_map, List.length_range']
  refine ⟨rfl, fun w hw => ?_⟩
  obtain ⟨px, -, rfl⟩ := List.mem_map.mp hw
  exact hone px

/-- How often a new line is started for cells of these widths, behind some of this width. -/
def wraps (sx : Nat) : Nat → List Nat → Nat
  | _, [] => 0
  | width, w :: ws => if sx < width + w then wraps sx w ws + 1 else wraps sx (width + w) ws

theorem wraps_replicate {sx : Nat} (hsx : 0 < sx) (n : Nat) {width : Nat} (hwidth : width ≤ sx) :
    wraps sx width (List.replicate n 1) = (width + n - 1) / sx := by
  induction n generalizing width with
  | zero =>
      rw [List.replicate_zero, wraps, Nat.div_eq_of_lt]
      omega
  | succ n ih =>
      rw [List.replicate_succ, wraps]
      split_ifs with hfull
      · obtain rfl : width = sx := by omega
        rw [ih hsx, (by omega : width + (n + 1) - 1 = (1 + n - 1) + width),
          Nat.add_div_right _ hsx]
      · rw [ih (by omega), (by omega : width + 1 + n = width + (n + 1))]

/-! ### Measuring and counting -/

theorem measureCells_ok {table : Utf8Table} {gl : GridLine} (h : gl.Sound table) (sx : Nat)
    {n i : Nat} (hn : i + n ≤ gl.cellused) (hit width : Nat) :
    ∃ hit', measureCells table gl sx n i hit width =
        .ok (hit', width + (widths table gl i n).sum) ∧ (hit' = hit ∨ hit' < i + n) := by
  induction n generalizing i hit width with
  | zero => exact ⟨hit, rfl, .inl rfl⟩
  | succ n ih =>
      obtain ⟨gc, hread, -, hwidth⟩ := h.read_later (.refl table) (by omega : i < gl.cellused)
      obtain ⟨hit', hok, hle⟩ := ih (i := i + 1) (by omega)
        (if hit = 0 ∧ sx < width + gc.data.width.toNat then i else hit)
        (width + gc.data.width.toNat)
      refine ⟨hit', ?_, ?_⟩
      · rw [measureCells, hread, ok_bind, hok, widths_succ, List.sum_cons, hwidth, Nat.add_assoc]
      · split_ifs at hle
        · exact .inr (by omega)
        · exact hle.imp_right fun hlt => by omega

/-- The width of a line is that of its cells, and a line that is too wide is cut among its cells. -/
theorem measureLine_ok {table : Utf8Table} {gl : GridLine} (h : gl.Sound table) (sx : Nat) :
    ∃ hit, measureLine table gl sx = .ok (hit, (widths table gl 0 gl.cellused).sum) ∧
      hit ≤ gl.cellused ∧ (gl.flags.extended = false → sx < gl.cellused → hit = sx) := by
  rw [measureLine]
  cases hflag : gl.flags.extended with
  | true =>
      obtain ⟨hit, hok, hle⟩ := measureCells_ok h sx (Nat.le_of_eq (Nat.zero_add gl.cellused)) 0 0
      rw [Nat.zero_add] at hok
      exact ⟨hit, hok, by omega, fun hno => by cases hno⟩
  | false =>
      rw [h.widths_unflagged hflag, List.sum_replicate, Nat.smul_one_eq_cast, Nat.cast_id]
      refine ⟨_, rfl, ?_, fun _ hlt => if_pos hlt⟩
      split_ifs <;> omega

theorem countLines_ok {table : Utf8Table} {gl : GridLine} (h : gl.Sound table) (sx : Nat)
    {n i : Nat} (hn : i + n ≤ gl.cellused) (lines width : Nat) :
    countLines table gl sx n i lines width =
      .ok (lines + wraps sx width (widths table gl i n)) := by
  induction n generalizing i lines width with
  | zero => rfl
  | succ n ih =>
      obtain ⟨gc, hread, -, hwidth⟩ := h.read_later (.refl table) (by omega : i < gl.cellused)
      rw [countLines, hread, ok_bind, widths_succ, wraps, hwidth]
      split_ifs
      · rw [ih (by omega), Nat.add_right_comm, Nat.add_assoc]
      · rw [ih (by omega)]

/-- There are two lines, and one more for every time that a new one is started. -/
theorem splitLines_ok {table : Utf8Table} {gl : GridLine} (h : gl.Sound table) {sx hit : Nat}
    (hsx : 0 < sx) (hhit : hit ≤ gl.cellused)
    (hcut : gl.flags.extended = false → hit = sx ∧ sx < gl.cellused) :
    splitLines table gl sx hit =
      .ok (2 + wraps sx 0 (widths table gl hit (gl.cellused - hit))) := by
  rw [splitLines]
  cases hflag : gl.flags.extended with
  | true => exact countLines_ok h sx (by omega) 2 0
  | false =>
      obtain ⟨rfl, hlt⟩ := hcut hflag
      rw [if_neg Bool.false_ne_true, if_neg (by omega), h.widths_unflagged hflag,
        wraps_replicate hsx _ (Nat.zero_le hit)]
      have hcount : gl.cellused - 1 = (0 + (gl.cellused - hit) - 1) + hit := by omega
      rw [hcount, Nat.add_div_right _ hsx]
      change Except.ok _ = Except.ok _
      congr 1
      omega

/-! ### The new grid -/

/-- The first `n` lines of the new grid stay, and none of its lines goes away. -/
structure TargetKept (n : Nat) (gd gd' : Grid) : Prop where
  hsize : gd'.hsize = gd.hsize
  length : gd.linedata.length ≤ gd'.linedata.length
  lines : ∀ k, k < n → gd'.linedata[k]? = gd.linedata[k]?

theorem TargetKept.refl (n : Nat) (gd : Grid) : TargetKept n gd gd :=
  ⟨rfl, Nat.le_refl _, fun _ _ => rfl⟩

theorem TargetKept.trans {n : Nat} {gd gd' gd'' : Grid} (h : TargetKept n gd gd')
    (h' : TargetKept n gd' gd'') : TargetKept n gd gd'' :=
  ⟨h'.hsize.trans h.hsize, h.length.trans h'.length,
    fun k hk => (h'.lines k hk).trans (h.lines k hk)⟩

theorem TargetKept.of_le {m n : Nat} {gd gd' : Grid} (h : TargetKept n gd gd') (hle : m ≤ n) :
    TargetKept m gd gd' :=
  ⟨h.hsize, h.length, fun k hk => h.lines k (Nat.lt_of_lt_of_le hk hle)⟩

theorem targetKept_setLine (gd : Grid) {n py : Nat} (hpy : n ≤ py) (gl : GridLine) :
    TargetKept n gd (gd.setLine py gl) :=
  ⟨rfl, Nat.le_of_eq List.length_set.symm,
    fun _ hk => List.getElem?_set_ne (Nat.ne_of_gt (Nat.lt_of_lt_of_le hk hpy))⟩

theorem gridReflowAdd_kept (gd : Grid) (n : Nat) :
    TargetKept gd.linedata.length gd (gridReflowAdd gd n) :=
  ⟨rfl, by rw [gridReflowAdd, List.length_append]; omega,
    fun _ hk => List.getElem?_append_left hk⟩

theorem gridReflowAdd_sound {table : Utf8Table} {gd : Grid} (h : GridSound table gd) (n : Nat) :
    GridSound table (gridReflowAdd gd n) := by
  refine ⟨h.linked, ?_, fun gl hgl => ?_⟩
  · rw [gridReflowAdd, List.length_append, List.length_replicate, h.length, Nat.add_assoc]
  · rcases List.mem_append.mp hgl with hold | hnew
    · exact h.line gl hold
    · exact List.eq_of_mem_replicate hnew ▸ sound_of_nil table rfl rfl

/-- The lines of the new grid are the ones before and more. -/
theorem TargetKept.append {gd gd' : Grid} (h : TargetKept gd.linedata.length gd gd') :
    ∃ block, gd'.linedata = gd.linedata ++ block := by
  refine ⟨gd'.linedata.drop gd.linedata.length, ?_⟩
  conv_lhs => rw [← List.take_append_drop gd.linedata.length gd'.linedata]
  congr 1
  apply List.ext_getElem?
  intro k
  rcases Nat.lt_or_ge k gd.linedata.length with hlt | hge
  · rw [List.getElem?_take_of_lt hlt, h.lines k hlt]
  · rw [List.getElem?_take_eq_none hge, List.getElem?_eq_none hge]

/-! ### Joining -/

/-- Cells are joined to one line of the new grid. -/
structure Joined (dst : Nat) (j j' : Join) : Prop where
  sound : GridSound j'.table j'.target
  grows : j.table.Grows j'.table
  kept : TargetKept dst j.target j'.target
  sy : j'.target.sy = j.target.sy

theorem Joined.refl {dst : Nat} {j : Join} (h : GridSound j.table j.target) : Joined dst j j :=
  ⟨h, .refl _, .refl _ _, rfl⟩

theorem Joined.trans {dst : Nat} {j j' j'' : Join} (h : Joined dst j j') (h' : Joined dst j' j'') :
    Joined dst j j'' :=
  ⟨h'.sound, h.grows.trans h'.grows, h.kept.trans h'.kept, h'.sy.trans h.sy⟩

theorem joinCells_ok {table : Utf8Table} {gl : GridLine} (h : gl.Sound table) (sx : Nat)
    {dst n want : Nat} (hn : want + n ≤ gl.cellused) {j : Join} (hgrows : table.Grows j.table)
    (hj : GridSound j.table j.target) (hdst : dst < j.target.linedata.length) :
    ∃ want' j', joinCells sx dst gl n want j = .ok (want', j') ∧ Joined dst j j' ∧
      j'.lines = j.lines ∧ j'.wrapped = j.wrapped ∧ j'.last = j.last ∧
      want ≤ want' ∧ want' ≤ want + n := by
  induction n generalizing want j with
  | zero => exact ⟨want, j, rfl, .refl hj, rfl, rfl, rfl, Nat.le_refl _, Nat.le_refl _⟩
  | succ n ih =>
      obtain ⟨gc, hread, hstorable, -⟩ := h.read_later hgrows (by omega : want < gl.cellused)
      rw [joinCells, hread, ok_bind]
      split_ifs with hfull
      · exact ⟨want, j, rfl, .refl hj, rfl, rfl, rfl, Nat.le_refl _, Nat.le_add_right _ _⟩
      · obtain ⟨table', gl', hset, hsound, hgrows', -⟩ :=
          gridSetCell_sound hj j.hit (List.getElem?_eq_getElem hdst) hstorable
        rw [hset, ok_bind]
        have hlength : (j.target.setLine dst gl').linedata.length = j.target.linedata.length :=
          List.length_set
        obtain ⟨want', j', hok, hjoined, hlines, hwrapped, hlast, hge, hle⟩ :=
          @ih (want + 1) (by omega) { j with
              table := table'
              target := j.target.setLine dst gl'
              width := j.width + gc.data.width.toNat
              hit := j.hit + 1 } (hgrows.trans hgrows') hsound (by rw [hlength]; exact hdst)
        have hone : Joined dst j { j with
            table := table'
            target := j.target.setLine dst gl'
            width := j.width + gc.data.width.toNat
            hit := j.hit + 1 } :=
          ⟨hsound, hgrows', targetKept_setLine j.target (Nat.le_refl dst) gl', rfl⟩
        exact ⟨want', j', hok, hone.trans hjoined, hlines, hwrapped, hlast, by omega, by omega⟩

/-- What joining lines leaves: it has not gone beyond a line that is not wrapped, and a line that
is not used up is the last one. -/
structure LinesJoined (dst : Nat) (lines : List GridLine) (j j' : Join) : Prop where
  joined : Joined dst j j'
  le : j'.lines ≤ j.lines + lines.length
  stops : ∀ m gl, lines[m]? = some gl → gl.flags.wrapped = false → j'.lines ≤ j.lines + m + 1
  last : ∀ want left, j'.last = some (want, left) → left ≠ 0 →
    ∃ m gl, j'.lines = j.lines + m + 1 ∧ lines[m]? = some gl ∧ want + left = gl.cellused ∧ 0 < want

theorem LinesJoined.cons {dst : Nat} {gl : GridLine} {rest : List GridLine} {j j' j'' : Join}
    (h : LinesJoined dst rest j' j'') (hone : Joined dst j j') (hlines : j'.lines = j.lines + 1)
    (hwrapped : gl.flags.wrapped = true) : LinesJoined dst (gl :: rest) j j'' := by
  refine ⟨hone.trans h.joined, ?_, fun m gl' hm hno => ?_, fun want left hlast hleft => ?_⟩
  · rw [List.length_cons]
    have := h.le
    omega
  · cases m with
    | zero =>
        obtain rfl : gl = gl' := Option.some.inj hm
        rw [hwrapped] at hno
        cases hno
    | succ m =>
        have := h.stops m gl' hm hno
        omega
  · obtain ⟨m, gl', hm, hget, hsum, hpos⟩ := h.last want left hlast hleft
    exact ⟨m + 1, gl', by omega, hget, hsum, hpos⟩

theorem joinLines_ok {table : Utf8Table} (sx : Nat) {dst : Nat} (lines : List GridLine)
    (hlines : ∀ gl ∈ lines, gl.Sound table) {j : Join} (hgrows : table.Grows j.table)
    (hj : GridSound j.table j.target) (hdst : dst < j.target.linedata.length)
    (hlast : ∀ want left, j.last = some (want, left) → left = 0) :
    ∃ j', joinLines sx dst lines j = .ok j' ∧ LinesJoined dst lines j j' := by
  induction lines generalizing j with
  | nil =>
      exact ⟨j, rfl, .refl hj, Nat.le_refl _, fun m gl hm => (nomatch hm),
        fun want left hl hleft => absurd (hlast want left hl) hleft⟩
  | cons gl rest ih =>
      have hrest : ∀ g ∈ rest, g.Sound table := fun g hg => hlines g (List.mem_cons_of_mem _ hg)
      have hgl : gl.Sound table := hlines gl List.mem_cons_self
      -- where it stops at this line, having used it or not
      have hstop : ∀ {j' : Join}, Joined dst j j' → j.lines ≤ j'.lines → j'.lines ≤ j.lines + 1 →
          (∀ want left, j'.last = some (want, left) → left ≠ 0 →
            j'.lines = j.lines + 1 ∧ want + left = gl.cellused ∧ 0 < want) →
          LinesJoined dst (gl :: rest) j j' := by
        intro j' hjoined hge hle hlast'
        refine ⟨hjoined, by rw [List.length_cons]; omega, fun m _ _ _ => by omega, ?_⟩
        intro want left hl hleft
        obtain ⟨heq, hsum, hpos⟩ := hlast' want left hl hleft
        exact ⟨0, gl, heq, rfl, hsum, hpos⟩
      rw [joinLines]
      dsimp only
      split_ifs with hempty hwrapped
      · obtain ⟨-, hflag⟩ := Bool.and_eq_true_iff.mp hwrapped
        obtain ⟨j', hok, hj'⟩ := @ih hrest { j with
            lines := j.lines + 1
            wrapped := j.wrapped && gl.flags.wrapped } hgrows hj hdst hlast
        exact ⟨j', hok, hj'.cons ⟨hj, .refl _, .refl _ _, rfl⟩ rfl hflag⟩
      · exact ⟨_, rfl, hstop ⟨hj, .refl _, .refl _ _, rfl⟩ (Nat.le_refl _) (Nat.le_succ _)
          fun want left hl hleft => absurd (hlast want left hl) hleft⟩
      · obtain ⟨want, j', hok, hjoined, hjlines, hjwrapped, hjlast, -, hwant⟩ :=
          @joinCells_ok table gl hgl sx dst gl.cellused 0 (by omega)
            { j with wrapped := j.wrapped && gl.flags.wrapped } hgrows hj hdst
        have hjoined' : Joined dst j j' := ⟨hjoined.1, hjoined.2, hjoined.3, hjoined.4⟩
        rw [hok, ok_bind]
        dsimp only
        split_ifs with hnone hlastline
        · refine ⟨j', rfl, hstop hjoined' (Nat.le_of_eq hjlines.symm)
            (by rw [hjlines]; exact Nat.le_succ _) fun want left hl hleft => ?_⟩
          rw [hjlast] at hl
          exact absurd (hlast want left hl) hleft
        · refine ⟨_, rfl, hstop ⟨hjoined'.1, hjoined'.2, hjoined'.3, hjoined'.4⟩ ?_ ?_
            fun want' left hl hleft => ?_⟩
          · rw [hjlines]
            exact Nat.le_succ _
          · rw [hjlines]
          · obtain ⟨rfl, rfl⟩ := Prod.mk.inj (Option.some.inj hl)
            exact ⟨by rw [hjlines], by omega, by omega⟩
        · simp only [not_or, Bool.not_eq_false, not_not] at hlastline
          obtain ⟨hall, huse, -⟩ := hlastline
          obtain ⟨-, hflag⟩ := Bool.and_eq_true_iff.mp hall
          obtain ⟨j'', hok', hj''⟩ := @ih hrest { j' with
              lines := j'.lines + 1
              last := some (want, gl.cellused - want) } (hgrows.trans hjoined.grows) hjoined.sound
            (Nat.lt_of_lt_of_le hdst hjoined.kept.length) (fun want' left hl => by
              obtain ⟨rfl, rfl⟩ := Prod.mk.inj (Option.some.inj hl)
              omega)
          exact ⟨j'', hok', hj''.cons ⟨hjoined'.1, hjoined'.2, hjoined'.3, hjoined'.4⟩
            (by rw [hjlines]) hflag⟩

/-! ### Splitting -/

theorem flagWrapped_ok {table : Utf8Table} {gd : Grid} (h : GridSound table gd) {yy : Nat}
    (hyy : yy < gd.linedata.length) :
    ∃ gl, flagWrapped gd yy = .ok (gd.setLine yy gl) ∧ GridSound table (gd.setLine yy gl) := by
  have hget := List.getElem?_eq_getElem hyy
  have hsound : GridLine.Sound table { gd.linedata[yy] with
      flags := { gd.linedata[yy].flags with wrapped := true } } :=
    (h.line_at hget).of_flags fun hext => hext
  refine ⟨_, ?_, h.setLine yy hsound⟩
  rw [flagWrapped, hget]
  rfl

theorem splitCells_ok {table : Utf8Table} {gl : GridLine} (h : gl.Sound table) (sx : Nat)
    {n i : Nat} (hn : i + n ≤ gl.cellused) {s : Split} (hgrows : table.Grows s.table)
    (hs : GridSound s.table s.target)
    (hline : s.line + wraps sx s.width (widths table gl i n) < s.target.linedata.length) :
    ∃ s', splitCells sx gl n i s = .ok s' ∧ GridSound s'.table s'.target ∧
      s.table.Grows s'.table ∧ TargetKept s.line s.target s'.target ∧
      s'.line = s.line + wraps sx s.width (widths table gl i n) := by
  induction n generalizing i s with
  | zero => exact ⟨s, rfl, hs, .refl _, .refl _ _, rfl⟩
  | succ n ih =>
      obtain ⟨gc, hread, hstorable, hwidth⟩ := h.read_later hgrows (by omega : i < gl.cellused)
      rw [widths_succ, wraps] at hline ⊢
      rw [splitCells, hread, ok_bind, hwidth]
      split_ifs at hline ⊢ with hfull
      · obtain ⟨gl₁, hflag, hsound₁⟩ := flagWrapped_ok hs (by omega : s.line < _)
        have hlen₁ : (s.target.setLine s.line gl₁).linedata.length = s.target.linedata.length :=
          List.length_set
        have hnext : s.line + 1 < (s.target.setLine s.line gl₁).linedata.length := by
          rw [hlen₁]
          omega
        obtain ⟨table', gl₂, hset, hsound₂, hgrows', -⟩ :=
          gridSetCell_sound hsound₁ 0 (List.getElem?_eq_getElem hnext) hstorable
        have hlen₂ : ((s.target.setLine s.line gl₁).setLine (s.line + 1) gl₂).linedata.length =
            s.target.linedata.length := List.length_set.trans hlen₁
        obtain ⟨s', hok, hsound, hgrows'', hkept, hlines⟩ :=
          @ih (i + 1) (by omega) { s with
              table := table'
              target := (s.target.setLine s.line gl₁).setLine (s.line + 1) gl₂
              line := s.line + 1
              width := 0 + widthAt table gl i
              xx := 0 + 1 } (hgrows.trans hgrows') hsound₂ (by
                dsimp only
                rw [Nat.zero_add, hlen₂]
                omega)
        dsimp only at hlines hkept
        rw [Nat.zero_add] at hlines
        refine ⟨s', ?_, hsound, hgrows'.trans hgrows'', ?_, by omega⟩
        · rw [hflag, ok_bind, pure_bind]
          dsimp only
          rw [hset, ok_bind]
          exact hok
        · exact ((targetKept_setLine _ (Nat.le_refl s.line) gl₁).trans
            (targetKept_setLine _ (Nat.le_succ s.line) gl₂)).trans (hkept.of_le (Nat.le_succ _))
      · obtain ⟨table', gl₁, hset, hsound₁, hgrows', -⟩ := gridSetCell_sound hs s.xx
          (List.getElem?_eq_getElem (by omega : s.line < s.target.linedata.length)) hstorable
        have hlen₁ : (s.target.setLine s.line gl₁).linedata.length = s.target.linedata.length :=
          List.length_set
        obtain ⟨s', hok, hsound, hgrows'', hkept, hlines⟩ :=
          @ih (i + 1) (by omega) { s with
              table := table'
              target := s.target.setLine s.line gl₁
              width := s.width + widthAt table gl i
              xx := s.xx + 1 } (hgrows.trans hgrows') hsound₁ (by rw [hlen₁]; exact hline)
        refine ⟨s', ?_, hsound, hgrows'.trans hgrows'',
          (targetKept_setLine _ (Nat.le_refl s.line) gl₁).trans hkept, hlines⟩
        rw [pure_bind]
        dsimp only
        rw [hset, ok_bind]
        exact hok

/-! ### The old grid -/

/-- Lines may be taken from the old grid, but none of those below a line `b` that is not
wrapped. -/
structure SourceKept (b : Nat) (gd gd' : Grid) : Prop where
  below : ∀ k, b < k → gd'.linedata[k]? = gd.linedata[k]?
  unwrapped : ∀ gl, gd'.linedata[b]? = some gl → gl.flags.wrapped = false

structure SameSize (gd gd' : Grid) : Prop where
  sx : gd'.sx = gd.sx
  sy : gd'.sy = gd.sy
  hsize : gd'.hsize = gd.hsize

theorem SameSize.refl (gd : Grid) : SameSize gd gd := ⟨rfl, rfl, rfl⟩

theorem SameSize.trans {gd gd' gd'' : Grid} (h : SameSize gd gd') (h' : SameSize gd' gd'') :
    SameSize gd gd'' :=
  ⟨h'.sx.trans h.sx, h'.sy.trans h.sy, h'.hsize.trans h.hsize⟩

theorem gridReflowDead_sound {table : Utf8Table} {gd : Grid} (h : GridSound table gd) (yy : Nat) :
    GridSound table (gridReflowDead gd yy) :=
  h.setLine yy (sound_of_nil table rfl rfl)

theorem removeLines_ok {table : Utf8Table} (n yy : Nat) {gd : Grid} (h : GridSound table gd) :
    GridSound table (removeLines n yy gd) ∧ SameSize gd (removeLines n yy gd) ∧
      (∀ k, k < yy ∨ yy + n ≤ k → (removeLines n yy gd).linedata[k]? = gd.linedata[k]?) ∧
      ∀ k gl, yy ≤ k → k < yy + n → (removeLines n yy gd).linedata[k]? = some gl →
        gl = deadLine := by
  induction n generalizing yy gd with
  | zero => exact ⟨h, .refl gd, fun _ _ => rfl, fun k gl hge hlt => by omega⟩
  | succ n ih =>
      obtain ⟨hsound, hsize, hout, hin⟩ := ih (yy + 1) (gridReflowDead_sound h yy)
      have hsize' : SameSize gd (gridReflowDead gd yy) := ⟨rfl, rfl, rfl⟩
      refine ⟨hsound, hsize'.trans hsize, fun k hk => ?_, fun k gl hge hlt hgl => ?_⟩
      · rw [removeLines, hout k (by omega)]
        exact List.getElem?_set_ne (by omega)
      · rcases Nat.eq_or_lt_of_le hge with rfl | hgt
        · rw [removeLines, hout yy (.inl (Nat.lt_succ_self yy)), gridReflowDead, Grid.setLine,
            List.getElem?_set, if_pos rfl] at hgl
          split_ifs at hgl
          exact (Option.some.inj hgl).symm
        · exact hin k gl hgt (by omega) hgl

/-- Wiping with the default colour behind the first cells leaves these. -/
theorem wipeCells_default (nx n xx : Nat) (gl : GridLine) :
    ∃ cells, wipeCells 8 0 nx n xx gl = { gl with celldata := cells } ∧
      cells.take nx = gl.celldata.take nx := by
  induction n generalizing xx gl with
  | zero => exact ⟨gl.celldata, rfl, rfl⟩
  | succ n ih =>
      rw [wipeCells]
      split_ifs with hskip
      · exact ih (xx + 1) gl
      · obtain ⟨cells, hcells, htake⟩ := ih (xx + 1) (gridClearCell gl xx 8)
        refine ⟨cells, hcells, htake.trans ?_⟩
        exact List.take_set_of_le (by omega)

/-- What was consumed of a line is removed from it, and the rest is at its beginning. -/
theorem removeConsumed_eq {gd : Grid} {yy want left : Nat} {gl : GridLine}
    (hgl : gd.linedata[yy]? = some gl) (hyy : yy < gd.hsize + gd.sy) (hwant : 0 < want)
    (hleft : left ≠ 0) (hle : want + left ≤ gl.celldata.length) :
    removeConsumed gd yy want left = gd.setLine yy
      { gl with celldata := (gl.celldata.drop want).take left, cellused := left } := by
  have hexpand : ∀ sx, sx ≤ gl.celldata.length → gridExpandLine gd.sx gl sx 8 = gl :=
    fun sx hsx => if_pos hsx
  have hmove : ∃ cells used, lineMoveCells gd.sx gl 0 want left 8 =
      { gl with celldata := cells, cellused := used } ∧
        cells.take left = (gl.celldata.drop want).take left := by
    rw [lineMoveCells, hexpand _ hle, hexpand _ (by omega : 0 + left ≤ gl.celldata.length)]
    obtain ⟨cells, hcells, htake⟩ := wipeCells_default left left want { gl with
      celldata := copyWithin 0 want left gl.celldata
      cellused := if gl.cellused < 0 + left then 0 + left else gl.cellused }
    refine ⟨cells, _, hcells, htake.trans ?_⟩
    rw [copyWithin, List.take_zero, List.nil_append, List.take_left']
    exact List.length_take_of_le (by rw [List.length_drop]; omega)
  obtain ⟨cells, used, hline, htake⟩ := hmove
  have hmodify : ∀ f : GridLine → GridLine,
      gd.linedata.modify yy f = gd.linedata.set yy (f gl) := by
    intro f
    rw [List.modify_eq_set_getElem?, hgl]
    rfl
  rw [removeConsumed, gridMoveCells, if_neg (by omega)]
  dsimp only
  rw [List.modify_modify_eq, hmodify, Function.comp_apply, hline, Grid.setLine, ← htake]

theorem joinScroll_sound {table : Utf8Table} {gd : Grid} (h : GridSound table gd)
    (dst lines : Nat) : GridSound table (joinScroll gd dst lines) :=
  ⟨h.linked, h.length, h.line⟩

theorem unwrapLine_sound {table : Utf8Table} {gd : Grid} (h : GridSound table gd) (yy : Nat) :
    GridSound table { gd with linedata := unwrapLine gd.linedata yy } := by
  refine ⟨h.linked, (length_unwrapLine _ _).trans h.length, fun gl hgl => ?_⟩
  obtain ⟨k, hk⟩ := List.mem_iff_getElem?.mp hgl
  rw [unwrapLine, List.getElem?_modify] at hk
  obtain ⟨old, hold, rfl⟩ := Option.map_eq_some_iff.mp hk
  split_ifs
  · exact (h.line_at hold).of_flags fun hext => hext
  · exact h.line_at hold

theorem unwrapLine_kept (gd : Grid) (dst : Nat) :
    TargetKept dst gd { gd with linedata := unwrapLine gd.linedata dst } := by
  refine ⟨rfl, Nat.le_of_eq (length_unwrapLine _ _).symm, fun k hk => ?_⟩
  exact List.getElem?_modify_ne _ _ (Nat.ne_of_gt hk)

/-- Joining lines has not gone beyond a line that is not wrapped. -/
theorem LinesJoined.le_of_unwrapped {dst yy b : Nat} {gd : Grid} {j j' : Join}
    (h : LinesJoined dst (gd.linedata.drop (yy + 1)) j j') (hj : j.lines = 0) (hb : yy < b)
    (hblock : ∀ gl, gd.linedata[b]? = some gl → gl.flags.wrapped = false) :
    yy + j'.lines ≤ b := by
  have hle := h.le
  rw [List.length_drop] at hle
  rcases Nat.lt_or_ge b gd.linedata.length with hlt | hge
  · have hget : (gd.linedata.drop (yy + 1))[b - (yy + 1)]? = some gd.linedata[b] := by
      rw [List.getElem?_drop, Nat.add_sub_cancel' hb, List.getElem?_eq_getElem hlt]
    have := h.stops _ _ hget (hblock _ (List.getElem?_eq_getElem hlt))
    omega
  · omega

/-- The old grid after lines were joined: lines are dead, or shorter, up to the last one used. -/
theorem finishJoin_source {table : Utf8Table} {dst yy : Nat} {j j' : Join} {gd : Grid}
    (hgd : GridSound table gd)
    (hjoined : LinesJoined dst (gd.linedata.drop (yy + 1)) j j') (hj : j.lines = 0) :
    GridSound table (finishJoin gd yy dst j').gd ∧ SameSize gd (finishJoin gd yy dst j').gd ∧
      ∀ b, yy < b → (∀ gl, gd.linedata[b]? = some gl → gl.flags.wrapped = false) →
        SourceKept b gd (finishJoin gd yy dst j').gd := by
  rw [finishJoin]
  cases hlast : j'.last with
  | none => exact ⟨hgd, .refl gd, fun b _ hb => ⟨fun _ _ => rfl, hb⟩⟩
  | some used =>
      obtain ⟨want, left⟩ := used
      dsimp only
      by_cases hleft : left = 0
      · rw [if_neg (not_not.mpr hleft), if_neg (not_not.mpr hleft)]
        obtain ⟨hsound, hsize, hout, hin⟩ := removeLines_ok j'.lines (yy + 1) hgd
        refine ⟨joinScroll_sound hsound _ _, ⟨hsize.1, hsize.2, hsize.3⟩, fun b hb hblock => ?_⟩
        have hle := hjoined.le_of_unwrapped hj hb hblock
        refine ⟨fun k hk => hout k (by omega), fun gl hgl => ?_⟩
        rcases Nat.lt_or_ge b (yy + 1 + j'.lines) with hlt | hge
        · exact hin b gl hb hlt hgl ▸ rfl
        · exact hblock gl ((hout b (.inr hge)).symm.trans hgl)
      · rw [if_pos hleft, if_pos hleft]
        obtain ⟨m, gl, hm, hget, hsum, hwant⟩ := hjoined.last want left hlast hleft
        have hat : gd.linedata[yy + j'.lines]? = some gl := by
          rw [← hget, List.getElem?_drop, hm, hj]
          congr 1
          omega
        have hgl := hgd.line_at hat
        have hlen : want + left ≤ gl.celldata.length := hsum ▸ hgl.used
        obtain ⟨hlt, -⟩ := List.getElem?_eq_some_iff.mp hat
        rw [removeConsumed_eq hat (hgd.length ▸ hlt) hwant hleft hlen]
        obtain ⟨hsound, hsize, hout, hin⟩ := removeLines_ok (j'.lines - 1) (yy + 1)
          (hgd.setLine (yy + j'.lines) (hgl.part hlen))
        refine ⟨joinScroll_sound hsound _ _, ⟨hsize.1, hsize.2, hsize.3⟩, fun b hb hblock => ?_⟩
        have hle := hjoined.le_of_unwrapped hj hb hblock
        refine ⟨fun k hk => ?_, fun gl' hgl' => ?_⟩
        · exact (hout k (by omega)).trans (List.getElem?_set_ne (by omega))
        · rcases Nat.lt_or_ge b (yy + 1 + (j'.lines - 1)) with hlt' | hge
          · exact hin b gl' hb hlt' hgl' ▸ rfl
          · have hold := (hout b (.inr hge)).symm.trans hgl'
            rw [Grid.setLine, List.getElem?_set] at hold
            split_ifs at hold with heq
            · obtain rfl := Option.some.inj hold
              exact hblock gl (heq ▸ hat)
            · exact hblock gl' hold

/-- The line that was joined to may be the last one of its logical line. -/
theorem finishJoin_target {table : Utf8Table} {dst yy : Nat} {j : Join} {gd : Grid}
    (h : GridSound table j.target) :
    GridSound table (finishJoin gd yy dst j).target ∧
      TargetKept dst j.target (finishJoin gd yy dst j).target := by
  rw [finishJoin]
  cases j.last with
  | none => exact ⟨h, .refl _ _⟩
  | some used =>
      dsimp only
      split_ifs
      · exact ⟨unwrapLine_sound h dst, unwrapLine_kept j.target dst⟩
      · exact ⟨h, .refl _ _⟩

theorem finishJoin_table (gd : Grid) (yy dst : Nat) (j : Join) :
    (finishJoin gd yy dst j).table = j.table := by
  rw [finishJoin]
  cases j.last <;> rfl

/-! ### One line -/

/-- Both grids are sound, and the new one has no history. -/
structure Reflow.Sound (st : Reflow) : Prop where
  gd : GridSound st.table st.gd
  target : GridSound st.table st.target
  hsize : st.target.hsize = 0

theorem Reflow.Sound.sy {st : Reflow} (h : st.Sound) :
    st.target.sy = st.target.linedata.length := by
  rw [h.target.length, h.hsize, Nat.zero_add]

/-- What the line at `yy` does: the first `n` lines of the new grid stay, and lines below a line
that is not wrapped stay in the old one. -/
structure Reflowed (n yy : Nat) (st st' : Reflow) : Prop where
  sound : st'.Sound
  grows : st.table.Grows st'.table
  kept : TargetKept n st.target st'.target
  size : SameSize st.gd st'.gd
  source : ∀ b : Nat, yy ≤ b →
    (∀ gl : GridLine, st.gd.linedata[b]? = some gl → gl.flags.wrapped = false) →
      SourceKept b st.gd st'.gd

theorem Reflowed.refl {st : Reflow} (h : st.Sound) (n yy : Nat) : Reflowed n yy st st :=
  ⟨h, .refl _, .refl _ _, .refl _, fun _ _ hblock => ⟨fun _ _ => rfl, hblock⟩⟩

theorem Reflowed.trans {n yy : Nat} {st st' st'' : Reflow} (h : Reflowed n yy st st')
    (h' : Reflowed n yy st' st'') : Reflowed n yy st st'' := by
  refine ⟨h'.sound, h.grows.trans h'.grows, h.kept.trans h'.kept, h.size.trans h'.size,
    fun b hb hblock => ?_⟩
  obtain ⟨hbelow, hunwrapped⟩ := h.source b hb hblock
  obtain ⟨hbelow', hunwrapped'⟩ := h'.source b hb hunwrapped
  exact ⟨fun k hk => (hbelow' k hk).trans (hbelow k hk), hunwrapped'⟩

theorem Reflowed.below {n yy yy' : Nat} {st st' : Reflow} (h : Reflowed n yy st st')
    (hle : yy ≤ yy') : Reflowed n yy' st st' :=
  ⟨h.sound, h.grows, h.kept, h.size, fun b hb => h.source b (Nat.le_trans hle hb)⟩

/-- Fewer lines of the new grid stay, and `yy` itself is a wrapped line. -/
theorem Reflowed.of_wrapped {m n yy : Nat} {st st' : Reflow} (h : Reflowed n (yy + 1) st st')
    (hle : m ≤ n) {gl : GridLine} (hgl : st.gd.linedata[yy]? = some gl)
    (hwrapped : gl.flags.wrapped = true) : Reflowed m yy st st' := by
  refine ⟨h.sound, h.grows, h.kept.of_le hle, h.size, fun b hb hblock => ?_⟩
  rcases Nat.eq_or_lt_of_le hb with rfl | hlt
  · have := hblock gl hgl
    rw [hwrapped] at this
    cases this
  · exact h.source b hlt hblock

/-- Only the line at `yy` is taken from the old grid. -/
theorem gridReflowDead_source (gd : Grid) {yy b : Nat} (hb : yy ≤ b)
    (hblock : ∀ gl, gd.linedata[b]? = some gl → gl.flags.wrapped = false) :
    SourceKept b gd (gridReflowDead gd yy) := by
  refine ⟨fun k hk => List.getElem?_set_ne (by omega), fun gl hgl => ?_⟩
  rw [gridReflowDead, Grid.setLine, List.getElem?_set] at hgl
  split_ifs at hgl
  · exact Option.some.inj hgl ▸ rfl
  · exact hblock gl hgl

theorem gridReflowMove_target {st : Reflow} (h : st.Sound) (yy : Nat) (gl : GridLine) :
    (gridReflowMove st yy gl).target.linedata = st.target.linedata ++ [gl] := by
  rw [gridReflowMove, Grid.setLine, gridReflowAdd, h.sy, List.set_append_right _ _ (Nat.le_refl _),
    Nat.sub_self]
  rfl

theorem gridReflowMove_ok {st : Reflow} (h : st.Sound) {yy : Nat} {gl : GridLine}
    (hgl : st.gd.linedata[yy]? = some gl) :
    Reflowed st.target.linedata.length yy st (gridReflowMove st yy gl) := by
  have hadd := gridReflowAdd_kept st.target 1
  refine ⟨⟨gridReflowDead_sound h.gd yy,
      (gridReflowAdd_sound h.target 1).setLine _ (h.gd.line_at hgl), h.hsize⟩, .refl _,
    hadd.trans (targetKept_setLine _ (Nat.le_of_eq h.sy.symm) gl), ⟨rfl, rfl, rfl⟩,
    fun b hb hblock => gridReflowDead_source st.gd hb hblock⟩

theorem joinBelow_ok {st : Reflow} (h : st.Sound) (hline : 0 < st.target.linedata.length)
    (sx yy width : Nat) :
    ∃ st', joinBelow st sx yy width = .ok st' ∧
      Reflowed (st.target.linedata.length - 1) (yy + 1) st st' := by
  have hdst : st.target.sy - 1 < st.target.linedata.length := by
    rw [h.sy]
    omega
  rw [joinBelow, List.getElem?_eq_getElem hdst]
  dsimp only
  obtain ⟨j, hok, hj⟩ := joinLines_ok sx (st.gd.linedata.drop (yy + 1))
    (fun gl hgl => h.gd.line gl (List.mem_of_mem_drop hgl))
    (j := ⟨st.table, st.target, width, (st.target.linedata[st.target.sy - 1]).cellused, 0, true,
      none⟩) (.refl _) h.target hdst fun want left hlast => (nomatch hlast)
  rw [hok, ok_bind]
  have hgd := h.gd.grows hj.joined.sound.linked hj.joined.grows
  obtain ⟨hsource, hsize, hblock⟩ := finishJoin_source hgd hj rfl
  obtain ⟨htarget, hkept⟩ := @finishJoin_target j.table (st.target.sy - 1) yy j st.gd
    hj.joined.sound
  have htable := finishJoin_table st.gd yy (st.target.sy - 1) j
  have hkept' := hj.joined.kept.trans hkept
  refine ⟨_, rfl, ⟨htable ▸ hsource, htable ▸ htarget, hkept'.hsize.trans h.hsize⟩,
    htable ▸ hj.joined.grows, h.sy ▸ hkept', hsize, hblock⟩

theorem gridReflowJoin_ok {st : Reflow} (h : st.Sound) {yy : Nat} {gl : GridLine}
    (hgl : st.gd.linedata[yy]? = some gl) (hwrapped : gl.flags.wrapped = true) (sx width : Nat) :
    ∃ st', gridReflowJoin st sx yy width false = .ok st' ∧
      Reflowed st.target.linedata.length yy st st' := by
  have hmove := gridReflowMove_ok h hgl
  have hlength : (gridReflowMove st yy gl).target.linedata.length =
      st.target.linedata.length + 1 := by
    rw [gridReflowMove_target h, List.length_append, List.length_singleton]
  obtain ⟨st', hok, hjoin⟩ := joinBelow_ok hmove.sound (by omega) sx yy width
  rw [gridReflowJoin, if_neg Bool.false_ne_true, hgl]
  refine ⟨st', hok, ?_⟩
  rw [hlength, Nat.add_sub_cancel] at hjoin
  exact ((hmove.below (Nat.le_succ yy)).trans hjoin).of_wrapped (Nat.le_refl _) hgl hwrapped

/-- The new lines of a split are those of the cells that do not fit, behind the first. -/
theorem gridReflowSplit_ok {st : Reflow} (h : st.Sound) {sx yy hit : Nat} (hsx : 0 < sx)
    {gl : GridLine} (hgl : st.gd.linedata[yy]? = some gl) (hhit : hit ≤ gl.cellused)
    (hcut : gl.flags.extended = false → hit = sx ∧ sx < gl.cellused) :
    ∃ st', gridReflowSplit st sx yy hit = .ok st' ∧
      Reflowed st.target.linedata.length yy st st' := by
  have hsound := h.gd.line_at hgl
  have hsy := h.sy
  obtain ⟨lines, hcount⟩ :
      ∃ lines, 2 + wraps sx 0 (widths st.table gl hit (gl.cellused - hit)) = lines := ⟨_, rfl⟩
  have hadd := gridReflowAdd_kept st.target lines
  have hlength : (gridReflowAdd st.target lines).linedata.length = st.target.sy + lines := by
    rw [gridReflowAdd, List.length_append, List.length_replicate, hsy]
  obtain ⟨s, hok, hs, hgrows, hkept, hline⟩ := @splitCells_ok st.table gl hsound sx
    (gl.cellused - hit) hit (by omega)
    ⟨st.table, gridReflowAdd st.target lines, st.target.sy + 1, 0, 0⟩ (.refl _)
    (gridReflowAdd_sound h.target lines) (by dsimp only; omega)
  dsimp only at hgrows hkept hline
  have hlast : s.line < s.target.linedata.length := Nat.lt_of_lt_of_le (by omega) hkept.length
  -- the last line is wrapped if the line was
  obtain ⟨target, htarget, hsound', hkept'⟩ : ∃ target,
      (if gl.flags.wrapped then flagWrapped s.target s.line else pure s.target) = .ok target ∧
        GridSound s.table target ∧ TargetKept s.line s.target target := by
    split_ifs
    · obtain ⟨gl', hflag, hflagged⟩ := flagWrapped_ok hs hlast
      exact ⟨_, hflag, hflagged, targetKept_setLine _ (Nat.le_refl _) gl'⟩
    · exact ⟨_, rfl, hs, .refl _ _⟩
  have hpart : GridLine.Sound s.table { gl with
      celldata := gl.celldata.take hit
      cellused := hit
      flags := { gl.flags with wrapped := true } } :=
    GridLine.Sound.of_flags ((hsound.grows hgrows).part (Nat.le_trans (Nat.le_of_eq
      (Nat.zero_add hit)) (Nat.le_trans hhit hsound.used))) fun hext => hext
  have hnew : TargetKept st.target.linedata.length (gridReflowAdd st.target lines)
      (target.setLine st.target.sy { gl with
        celldata := gl.celldata.take hit
        cellused := hit
        flags := { gl.flags with wrapped := true } }) :=
    ((hkept.of_le (by omega)).trans (hkept'.of_le (by omega))).trans
      (targetKept_setLine target (Nat.le_of_eq hsy.symm) _)
  -- what there is before the lines below are joined
  obtain ⟨mid, hmid⟩ : ∃ mid : Reflow, mid = ⟨s.table,
      { gridReflowDead st.gd yy with
        hscrolled := if yy ≤ (gridReflowDead st.gd yy).hscrolled then
          (gridReflowDead st.gd yy).hscrolled + (lines - 1)
        else (gridReflowDead st.gd yy).hscrolled },
      target.setLine st.target.sy { gl with
        celldata := gl.celldata.take hit
        cellused := hit
        flags := { gl.flags with wrapped := true } }⟩ := ⟨_, rfl⟩
  have hdead := (gridReflowDead_sound h.gd yy).grows hs.linked hgrows
  have hsplit : Reflowed st.target.linedata.length yy st mid := by
    rw [hmid]
    refine ⟨⟨⟨hdead.linked, hdead.length, hdead.line⟩, hsound'.setLine _ hpart,
      hnew.hsize.trans h.hsize⟩, hgrows, hadd.trans hnew, ⟨rfl, rfl, rfl⟩, fun b hb hblock => ?_⟩
    obtain ⟨hbelow, hunwrapped⟩ := gridReflowDead_source st.gd hb hblock
    exact ⟨hbelow, hunwrapped⟩
  have hrun : gridReflowSplit st sx yy hit =
      if s.width < sx ∧ gl.flags.wrapped = true then gridReflowJoin mid sx yy s.width true
      else .ok mid := by
    rw [gridReflowSplit, hgl]
    dsimp only
    rw [splitLines_ok hsound hsx hhit hcut, hcount, ok_bind, hok, ok_bind, hmid]
    by_cases hflag : gl.flags.wrapped = true
    · rw [if_pos hflag] at htarget
      rw [if_pos hflag, htarget]
      rfl
    · rw [if_neg hflag] at htarget
      obtain rfl := Except.ok.inj htarget
      rw [if_neg hflag]
      rfl
  rw [hrun]
  split_ifs with hjoin
  · have hmore : st.target.linedata.length + 2 ≤ mid.target.linedata.length := by
      have hle : (gridReflowAdd st.target lines).linedata.length ≤ mid.target.linedata.length :=
        hmid ▸ hnew.length
      omega
    obtain ⟨st', hok', hjoined⟩ := joinBelow_ok hsplit.sound (by omega) sx yy s.width
    refine ⟨st', (if_pos rfl).trans hok', ?_⟩
    have hjoined' : Reflowed st.target.linedata.length (yy + 1) mid st' :=
      ⟨hjoined.sound, hjoined.grows, hjoined.kept.of_le (by omega), hjoined.size, hjoined.source⟩
    exact ((hsplit.below (Nat.le_succ yy)).trans hjoined').of_wrapped (Nat.le_refl _) hgl hjoin.2
  · exact ⟨mid, rfl, hsplit⟩

theorem reflowLine_ok {st : Reflow} (h : st.Sound) {sx yy : Nat} (hsx : 0 < sx)
    (hyy : yy < st.gd.linedata.length) :
    ∃ st', reflowLine sx st yy = .ok st' ∧ Reflowed st.target.linedata.length yy st st' := by
  have hgl := List.getElem?_eq_getElem hyy
  obtain ⟨gl, hget⟩ : ∃ gl, st.gd.linedata[yy]? = some gl := ⟨_, hgl⟩
  have hsound := h.gd.line_at hget
  obtain ⟨hit, hmeasure, hhit, hcut⟩ := measureLine_ok hsound sx
  rw [reflowLine, hget]
  dsimp only
  by_cases hdead : gl.flags.dead = true
  · rw [if_pos hdead]
    exact ⟨st, rfl, .refl h _ _⟩
  · rw [if_neg hdead, hmeasure, ok_bind]
    dsimp only
    split_ifs with heq hwide hwrapped
    · exact ⟨_, rfl, gridReflowMove_ok h hget⟩
    · refine gridReflowSplit_ok h hsx hget hhit fun hflag => ?_
      rw [hsound.widths_unflagged hflag, List.sum_replicate, Nat.smul_one_eq_cast,
        Nat.cast_id] at hwide
      exact ⟨hcut hflag hwide, hwide⟩
    · exact gridReflowJoin_ok h hget hwrapped sx _
    · exact ⟨_, rfl, gridReflowMove_ok h hget⟩

/-! ### All lines -/

theorem reflowLines_ok {sx : Nat} (hsx : 0 < sx) (n yy : Nat) {st : Reflow} (h : st.Sound)
    (hn : yy + n ≤ st.gd.linedata.length) :
    ∃ st', reflowLines sx n yy st = .ok st' ∧ st'.Sound ∧ st.table.Grows st'.table ∧
      TargetKept st.target.linedata.length st.target st'.target ∧ SameSize st.gd st'.gd ∧
      ∀ b, yy + n = b + 1 → 0 < n →
        (∀ gl, st.gd.linedata[b]? = some gl → gl.flags.wrapped = false) →
          SourceKept b st.gd st'.gd := by
  induction n generalizing yy st with
  | zero => exact ⟨st, rfl, h, .refl _, .refl _ _, .refl _, fun _ _ hpos => (nomatch hpos)⟩
  | succ n ih =>
      obtain ⟨mid, hok, hmid⟩ := reflowLine_ok h hsx (by omega : yy < st.gd.linedata.length)
      have hlength : mid.gd.linedata.length = st.gd.linedata.length := by
        rw [hmid.sound.gd.length, h.gd.length, hmid.size.hsize, hmid.size.sy]
      obtain ⟨st', hok', hsound, hgrows, hkept, hsize, hsource⟩ :=
        ih (yy + 1) hmid.sound (by omega)
      refine ⟨st', ?_, hsound, hmid.grows.trans hgrows,
        hmid.kept.trans (hkept.of_le hmid.kept.length), hmid.size.trans hsize,
        fun b hb _ hblock => ?_⟩
      · rw [reflowLines, hok, ok_bind, hok']
      · obtain ⟨hbelow, hunwrapped⟩ := hmid.source b (by omega) hblock
        cases n with
        | zero =>
            obtain rfl := Except.ok.inj hok'
            exact ⟨hbelow, hunwrapped⟩
        | succ n =>
            obtain ⟨hbelow', hunwrapped'⟩ := hsource b (by omega) (Nat.succ_pos n) hunwrapped
            exact ⟨fun k hk => (hbelow' k hk).trans (hbelow k hk), hunwrapped'⟩

theorem reflowLines_add (sx m n yy : Nat) (st : Reflow) :
    reflowLines sx (m + n) yy st = reflowLines sx m yy st >>= reflowLines sx n (yy + m) := by
  induction m generalizing yy st with
  | zero =>
      rw [Nat.zero_add]
      rfl
  | succ m ih =>
      rw [Nat.succ_add, reflowLines, reflowLines, bind_assoc]
      congr 1
      funext st'
      rw [ih, (by omega : yy + 1 + m = yy + (m + 1))]

end Ztmux.Grids
