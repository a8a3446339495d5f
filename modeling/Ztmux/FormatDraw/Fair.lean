import Ztmux.FormatDraw.Arrange

/-!
Where the sections of a format end up. Trimming keeps the last sections of its
order first, and the columns of a copy are a set of numbers. From these follow
where each arrangement puts its sections, and what the centred ones need for it.
-/

namespace Ztmux.FormatDraw

/-! ### Trimming -/

def natTotal (order : List Section) (width : Widths) : Nat :=
  (order.map fun part => (width part).toNat).sum

/-- What a section has after the trim: what the later ones of the order leave. -/
def Trimmed (available : UInt32) (width trimmed : Widths) : List Section → Prop
  | [] => True
  | part :: rest =>
      (trimmed part).toNat = min (width part).toNat (available.toNat - natTotal rest width) ∧
        Trimmed available width trimmed rest

@[simp] theorem natTotal_nil (width : Widths) : natTotal [] width = 0 := rfl

@[simp] theorem natTotal_cons (part : Section) (rest : List Section) (width : Widths) :
    natTotal (part :: rest) width = (width part).toNat + natTotal rest width := rfl

@[simp] theorem set_self (width : Widths) (part : Section) (n : UInt32) :
    width.set part n part = n := if_pos rfl

theorem set_of_ne (width : Widths) {part other : Section} (n : UInt32) (h : other ≠ part) :
    width.set part n other = width other := if_neg h

theorem natTotal_congr {order : List Section} {width width' : Widths}
    (h : ∀ part ∈ order, width' part = width part) :
    natTotal order width' = natTotal order width := by
  rw [natTotal, natTotal]
  congr 1
  exact List.map_congr_left fun part hpart => by rw [h part hpart]

theorem natTotal_set_of_notMem {order : List Section} {part : Section} (width : Widths)
    (n : UInt32) (h : part ∉ order) : natTotal order (width.set part n) = natTotal order width :=
  natTotal_congr fun _ hother => set_of_ne width n (ne_of_mem_of_not_mem hother h)

theorem toNat_total (order : List Section) (width : Widths) :
    (total order width).toNat = natTotal order width % 2 ^ 32 := by
  rw [total, toNat_sum, List.map_map]
  rfl

/-- A trim of sections that fit leaves all of them as they are. -/
theorem trimmed_of_le {available : UInt32} {order : List Section} {width : Widths}
    (h : natTotal order width ≤ available.toNat) : Trimmed available width width order := by
  induction order with
  | nil => exact trivial
  | cons part rest ih =>
      rw [natTotal_cons] at h
      refine ⟨?_, ih (by omega)⟩
      omega

theorem Trimmed.le {available : UInt32} {order : List Section} {width trimmed : Widths}
    (h : Trimmed available width trimmed order) :
    ∀ part ∈ order, (trimmed part).toNat ≤ (width part).toNat := by
  induction order with
  | nil => simp
  | cons part rest ih =>
      obtain ⟨hfirst, hlater⟩ := h
      rw [List.forall_mem_cons]
      exact ⟨hfirst.trans_le (min_le_left _ _), ih hlater⟩

theorem Trimmed.natTotal_le {available : UInt32} {order : List Section} {width trimmed : Widths}
    (h : Trimmed available width trimmed order) :
    natTotal order trimmed ≤ min (natTotal order width) available.toNat := by
  induction order with
  | nil => simp
  | cons part rest ih =>
      obtain ⟨hfirst, hlater⟩ := h
      have hrest := ih hlater
      rw [natTotal_cons, natTotal_cons, hfirst]
      omega

/-- One turn takes a column off, out of a section that had one. -/
theorem trimOne_run {available : UInt32} {order : List Section} {width : Widths}
    (hnodup : order.Nodup) (hover : available.toNat < natTotal order width) (canvas : Canvas) :
    ∃ width', trimOne order width canvas = (width', canvas) ∧
      natTotal order width' + 1 = natTotal order width ∧
      (∀ trimmed, Trimmed available width' trimmed order →
        Trimmed available width trimmed order) ∧
      ∀ part, part ∉ order → width' part = width part := by
  induction order with
  | nil => simp at hover
  | cons part rest ih =>
      have hnotMem : part ∉ rest := (List.nodup_cons.mp hnodup).1
      by_cases hpos : 0 < width part
      · -- The turn is spent on `part`, and the sections after it keep what they have.
        have hposNat : 0 < (width part).toNat := UInt32.lt_iff_toNat_lt.mp hpos
        have hle : 1 ≤ width part := UInt32.le_iff_toNat_le.mpr hposNat
        have hsub : (width part - 1).toNat = (width part).toNat - 1 :=
          UInt32.toNat_sub_of_le _ _ hle
        have hrest := natTotal_set_of_notMem width (width part - 1) hnotMem
        have hwrapped : decide (width part < 1) = false :=
          decide_eq_false (UInt32.not_lt.mpr hle)
        refine ⟨width.set part (width part - 1), ?_, ?_, ?_, ?_⟩
        · have hrun : ((minus (width part) 1 >>= fun n => pure (width.set part n)) : Draw Widths)
              canvas = (width.set part (width part - 1), canvas) := by
            rw [minus_bind, pure_run, hwrapped, Bool.or_false]
          cases rest with
          | nil => exact hrun
          | cons other rest =>
              rw [trimOne.eq_def]
              simp only [hpos, if_true]
              exact hrun
        · rw [natTotal_cons, natTotal_cons, hrest, set_self, hsub]
          omega
        · rintro trimmed ⟨hfirst, hlater⟩
          rw [hrest, set_self, hsub] at hfirst
          rw [natTotal_cons] at hover
          refine ⟨by omega, ?_⟩
          have hsame : ∀ order : List Section, part ∉ order →
              Trimmed available (width.set part (width part - 1)) trimmed order →
              Trimmed available width trimmed order := by
            intro order
            induction order with
            | nil => exact fun _ _ => trivial
            | cons other order ihOrder =>
                rintro hmem ⟨hother, hlater⟩
                rw [List.mem_cons, not_or] at hmem
                rw [natTotal_set_of_notMem _ _ hmem.2, set_of_ne _ _ (Ne.symm hmem.1)] at hother
                exact ⟨hother, ihOrder hmem.2 hlater⟩
          exact hsame rest hnotMem hlater
        · intro other hother
          exact set_of_ne _ _ fun heq => hother (by rw [heq]; exact List.mem_cons_self)
      · have hzero : (width part).toNat = 0 := by
          have := mt UInt32.lt_iff_toNat_lt.mpr hpos
          simpa using this
        rw [natTotal_cons, hzero, Nat.zero_add] at hover
        obtain ⟨width', hrun, htotal, htrimmed, houtside⟩ :=
          ih (List.nodup_cons.mp hnodup).2 hover
        refine ⟨width', ?_, ?_, ?_, ?_⟩
        · cases rest with
          | nil => simp at hover
          | cons other rest =>
              rw [trimOne.eq_def]
              simp only [hpos, if_false]
              exact hrun
        · rw [natTotal_cons, natTotal_cons, houtside part hnotMem]
          omega
        · rintro trimmed ⟨hfirst, hlater⟩
          rw [houtside part hnotMem, hzero] at hfirst
          refine ⟨?_, htrimmed trimmed hlater⟩
          rw [hzero, hfirst]
          simp
        · exact fun other hother => houtside other fun hmem => hother (List.mem_cons_of_mem _ hmem)

theorem trimTurns_run {available : UInt32} {order : List Section} (hnodup : order.Nodup)
    (turns : Nat) (width : Widths) (hturns : natTotal order width ≤ turns)
    (hfits : natTotal order width < 2 ^ 32) (canvas : Canvas) :
    ∃ width', trimTurns available order turns width canvas = (width', canvas) ∧
      Trimmed available width width' order ∧ ∀ part, part ∉ order → width' part = width part := by
  induction turns generalizing width with
  | zero => exact ⟨width, rfl, trimmed_of_le (by omega), fun _ _ => rfl⟩
  | succ turns ih =>
      have htotal := toNat_total order width
      rw [Nat.mod_eq_of_lt hfits] at htotal
      by_cases hover : available < total order width
      · have hoverNat := UInt32.lt_iff_toNat_lt.mp hover
        rw [htotal] at hoverNat
        obtain ⟨width₁, hone, hless, htrimmed, houtside⟩ := trimOne_run hnodup hoverNat canvas
        obtain ⟨width₂, hrun, htrimmed₂, houtside₂⟩ := ih width₁ (by omega) (by omega)
        refine ⟨width₂, ?_, htrimmed width₂ htrimmed₂, ?_⟩
        · rw [trimTurns, if_pos hover]
          change (let (a, s) := trimOne order width canvas
            trimTurns available order turns a s) = _
          rw [hone]
          exact hrun
        · exact fun part hpart => (houtside₂ part hpart).trans (houtside part hpart)
      · refine ⟨width, ?_, trimmed_of_le ?_, fun _ _ => rfl⟩
        · rw [trimTurns, if_neg hover]
          rfl
        · rw [← htotal]
          exact UInt32.le_iff_toNat_le.mp (UInt32.not_lt.mp hover)

/-- The trimming loop of an arrangement ends, takes nothing off an empty section,
and leaves what `Trimmed` says. -/
theorem trim_run (available : UInt32) {order : List Section} (hnodup : order.Nodup)
    {width : Widths} (hfits : natTotal order width < 2 ^ 32) (canvas : Canvas) :
    ∃ width', trim available order width canvas = (width', canvas) ∧
      Trimmed available width width' order ∧ ∀ part, part ∉ order → width' part = width part := by
  apply trimTurns_run hnodup _ width _ hfits
  rw [toNat_total, Nat.mod_eq_of_lt hfits]

/-! ### Columns -/

/-- The columns of the target a copy covers. -/
def Put.columns (put : Put) : Finset Nat :=
  Finset.Ico put.offset.toNat (put.offset.toNat + put.width.toNat)

/-- No subtraction wrapped, every copy lies in the columns of the line, and the
sections of a group keep out of each other. -/
structure Fair (available : UInt32) (groups : List (List Section)) (canvas : Canvas) : Prop where
  exact : canvas.wrapped = false
  inside : ∀ put ∈ canvas.puts, put.columns ⊆ Finset.range available.toNat
  apart : ∀ group ∈ groups, canvas.puts.Pairwise fun a b =>
    a.part ∈ group → b.part ∈ group → Disjoint a.columns b.columns

theorem Fair.of_subset {available : UInt32} {groups groups' : List (List Section)}
    {canvas : Canvas} (h : Fair available groups canvas)
    (hsubset : ∀ group ∈ groups', ∃ wider ∈ groups, group ⊆ wider) :
    Fair available groups' canvas := by
  refine ⟨h.exact, h.inside, fun group hgroup => ?_⟩
  obtain ⟨wider, hwider, hsub⟩ := hsubset group hgroup
  exact (h.apart wider hwider).imp fun hapart ha hb => hapart (hsub ha) (hsub hb)

/-- Where the sections lie: `low` and `high` bound the columns of each. -/
structure Placed (puts : List Put) (low high : Section → Nat) : Prop where
  nodup : (puts.map Put.part).Nodup
  within : ∀ put ∈ puts, low put.part ≤ put.offset.toNat ∧
    put.offset.toNat + put.width.toNat ≤ high put.part

theorem sides_of_row {row : List Section} {low high : Section → Nat}
    (hrow : row.Pairwise fun a b => high a ≤ low b) {a b : Section} (ha : a ∈ row) (hb : b ∈ row)
    (hne : a ≠ b) : high a ≤ low b ∨ high b ≤ low a := by
  induction row with
  | nil => cases ha
  | cons part row ih =>
      rw [List.pairwise_cons] at hrow
      rcases List.mem_cons.mp ha with rfl | haRow
      · exact .inl (hrow.1 b ((List.mem_cons.mp hb).resolve_left hne.symm))
      · rcases List.mem_cons.mp hb with rfl | hbRow
        · exact .inr (hrow.1 a haRow)
        · exact ih hrow.2 haRow hbRow

/-- Sections whose bounds are inside the line and apart are drawn fairly. -/
theorem fair_of_placed {available : UInt32} {groups : List (List Section)} {canvas : Canvas}
    {low high : Section → Nat} (h : Placed canvas.puts low high)
    (hexact : canvas.wrapped = false) (hinside : ∀ part, high part ≤ available.toNat)
    (hapart : ∀ group ∈ groups, ∃ row : List Section, group ⊆ row ∧
      row.Pairwise fun a b => high a ≤ low b) : Fair available groups canvas := by
  refine ⟨hexact, fun put hput => ?_, fun group hgroup => ?_⟩
  · have hbound := h.within put hput
    have hend := hinside put.part
    intro column hcolumn
    rw [Put.columns, Finset.mem_Ico] at hcolumn
    exact Finset.mem_range.mpr (by omega)
  · have hnodup := List.pairwise_map.mp h.nodup
    apply List.Pairwise.imp_of_mem _ hnodup
    intro a b ha hb hne hgroupA hgroupB
    have hwithinA := h.within a ha
    have hwithinB := h.within b hb
    rw [Finset.disjoint_left]
    intro column hcolumnA hcolumnB
    rw [Put.columns, Finset.mem_Ico] at hcolumnA hcolumnB
    obtain ⟨row, hsubset, hrow⟩ := hapart group hgroup
    have hsides := sides_of_row hrow (hsubset hgroupA) (hsubset hgroupB) hne
    omega

/-- A canvas with more copies, and maybe a subtraction that wrapped. -/
def Canvas.add (canvas : Canvas) (puts : List Put) (wraps : Bool) : Canvas :=
  ⟨canvas.puts ++ puts, canvas.wrapped || wraps⟩

@[simp] theorem Canvas.add_add (canvas : Canvas) (puts puts' : List Put) (wraps wraps' : Bool) :
    (canvas.add puts wraps).add puts' wraps' = canvas.add (puts ++ puts') (wraps || wraps') := by
  rw [Canvas.add, Canvas.add, Canvas.add, List.append_assoc, Bool.or_assoc]

@[simp] theorem Canvas.blank_add (puts : List Put) (wraps : Bool) :
    Canvas.blank.add puts wraps = ⟨puts, wraps⟩ := by
  rw [Canvas.add, Canvas.blank, List.nil_append, Bool.false_or]

theorem run_bind {α β : Type} {x : Draw α} {f : α → Draw β} {canvas canvas' : Canvas} {a : α}
    (h : x canvas = (a, canvas')) : (x >>= f) canvas = f a canvas' := by
  change (let (a, s) := x canvas; f a s) = _
  rw [h]

theorem put_run (part : Section) (offset start width : UInt32) (canvas : Canvas) :
    formatDrawPut part offset start width canvas =
      ((), canvas.add [⟨part, offset, start, width⟩] false) := by
  rw [formatDrawPut_run, Canvas.add, Bool.or_false]

theorem minus_run {a b : UInt32} (h : b.toNat ≤ a.toNat) (canvas : Canvas) :
    minus a b canvas = (a - b, canvas) := by
  have hlt : decide (a < b) = false :=
    decide_eq_false (UInt32.not_lt.mpr (UInt32.le_iff_toNat_le.mpr h))
  change (a - b, (⟨canvas.puts, canvas.wrapped || decide (a < b)⟩ : Canvas)) = _
  rw [hlt, Bool.or_false]

theorem minus_run_add (a b : UInt32) (canvas : Canvas) :
    minus a b canvas = (a - b, canvas.add [] (decide (b.toNat > a.toNat))) := by
  change (a - b, (⟨canvas.puts, canvas.wrapped || decide (a < b)⟩ : Canvas)) = _
  rw [Canvas.add, List.append_nil]
  simp only [UInt32.lt_iff_toNat_lt, gt_iff_lt]

theorem toNat_minus {a b : UInt32} (h : b.toNat ≤ a.toNat) :
    (a - b).toNat = a.toNat - b.toNat :=
  UInt32.toNat_sub_of_le _ _ (UInt32.le_iff_toNat_le.mpr h)

theorem toNat_plus {a b : UInt32} (h : a.toNat + b.toNat < 2 ^ 32) :
    (a + b).toNat = a.toNat + b.toNat := by
  rw [UInt32.toNat_add, Nat.mod_eq_of_lt h]

theorem toNat_half (a : UInt32) : (a / 2).toNat = a.toNat / 2 := UInt32.toNat_div a 2

/-! ### The parts of an arrangement -/

theorem putRight_run {available : UInt32} {screens : Screens} {width : UInt32}
    (h : width.toNat ≤ available.toNat) (hcx : width.toNat ≤ (screens.cx .right).toNat)
    (canvas : Canvas) : putRight available screens width canvas =
      ((), canvas.add [⟨.right, available - width, screens.cx .right - width, width⟩] false) := by
  rw [putRight, run_bind (minus_run h canvas), run_bind (minus_run hcx canvas), put_run]

theorem putAbsoluteCentre_run (available : UInt32) (screens : Screens) (canvas : Canvas) :
    ∃ put : Put, putAbsoluteCentre available screens canvas = ((), canvas.add [put] false) ∧
      put.part = .absoluteCentre ∧ put.offset.toNat + put.width.toNat ≤ available.toNat := by
  rw [putAbsoluteCentre]
  generalize hwidth : (if available < screens.cx .absoluteCentre then available
      else screens.cx .absoluteCentre) = width
  have hle : width.toNat ≤ available.toNat := by
    rw [← hwidth]
    split_ifs with h
    · exact le_refl _
    · exact UInt32.le_iff_toNat_le.mp (UInt32.not_lt.mp h)
  refine ⟨⟨.absoluteCentre, (available - width) / 2, 0, width⟩, ?_, rfl, ?_⟩
  · rw [run_bind (minus_run hle canvas), put_run]
  · dsimp only
    rw [toNat_half, toNat_minus hle]
    omega

/-- A centre that fits between `low` and `high` stays between them. -/
theorem putHalfway_run {screens : Screens} {low high width : UInt32}
    (hfits : low.toNat + width.toNat ≤ high.toNat)
    (hcx : width.toNat ≤ (screens.cx .centre).toNat) (canvas : Canvas) :
    ∃ put : Put, putHalfway screens low high width canvas = ((), canvas.add [put] false) ∧
      put.part = .centre ∧ low.toNat ≤ put.offset.toNat ∧
      put.offset.toNat + put.width.toNat ≤ high.toNat := by
  have hhigh := high.toNat_lt
  have hgap : ((high - low) / 2).toNat = (high.toNat - low.toNat) / 2 := by
    rw [toNat_half, toNat_minus (by omega)]
  have hmiddle : (low + (high - low) / 2).toNat = low.toNat + (high.toNat - low.toNat) / 2 := by
    rw [toNat_plus (by omega), hgap]
  have hoffset : (width / 2).toNat ≤ (low + (high - low) / 2).toNat := by
    rw [hmiddle, toNat_half]
    omega
  have hstart : (width / 2).toNat ≤ (screens.cx .centre / 2).toNat := by
    rw [toNat_half, toNat_half]
    omega
  refine ⟨⟨.centre, low + (high - low) / 2 - width / 2, screens.cx .centre / 2 - width / 2, width⟩,
    ?_, rfl, ?_⟩
  · rw [putHalfway, run_bind (minus_run (by omega) canvas), run_bind (minus_run hoffset canvas),
      run_bind (minus_run hstart canvas), put_run]
  · dsimp only
    rw [toNat_minus hoffset, hmiddle, toNat_half]
    omega

theorem middleOf_run {available : UInt32} {width : Widths}
    (h : (width .left).toNat + (width .right).toNat ≤ available.toNat) (canvas : Canvas) :
    ∃ middle, middleOf available width canvas = (middle, canvas) ∧ middle.toNat =
      (width .left).toNat +
        (available.toNat - (width .right).toNat - (width .left).toNat) / 2 := by
  have havailable := available.toNat_lt
  have hhigh : (available - width .right).toNat = available.toNat - (width .right).toNat :=
    toNat_minus (by omega)
  have hgap : ((available - width .right - width .left) / 2).toNat =
      (available.toNat - (width .right).toNat - (width .left).toNat) / 2 := by
    rw [toNat_half, toNat_minus (by omega), hhigh]
  refine ⟨width .left + (available - width .right - width .left) / 2, ?_, ?_⟩
  · rw [middleOf, run_bind (minus_run (by omega) canvas), run_bind (minus_run (by omega) canvas),
      pure_run]
  · rw [toNat_plus (by omega), hgap]

/-! ### The list and its markers -/

/-- At most one copy, of `part`, between `low` and `high`. -/
structure Span (part : Section) (puts : List Put) (low high : Nat) : Prop where
  parts : List.Sublist (puts.map Put.part) [part]
  within : ∀ put ∈ puts, low ≤ put.offset.toNat ∧ put.offset.toNat + put.width.toNat ≤ high

theorem span_nil (part : Section) (low high : Nat) : Span part [] low high :=
  ⟨List.nil_sublist _, by simp⟩

theorem span_of_part {part : Section} {put : Put} {low high : Nat} (hpart : put.part = part)
    (hlow : low ≤ put.offset.toNat) (hhigh : put.offset.toNat + put.width.toNat ≤ high) :
    Span part [put] low high := by
  refine ⟨?_, fun other hother => ?_⟩
  · rw [← hpart]
    exact List.Sublist.refl _
  · rw [List.mem_singleton.mp hother]
    exact ⟨hlow, hhigh⟩

theorem span_single {part : Section} {offset start width : UInt32} {low high : Nat}
    (hlow : low ≤ offset.toNat) (hhigh : offset.toNat + width.toNat ≤ high) :
    Span part [⟨part, offset, start, width⟩] low high :=
  span_of_part rfl hlow hhigh

theorem Span.part_eq {part : Section} {puts : List Put} {low high : Nat}
    (h : Span part puts low high) {put : Put} (hput : put ∈ puts) : put.part = part :=
  List.mem_singleton.mp (h.parts.subset (List.mem_map_of_mem hput))

theorem placed_of_spans {low high : Section → Nat} (spans : List (Section × List Put))
    (hspans : ∀ span ∈ spans, Span span.1 span.2 (low span.1) (high span.1))
    (hnodup : (spans.map Prod.fst).Nodup) : Placed (spans.flatMap Prod.snd) low high := by
  refine ⟨?_, fun put hput => ?_⟩
  · have hsublist : List.Sublist ((spans.flatMap Prod.snd).map Put.part) (spans.map Prod.fst) := by
      clear hnodup
      induction spans with
      | nil => exact List.Sublist.refl _
      | cons span spans ih =>
          rw [List.flatMap_cons, List.map_append, List.map_cons]
          exact (hspans span List.mem_cons_self).parts.append
            (ih fun other hother => hspans other (List.mem_cons_of_mem _ hother))
    exact hnodup.sublist hsublist
  · obtain ⟨span, hspan, hmem⟩ := List.mem_flatMap.mp hput
    rw [(hspans span hspan).part_eq hmem]
    exact (hspans span hspan).within put hmem

/-- A drawing of one span a section, whose bounds are inside the line, each row of them in order. -/
theorem fair_of_spans {available : UInt32} {groups : List (List Section)} {canvas : Canvas}
    (low high : Section → Nat) (spans : List (Section × List Put))
    (hcanvas : canvas = ⟨spans.flatMap Prod.snd, false⟩) (hnodup : (spans.map Prod.fst).Nodup)
    (hspans : ∀ span ∈ spans, Span span.1 span.2 (low span.1) (high span.1))
    (hinside : ∀ part, low part ≤ high part ∧ high part ≤ available.toNat)
    (hapart : ∀ group ∈ groups, ∃ row : List Section, group ⊆ row ∧
      row.IsChain fun a b => high a ≤ low b) : Fair available groups canvas := by
  rw [hcanvas]
  refine fair_of_placed (placed_of_spans spans hspans hnodup) rfl (fun part => (hinside part).2)
    fun group hgroup => ?_
  obtain ⟨row, hrow, hchain⟩ := hapart group hgroup
  have htrans : Trans (fun a b => high a ≤ low b) (fun a b => high a ≤ low b)
      (fun a b => high a ≤ low b) := ⟨fun hab hbc => hab.trans ((hinside _).1.trans hbc)⟩
  exact ⟨row, hrow, hchain.pairwise⟩

theorem listStart_run (screens : Screens) (focusStart focusEnd : Int32) {width : UInt32}
    (h : width.toNat ≤ (screens.cx .list).toNat) (canvas : Canvas) :
    ∃ start, listStart screens focusStart focusEnd width canvas = (start, canvas) := by
  rw [listStart]
  split_ifs with hend
  · exact ⟨_, minus_run h canvas⟩
  · exact ⟨_, rfl⟩

theorem putLeftMarker_run (screens : Screens) {offset width : UInt32} (start : UInt32)
    (h : offset.toNat + width.toNat < 2 ^ 32) (canvas : Canvas) :
    ∃ puts offset' start' width',
      putLeftMarker screens offset start width canvas =
        ((offset', start', width'), canvas.add puts false) ∧
      offset.toNat ≤ offset'.toNat ∧
      offset'.toNat + width'.toNat = offset.toNat + width.toNat ∧
      Span .listLeft puts offset.toNat offset'.toNat := by
  rw [putLeftMarker]
  split_ifs with hmarker
  · have hlt := UInt32.lt_iff_toNat_lt.mp hmarker.2
    have hoffset : (offset + screens.cx .listLeft).toNat =
        offset.toNat + (screens.cx .listLeft).toNat := toNat_plus (by omega)
    refine ⟨[⟨.listLeft, offset, 0, screens.cx .listLeft⟩], offset + screens.cx .listLeft,
      start + screens.cx .listLeft, width - screens.cx .listLeft, ?_, ?_, ?_, ?_⟩
    · rw [run_bind (put_run _ _ _ _ _), run_bind (minus_run (by omega) _), pure_run]
    · omega
    · rw [hoffset, toNat_minus (by omega)]
      omega
    · exact span_single (le_refl _) hoffset.ge
  · refine ⟨[], offset, start, width, ?_, le_refl _, rfl, span_nil _ _ _⟩
    rw [pure_run, Canvas.add, List.append_nil, Bool.or_false]

theorem putRightMarker_run (screens : Screens) {offset width : UInt32} (start : UInt32)
    (h : offset.toNat + width.toNat < 2 ^ 32) (canvas : Canvas) :
    ∃ puts width', putRightMarker screens offset start width canvas =
        (width', canvas.add puts false) ∧ width'.toNat ≤ width.toNat ∧
      Span .listRight puts (offset.toNat + width'.toNat) (offset.toNat + width.toNat) := by
  rw [putRightMarker]
  split_ifs with hmarker
  · have hlt := UInt32.lt_iff_toNat_lt.mp hmarker.2
    have hend : (offset + width).toNat = offset.toNat + width.toNat := toNat_plus h
    have hcolumn : (offset + width - screens.cx .listRight).toNat =
        offset.toNat + width.toNat - (screens.cx .listRight).toNat := by
      rw [toNat_minus (by omega), hend]
    have hwidth : (width - screens.cx .listRight).toNat =
        width.toNat - (screens.cx .listRight).toNat := toNat_minus (by omega)
    refine ⟨[⟨.listRight, offset + width - screens.cx .listRight, 0, screens.cx .listRight⟩],
      width - screens.cx .listRight, ?_, by omega, span_single (by omega) (by omega)⟩
    · rw [run_bind (minus_run (by omega) canvas), run_bind (put_run _ _ _ _ _),
        minus_run (by omega)]
  · refine ⟨[], width, ?_, le_refl _, span_nil _ _ _⟩
    rw [pure_run, Canvas.add, List.append_nil, Bool.or_false]

/-- The list and its markers share the columns the arrangement gave the list: the
list keeps those from `low` to `high`. -/
theorem formatDrawPutList_run (screens : Screens) {offset width : UInt32}
    (focusStart focusEnd : Int32) (h : offset.toNat + width.toNat < 2 ^ 32)
    (hcx : width.toNat ≤ (screens.cx .list).toNat) (canvas : Canvas) :
    ∃ leftMarker rightMarker list low high,
      formatDrawPutList screens offset width focusStart focusEnd canvas =
        ((), canvas.add (leftMarker ++ rightMarker ++ list) false) ∧
      Span .listLeft leftMarker offset.toNat low ∧
      Span .listRight rightMarker high (offset.toNat + width.toNat) ∧
      Span .list list low high ∧
      offset.toNat ≤ low ∧ low ≤ high ∧ high ≤ offset.toNat + width.toNat := by
  rw [formatDrawPutList]
  split_ifs with hwhole
  · exact ⟨[], [], _, offset.toNat, offset.toNat + width.toNat, put_run _ _ _ _ _,
      span_nil _ _ _, span_nil _ _ _, span_single (le_refl _) (le_refl _), le_refl _,
      Nat.le_add_right _ _, le_refl _⟩
  · obtain ⟨start, hstart⟩ := listStart_run screens focusStart focusEnd hcx canvas
    obtain ⟨left, offset₁, start₁, width₁, hleft, hle, hsum, hleftSpan⟩ :=
      putLeftMarker_run screens start h canvas
    obtain ⟨right, width₂, hright, hwidth, hrightSpan⟩ :=
      putRightMarker_run screens start₁ (hsum ▸ h) (canvas.add left false)
    refine ⟨left, right, [⟨.list, offset₁, start₁, width₂⟩], offset₁.toNat,
      offset₁.toNat + width₂.toNat, ?_, hleftSpan, hsum ▸ hrightSpan,
      span_single (le_refl _) (le_refl _), hle, by omega, by omega⟩
    rw [run_bind hstart, run_bind hleft]
    dsimp only
    rw [run_bind hright, put_run, Canvas.add_add, Canvas.add_add, List.append_assoc]
    rfl

end Ztmux.FormatDraw
