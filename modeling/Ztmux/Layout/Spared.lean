import Ztmux.Layout.Supply

/-!
What a layout without floating cells gives up, whatever its sizes come to.

`layoutResizeCheck` adds up in 32 bits. Where every cell is in the flow, a unit that is taken
from a cell takes one off what the check says of it, wrapped or not: no cell is waited for that
counts space it does not have. A node hands over along its direction what its children say in all.
-/

namespace Ztmux.Layout

open RoundRobin LayoutCell

variable {w : WindowOptions} {type : LayoutType}

/-- Whether `k` units can be taken from a cell with no floating cell below it. A leaf is never
asked whether it has them. -/
inductive Spares (w : WindowOptions) (type : LayoutType) (k : Nat) : Edge → LayoutCell → Prop
  | windowpane {e : Edge} {floating : Bool} {wp : Option Nat} {g : Geometry} :
      Spares w type k e (.windowpane floating wp g)
  | across {e : Edge} {t : LayoutType} {g : Geometry} {cells : List LayoutCell} : t ≠ type →
      (∀ p ∈ withEdges e t cells, Spares w type k p.1 p.2) → Spares w type k e (.node t g cells)
  | along {e : Edge} {g : Geometry} {cells : List LayoutCell} :
      k ≤ ((withEdges e type cells).map fun p => (available w type p).toNat).sum →
        Spares w type k e (.node type g cells)

/-! ### One unit -/

/-- A unit is handed over, and the check says one less. -/
def Yields (w : WindowOptions) (type : LayoutType) (p : Edge × LayoutCell) : Prop :=
  ∃ c', adjustUnit w false type p.1 p.2 = some c' ∧
    (available w type (p.1, c')).toNat + 1 = (available w type p).toNat

theorem yields_windowpane {e : Edge} {wp : Option Nat} {g : Geometry}
    (h : 0 < available w type (e, .windowpane false wp g)) :
    Yields w type (e, .windowpane false wp g) := by
  have hpos : 0 < (layoutResizeCheck w e (.windowpane false wp g) type).toNat :=
    UInt32.lt_iff_toNat_lt.mp h
  have hlt := (g.size type).toNat_lt
  rw [layoutResizeCheck_windowpane] at hpos
  have hsize : (((g.addSize type (-1)).size type).toNat : Int) = (g.size type).toNat + -1 := by
    rw [Geometry.size_addSize]
    exact toNat_addSize (by omega) (by omega)
  refine ⟨.windowpane false wp (g.addSize type (signed false 1)), by rw [adjustUnit], ?_⟩
  change (layoutResizeCheck w e _ type).toNat + 1 = (layoutResizeCheck w e _ type).toNat
  rw [layoutResizeCheck_windowpane, layoutResizeCheck_windowpane, signed_false, Nat.cast_one]
  omega

/-- All children hand over a unit. -/
theorem unitAll_yields {es : List Edge} {cs : List LayoutCell} (hflow : ∀ c ∈ cs, inFlow c)
    (h : ∀ p ∈ es.zip cs, Yields w type p) :
    ∃ cs', unitAll w false type es cs = some cs' ∧ ∀ x,
      (∀ p ∈ es.zip cs', x ≤ (available w type p).toNat) ↔
        ∀ p ∈ es.zip cs, x + 1 ≤ (available w type p).toNat := by
  induction es generalizing cs with
  | nil => exact ⟨[], by cases cs <;> rfl, by simp⟩
  | cons e es ih =>
      cases cs with
      | nil => exact ⟨[], rfl, by simp⟩
      | cons c cs =>
          rw [List.zip_cons_cons, List.forall_mem_cons] at h
          obtain ⟨c', hc, hless⟩ := h.1
          obtain ⟨cs', hcs, hall⟩ := ih (fun c hc => hflow c (List.mem_cons_of_mem _ hc)) h.2
          refine ⟨c' :: cs', ?_, fun x => ?_⟩
          · rw [unitAll, if_pos (hflow c List.mem_cons_self), hc, hcs]
            rfl
          · rw [List.zip_cons_cons, List.zip_cons_cons, List.forall_mem_cons, List.forall_mem_cons,
              hall x, ← hless, Nat.add_le_add_iff_right]

/-- The first child that has a unit hands it over. -/
theorem unitFirst_yields {es : List Edge} {cs : List LayoutCell} (hflow : ∀ c ∈ cs, inFlow c)
    (hunit : ∀ p ∈ es.zip cs, 0 < available w type p → Yields w type p)
    (h : ∃ p ∈ es.zip cs, 0 < available w type p) :
    ∃ cs', unitFirst w false type es cs = some cs' ∧
      ((es.zip cs').map fun p => (available w type p).toNat).sum + 1 =
        ((es.zip cs).map fun p => (available w type p).toNat).sum := by
  induction es generalizing cs with
  | nil => simp at h
  | cons e es ih =>
      cases cs with
      | nil => simp at h
      | cons c cs =>
          rw [List.zip_cons_cons, List.forall_mem_cons] at hunit
          have hc : inFlow c := hflow c List.mem_cons_self
          rw [unitFirst]
          by_cases hpos : 0 < available w type (e, c)
          · obtain ⟨c', hu, hless⟩ := hunit.1 hpos
            refine ⟨c' :: cs, ?_, ?_⟩
            · rw [if_pos (by simp [takes, hc, hpos]), hu]
              rfl
            · simp only [List.zip_cons_cons, List.map_cons, List.sum_cons, ← hless]
              omega
          · rw [List.zip_cons_cons, List.exists_mem_cons_iff] at h
            obtain ⟨cs', hcs, hless⟩ := ih (fun c hc => hflow c (List.mem_cons_of_mem _ hc)) hunit.2
              (h.resolve_left hpos)
            refine ⟨c :: cs', ?_, ?_⟩
            · rw [if_neg (by simp [takes, hpos]), hcs]
              rfl
            · simp only [List.zip_cons_cons, List.map_cons, List.sum_cons, ← hless]
              omega

theorem Solid.forall_inFlow {cells : List LayoutCell} (h : ∀ c ∈ cells, Solid c) :
    ∀ c ∈ cells, Layout.inFlow c := fun c hc => (h c hc).inFlow

/-- A cell of which the check says that it has space hands over a unit. -/
theorem Solid.yields {c : LayoutCell} (h : Solid c) (e : Edge)
    (hpos : 0 < available w type (e, c)) :
    Yields w type (e, c) := by
  induction c generalizing e with
  | windowpane floating wp g =>
      cases h
      exact yields_windowpane hpos
  | node t g cells ih =>
      have hflow := h.inFlow
      rw [inFlow_node] at hflow
      cases h with
      | node hne hsolid =>
          have hchild : ∀ p ∈ withEdges e t cells, 0 < available w type p → Yields w type p :=
            fun p hp => ih p.2 (mem_of_mem_withEdges hp) (hsolid _ (mem_of_mem_withEdges hp)) p.1
          have hresized : ∀ {c'}, adjustUnit w false type e (.node t g cells) = some c' →
              Resized type (.node t g cells) c' := fun hu =>
            adjustBy_resized (by rwa [inFlow_node]) (adjustUnit_eq e _ ▸ hu)
          by_cases ht : t = type
          · -- The sum is that of the children modulo 2 ^ 32, and it is not 0.
            subst ht
            have hsum : ∀ g cs, (available w t (e, .node t g cs)).toNat =
                ((withEdges e t cs).map fun p => (available w t p).toNat).sum % 2 ^ 32 := by
              intro g cs
              rw [available, layoutResizeCheck_along, toNat_sum, List.map_map]
              rfl
            have hmod : 0 < (available w t (e, .node t g cells)).toNat :=
              UInt32.lt_iff_toNat_lt.mp hpos
            have hex : ∃ p ∈ withEdges e t cells, 0 < available w t p := by
              by_contra hnone
              push Not at hnone
              rw [hsum, List.map_congr_left (g := fun _ => 0) fun p hp => ?_] at hmod
              · simp at hmod
              · simpa [UInt32.le_iff_toNat_le] using hnone p hp
            obtain ⟨cs', hu, hless⟩ := unitFirst_yields (Solid.forall_inFlow hsolid) hchild hex
            have hunit : adjustUnit w false t e (.node t g cells) =
                some (.node t (g.addSize t (signed false 1)) cs') := by
              rw [adjustUnit, if_neg (by simp), anyInFlow_eq_any, hflow, if_neg (by simp), hu]
              rfl
            refine ⟨_, hunit, ?_⟩
            rw [hsum] at hmod
            rw [hsum, hsum, withEdges, children_eq (hresized hunit).cells]
            rw [withEdges] at hmod ⊢
            omega
          · have hle : ∀ g cs x, x < 2 ^ 32 → (x ≤ (available w type (e, .node t g cs)).toNat ↔
                ∀ p ∈ withEdges e t cs, x ≤ (available w type p).toNat) :=
              fun g cs x hx => le_layoutResizeCheck_across ht hx
            have hall : ∀ p ∈ withEdges e t cells, Yields w type p := fun p hp =>
              hchild p hp (UInt32.lt_iff_toNat_lt.mpr
                ((hle g cells 1 (by omega)).mp (UInt32.lt_iff_toNat_lt.mp hpos) p hp))
            obtain ⟨cs', hu, hless⟩ := unitAll_yields (Solid.forall_inFlow hsolid) hall
            have hunit : adjustUnit w false type e (.node t g cells) =
                some (.node t (g.addSize type (signed false 1)) cs') := by
              rw [adjustUnit, if_pos ht, hu]
              rfl
            refine ⟨_, hunit, ?_⟩
            have hedges : withEdges e t cs' = (e.children t cells).zip cs' := by
              rw [withEdges, children_eq (hresized hunit).cells]
            have hlt :=
              (available w type (e, .node t (g.addSize type (signed false 1)) cs')).toNat_lt
            have hlt' := (available w type (e, .node t g cells)).toNat_lt
            have hpos' := UInt32.lt_iff_toNat_lt.mp hpos
            rw [UInt32.toNat_zero] at hpos'
            have hrest := (hle _ cs' _ hlt).mp le_rfl
            rw [hedges, hless] at hrest
            obtain ⟨c, hc⟩ := List.exists_mem_of_ne_nil cells hne
            obtain ⟨p, hp, -⟩ := exists_mem_withEdges (e := e) (t := t) hc
            have hfit := (hrest p hp).trans_lt (UInt32.toNat_lt _)
            have hle' :
                (available w type (e, .node t (g.addSize type (signed false 1)) cs')).toNat + 1 ≤
                (available w type (e, .node t g cells)).toNat := (hle g cells _ hfit).mpr hrest
            refine le_antisymm hle' ?_
            have hbefore := (hle g cells _ hlt').mp le_rfl
            have hafter := (hle (g.addSize type (signed false 1)) cs'
              ((available w type (e, .node t g cells)).toNat - 1) (by omega)).mpr (by
                rw [hedges, hless, Nat.sub_add_cancel hpos']
                exact hbefore)
            exact Nat.sub_le_iff_le_add.mp hafter

/-! ### Any number of units -/

/-- The children are suppliers that are never stuck. -/
theorem reply_metered_solid : Metered (reply w false type) (fun p => Solid p.2)
    (fun p => (available w type p).toNat) (fun _ => False) where
  pass := by
    intro p hsolid hreply
    refine ⟨?_, not_false⟩
    by_contra hne
    have hpos : 0 < available w type p := UInt32.lt_iff_toNat_lt.mpr (Nat.pos_of_ne_zero hne)
    obtain ⟨c', hu, -⟩ := hsolid.yields p.1 hpos
    rw [reply_took (by simp [takes, hsolid.inFlow, hpos]) hu] at hreply
    cases hreply
  took := by
    intro p q hsolid hreply
    obtain ⟨ht, hq, he⟩ := reply_eq_took.mp hreply
    have hpos : 0 < available w type p := by simpa [takes, hsolid.inFlow] using ht
    obtain ⟨c', hu, hless⟩ := hsolid.yields p.1 hpos
    rw [adjustUnit_eq, hq] at hu
    obtain rfl := Option.some.inj hu
    obtain ⟨e, c⟩ := p
    obtain rfl : q.1 = e := he
    exact ⟨hsolid.resized (adjustBy_resized hsolid.inFlow hq), hless.symm, Iff.rfl⟩
  stuck := by
    intro p hsolid hreply
    by_cases ht : takes w false type p
    · have hpos : 0 < available w type p := by simpa [takes, hsolid.inFlow] using ht
      obtain ⟨c', hu, -⟩ := hsolid.yields p.1 hpos
      rw [reply_took ht hu] at hreply
      cases hreply
    · rw [reply_pass (by simpa using ht)] at hreply
      cases hreply

/-- Taking `k` units has a result exactly when they can be spared. -/
theorem Solid.adjustBy_isSome_iff {k : Nat} {e : Edge} {c : LayoutCell} (h : Solid c) :
    (adjustBy w false type k e c).isSome ↔ Spares w type k e c := by
  induction c generalizing e with
  | windowpane floating wp g => exact ⟨fun _ => .windowpane, fun _ => rfl⟩
  | node t g cells ih =>
      have hany := h.inFlow
      rw [inFlow_node] at hany
      cases h with
      | node hne hsolid =>
          have hmem : ∀ p ∈ withEdges e t cells, Solid p.2 := fun p hp =>
            hsolid _ (mem_of_mem_withEdges hp)
          by_cases ht : t = type
          · subst ht
            rw [adjustBy, if_neg (by simp), anyInFlow_eq_any, hany, if_neg (by simp),
              Option.isSome_map, deal_isSome_iff reply_metered_solid hmem, Served]
            constructor
            · intro h
              exact .along h.1
            · intro h
              cases h with
              | across hne => exact absurd rfl hne
              | along h => exact ⟨h, fun _ _ _ _ h => h.elim⟩
          · rw [adjustBy, if_pos ht, Option.isSome_map, byAll_isSome_iff, ← withEdges]
            constructor
            · intro h
              exact .across ht fun p hp =>
                (ih p.2 (mem_of_mem_withEdges hp) (hmem p hp)).mp (h p hp (hmem p hp).inFlow)
            · intro h p hp _
              cases h with
              | across _ h => exact (ih p.2 (mem_of_mem_withEdges hp) (hmem p hp)).mpr (h p hp)
              | along => exact absurd rfl ht

end Ztmux.Layout
