import Ztmux.Layout.Adjust

/-!
The tiled flow of a layout.

The cells that take part in the flow fill the node they are in: across its
direction each has the node's size, and along it their sizes and the borders between
them add up to the node's. Adjusting a cell keeps that as long as the change fits.
-/

namespace Ztmux.Layout

open LayoutCell RoundRobin

/-- What the cells in the flow take up along `type`, each with a border. -/
def extent (type : LayoutType) (cells : List LayoutCell) : Nat :=
  (cells.map fun c => if inFlow c then (c.size type).toNat + 1 else 0).sum

/-- The cells in the flow fill a node of type `t`. -/
structure Fills (t : LayoutType) (g : Geometry) (cells : List LayoutCell) : Prop where
  across : ∀ c ∈ cells, inFlow c → c.size t.across = g.size t.across
  along : extent t cells = (g.size t).toNat + 1

/-- Every node is filled, and no tiled leaf is smaller than `m`. -/
inductive FlowExact (m : Nat) : LayoutCell → Prop
  | windowpane {floating : Bool} {wp : Option Nat} {g : Geometry} :
      (floating = false → ∀ type, m ≤ (g.size type).toNat) →
        FlowExact m (.windowpane floating wp g)
  | node {t : LayoutType} {g : Geometry} {cells : List LayoutCell} :
      (∀ c ∈ cells, FlowExact m c) → (cells.any inFlow → Fills t g cells) →
        FlowExact m (.node t g cells)

variable {w : WindowOptions} {grow : Bool} {type : LayoutType} {m : Nat}

theorem Resized.size_across {c c' : LayoutCell} (h : Resized type c c') :
    c'.size type.across = c.size type.across := by
  cases h with
  | outside => rfl
  | windowpane wp g change => simp
  | node t g change => simp

@[simp] theorem extent_cons (c : LayoutCell) (cells : List LayoutCell) :
    extent type (c :: cells) =
      (if inFlow c then (c.size type).toNat + 1 else 0) + extent type cells := by
  simp [extent]

theorem extent_append (cells cells' : List LayoutCell) :
    extent type (cells ++ cells') = extent type cells + extent type cells' := by
  simp [extent]

theorem size_lt_extent {c : LayoutCell} {cells : List LayoutCell} (h : c ∈ cells)
    (hf : inFlow c) : (c.size type).toNat < extent type cells := by
  induction cells with
  | nil => cases h
  | cons x xs ih =>
      rw [extent_cons]
      rcases List.mem_cons.mp h with rfl | h
      · rw [if_pos hf]
        omega
      · have := ih h
        omega

/-- Whether a change by `k` units fits a cell. -/
def Fits (w : WindowOptions) (grow : Bool) (type : LayoutType) (k : Nat) (e : Edge)
    (c : LayoutCell) : Prop :=
  if grow then (c.size type).toNat + k < 2 ^ 32
  else k ≤ (layoutResizeCheck w e c type).toNat

theorem fits_windowpane {k : Nat} {e : Edge} {wp : Option Nat} {g : Geometry}
    (h : Fits w grow type k e (.windowpane false wp g)) :
    (((g.addSize type (signed grow k)).size type).toNat : Int) =
      (g.size type).toNat + signed grow k := by
  rw [Geometry.size_addSize]
  cases grow with
  | true =>
      rw [Fits, if_pos rfl, size_windowpane] at h
      rw [signed_true]
      exact toNat_addSize (by omega) (by omega)
  | false =>
      rw [Fits, if_neg (by simp), layoutResizeCheck_windowpane] at h
      have := (g.size type).toNat_lt
      rw [signed_false]
      exact toNat_addSize (by omega) (by omega)

theorem flowExact_windowpane (hm : grow = false → ∀ e, m ≤ (leafMinimum w e type).toNat)
    {k : Nat} {e : Edge} {wp : Option Nat} {g : Geometry}
    (hc : FlowExact m (.windowpane false wp g))
    (hfits : Fits w grow type k e (.windowpane false wp g)) :
    FlowExact m (.windowpane false wp (g.addSize type (signed grow k))) := by
  have hsize := fits_windowpane hfits
  cases hc with
  | windowpane hmin =>
      refine .windowpane fun _ type' => ?_
      have hold := hmin rfl type'
      by_cases ht : type' = type
      · subst ht
        cases grow with
        | true =>
            rw [signed_true] at *
            omega
        | false =>
            rw [Fits, if_neg (by simp), layoutResizeCheck_windowpane] at hfits
            have := hm rfl e
            rw [signed_false] at *
            omega
      · obtain rfl := LayoutType.eq_across_of_ne ht
        rwa [Geometry.size_addSize_across]

/-- A node whose children in the flow all changed by `change` across its direction. -/
theorem flowExact_across {t : LayoutType} {g : Geometry} {cells cells' : List LayoutCell}
    {change : Int} (hF : Fills t g cells) (hany : cells.any inFlow)
    (h : List.Forall₂ (fun c c' => Resized t.across c c' ∧ FlowExact m c' ∧ (inFlow c →
      ((c'.size t.across).toNat : Int) = (g.size t.across).toNat + change)) cells cells') :
    FlowExact m (.node t (g.addSize t.across change) cells') ∧
      (((g.addSize t.across change).size t.across).toNat : Int) =
        (g.size t.across).toNat + change := by
  have hsize : (((g.addSize t.across change).size t.across).toNat : Int) =
      (g.size t.across).toNat + change := by
    obtain ⟨c, hc, hcf⟩ := List.any_eq_true.mp hany
    obtain ⟨c', -, -, -, hcc⟩ := Lists.exists_of_mem_left h hc
    have hlt := (c'.size t.across).toNat_lt
    rw [Geometry.size_addSize]
    exact toNat_addSize (by have := hcc hcf; omega) (by have := hcc hcf; omega)
  refine ⟨.node (fun c' hc' => ?_) fun _ => ⟨fun c' hc' hf => ?_, ?_⟩, hsize⟩
  · obtain ⟨c, -, -, hexact, -⟩ := Lists.exists_of_mem_right h hc'
    exact hexact
  · obtain ⟨c, -, hR, -, hcc⟩ := Lists.exists_of_mem_right h hc'
    have := hcc (by rwa [← hR.inFlow])
    exact UInt32.toNat.inj (by omega)
  · have hmap := Lists.map_eq_of_forall₂ h (f := fun c => if inFlow c then
        (c.size t).toNat + 1 else 0) (g := fun c => if inFlow c then (c.size t).toNat + 1 else 0)
      fun c _ c' ⟨hR, _⟩ => by rw [hR.inFlow, ← LayoutType.across_across t, hR.size_across]
    rw [extent, hmap, Geometry.size_addSize_across, ← hF.along, extent]

/-- A node of type `type` after `k` units were dealt to its children, with what every unit
keeps of a child. -/
theorem flowExact_along_forall₂ {e : Edge} {g : Geometry} {k : Nat} {cells : List LayoutCell}
    {ps : List (Edge × LayoutCell)} {M : Edge × LayoutCell → Prop}
    {R : Edge × LayoutCell → Edge × LayoutCell → Prop} (hrefl : ∀ p, R p p)
    (htrans : ∀ p q r, R p q → R q r → R p r) (hF : Fills type g cells) (hany : cells.any inFlow)
    (hM : ∀ p ∈ withEdges e type cells, M p ∧ FlowExact m p.2)
    (hstep : ∀ p q, M p → FlowExact m p.2 → Fits w grow type 1 p.1 p.2 →
      reply w grow type p = .took q → M q ∧ takes w grow type p ∧ Resized type p.2 q.2 ∧
        FlowExact m q.2 ∧ ((q.2.size type).toNat : Int) = (p.2.size type).toNat + signed grow 1 ∧
        R p q)
    (hdeal : deal (reply w grow type) (withEdges e type cells) k = some ps)
    (hfits : grow → (g.size type).toNat + k < 2 ^ 32) :
    (FlowExact m (.node type (g.addSize type (signed grow k)) (ps.map Prod.snd)) ∧
      (((g.addSize type (signed grow k)).size type).toNat : Int) =
        (g.size type).toNat + signed grow k) ∧ List.Forall₂ R (withEdges e type cells) ps := by
  have hrun := deal_induct_forall₂ hrefl htrans (J := fun qs j =>
    (∀ q ∈ qs, M q ∧ FlowExact m q.2 ∧
      (inFlow q.2 → q.2.size type.across = g.size type.across)) ∧
    (qs.map Prod.snd).any inFlow ∧
    (extent type (qs.map Prod.snd) : Int) + signed grow j =
      (g.size type).toNat + 1 + signed grow k) ?_ ?_ hdeal
  · obtain ⟨⟨hall, hflow, hext⟩, hrel⟩ := hrun
    refine ⟨?_, hrel⟩
    obtain ⟨c, hc, hcf⟩ := List.any_eq_true.mp hflow
    have hpos := @size_lt_extent type _ _ hc hcf
    have hlt := (g.size type).toNat_lt
    rw [signed_eq_zero.mpr rfl] at hext
    have hsize : (((g.addSize type (signed grow k)).size type).toNat : Int) =
        (g.size type).toNat + signed grow k := by
      rw [Geometry.size_addSize]
      refine toNat_addSize (by omega) ?_
      cases grow with
      | true => have := hfits rfl; rw [signed_true]; omega
      | false => rw [signed_false]; omega
    refine ⟨.node (fun c hc => ?_) fun _ => ⟨fun c hc hcf => ?_, by omega⟩, hsize⟩
    · obtain ⟨q, hq, rfl⟩ := List.mem_map.mp hc
      exact (hall q hq).2.1
    · obtain ⟨q, hq, rfl⟩ := List.mem_map.mp hc
      rw [(hall q hq).2.2 hcf, Geometry.size_across_addSize]
  · rintro xs p q ys j hq ⟨hall, hflow, hext⟩
    obtain ⟨hMp, hexact, hacross⟩ := hall p (by simp)
    have htakes := (reply_eq_took.mp hq).1
    have hpf : inFlow p.2 := (Bool.and_eq_true_iff.mp htakes).1
    have hone : Fits w grow type 1 p.1 p.2 := by
      rw [Fits]
      cases grow with
      | true =>
          have hlt : (p.2.size type).toNat < extent type ((xs ++ p :: ys).map Prod.snd) :=
            size_lt_extent (by simp) hpf
          have := hfits rfl
          rw [signed_true, signed_true] at hext
          rw [if_pos rfl]
          omega
      | false =>
          rw [if_neg (by simp)]
          exact of_decide_eq_true (Bool.and_eq_true_iff.mp htakes).2
    obtain ⟨hMq, -, hR, hexact', hsize, hpq⟩ := hstep p q hMp hexact hone hq
    have hqf : inFlow q.2 := by rw [hR.inFlow, hpf]
    refine ⟨⟨fun x hx => ?_, ?_, ?_⟩, hpq⟩
    · rcases List.mem_append.mp hx with hx | hx
      · exact hall x (by simp [hx])
      · rcases List.mem_cons.mp hx with rfl | hx
        · exact ⟨hMq, hexact', fun _ => by rw [hR.size_across, hacross hpf]⟩
        · exact hall x (by simp [hx])
    · simp [hqf]
    · simp only [List.map_append, List.map_cons, extent_append, extent_cons, hpf, hqf,
        if_true] at hext ⊢
      cases grow with
      | true => simp only [signed_true] at *; omega
      | false => simp only [signed_false] at *; omega
  · refine ⟨fun q hq => ⟨(hM q hq).1, (hM q hq).2, ?_⟩, ?_, ?_⟩
    · exact hF.across q.2 (mem_of_mem_withEdges hq)
    · rwa [map_snd_withEdges]
    · rw [map_snd_withEdges, hF.along]
      push_cast
      ring

/-- A node of type `type` after `k` units were dealt to its children. -/
theorem flowExact_along {e : Edge} {g : Geometry} {k : Nat} {cells : List LayoutCell}
    {ps : List (Edge × LayoutCell)} {M : Edge × LayoutCell → Prop}
    (hF : Fills type g cells) (hany : cells.any inFlow)
    (hM : ∀ p ∈ withEdges e type cells, M p ∧ FlowExact m p.2)
    (hstep : ∀ p q, M p → FlowExact m p.2 → Fits w grow type 1 p.1 p.2 →
      reply w grow type p = .took q → M q ∧ takes w grow type p ∧ Resized type p.2 q.2 ∧
        FlowExact m q.2 ∧ ((q.2.size type).toNat : Int) = (p.2.size type).toNat + signed grow 1)
    (hdeal : deal (reply w grow type) (withEdges e type cells) k = some ps)
    (hfits : grow → (g.size type).toNat + k < 2 ^ 32) :
    FlowExact m (.node type (g.addSize type (signed grow k)) (ps.map Prod.snd)) ∧
      (((g.addSize type (signed grow k)).size type).toNat : Int) =
        (g.size type).toNat + signed grow k := by
  refine (flowExact_along_forall₂ (R := fun _ _ => True) (fun _ => trivial)
    (fun _ _ _ _ _ => trivial) hF hany hM (fun p q hp hexact hone hq => ?_) hdeal hfits).1
  obtain ⟨hMq, htakes, hR, hexact', hsize⟩ := hstep p q hp hexact hone hq
  exact ⟨hMq, htakes, hR, hexact', hsize, trivial⟩

theorem fits_across {k : Nat} {e : Edge} {t : LayoutType} {g : Geometry} {cells : List LayoutCell}
    (hF : Fills t g cells) (hfits : Fits w grow t.across k e (.node t g cells)) :
    ∀ p ∈ withEdges e t cells, inFlow p.2 → Fits w grow t.across k p.1 p.2 := by
  intro p hp hpf
  rw [Fits] at hfits ⊢
  cases grow with
  | true =>
      rw [if_pos rfl, size_node] at hfits
      rwa [if_pos rfl, hF.across p.2 (mem_of_mem_withEdges hp) hpf]
  | false =>
      rw [if_neg (by simp)] at hfits ⊢
      have hne : t ≠ t.across := by cases t <;> decide
      exact (le_layoutResizeCheck_across hne (hfits.trans_lt (UInt32.toNat_lt _))).mp hfits p hp

/-- A change that fits is exact and keeps the flow exact. -/
theorem adjustBy_flowExact (hm : grow = false → ∀ e, m ≤ (leafMinimum w e type).toNat) {k : Nat}
    {e : Edge} {c c' : LayoutCell} (hf : inFlow c)
    (h : adjustBy w grow type k e c = some c') (hc : FlowExact m c)
    (hfits : Fits w grow type k e c) :
    FlowExact m c' ∧ ((c'.size type).toNat : Int) = (c.size type).toNat + signed grow k := by
  revert hc hfits
  refine adjustBy_induct
    (P := fun k e c c' => FlowExact m c → Fits w grow type k e c →
      FlowExact m c' ∧ ((c'.size type).toNat : Int) = (c.size type).toNat + signed grow k)
    ?_ ?_ ?_ hf h
  · intro k e wp g hc hfits
    exact ⟨flowExact_windowpane hm hc hfits, fits_windowpane hfits⟩
  · intro k e t g cells cells' ht hany hcells hc hfits
    obtain rfl := LayoutType.eq_across_of_ne ht
    cases hc with
    | node hchild hfill =>
        have hF := hfill hany
        have hfits' := fits_across hF hfits
        have hchange := Lists.forall₂_imp_mem hcells
          (S := fun p c' => Resized t.across p.2 c' ∧ FlowExact m c' ∧ (inFlow p.2 →
            ((c'.size t.across).toNat : Int) = (g.size t.across).toNat + signed grow k))
          fun p hp c' ⟨hacross, hP⟩ => by
            have hpc := mem_of_mem_withEdges hp
            cases hpf : inFlow p.2 with
            | false =>
                rw [Across, hpf, if_neg (by simp)] at hacross
                subst hacross
                exact ⟨.refl _, hchild _ hpc, fun h => by simp at h⟩
            | true =>
                rw [Across, hpf, if_pos rfl] at hacross
                obtain ⟨hexact, hsize⟩ := hP hpf (hchild _ hpc) (hfits' p hp hpf)
                refine ⟨adjustBy_resized hpf hacross, hexact, fun _ => ?_⟩
                rwa [← hF.across p.2 hpc hpf]
        have := @flowExact_across m t g cells cells' (signed grow k) hF hany (by
            rw [← map_snd_withEdges e t cells, List.forall₂_map_left_iff]
            exact hchange)
        exact this
  · intro k e g cells ps M hany hM hstep hdeal hc hfits
    cases hc with
    | node hchild hfill =>
        refine flowExact_along (w := w) (M := M) (hfill hany) hany
          (fun p hp => ⟨hM p hp, hchild _ (mem_of_mem_withEdges hp)⟩) ?_ hdeal ?_
        · intro p q hp hexact hone hq
          obtain ⟨hMq, htakes, hR, hP⟩ := hstep p q hp hq
          exact ⟨hMq, htakes, hR, hP hexact hone⟩
        · rintro rfl
          rwa [Fits, if_pos rfl] at hfits

end Ztmux.Layout
