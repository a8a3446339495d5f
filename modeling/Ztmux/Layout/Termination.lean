import Ztmux.Layout.Supply

/-!
When a window resize returns.

`layoutResize` changes the layout along one axis and then along the other, each
time by what `layoutResizeCheck` lets through. A change along one axis does not
touch anything that is read along the other, so both conditions can be read off the
layout as it was.
-/

namespace Ztmux.Layout

open LayoutCell RoundRobin

variable {w : WindowOptions} {type : LayoutType}

/-! ### The other axis -/

theorem checkTotal_congr {es : List Edge} {cells cells' : List LayoutCell}
    (h : List.Forall₂ (fun c c' => ∀ e, layoutResizeCheck w e c' type =
      layoutResizeCheck w e c type) cells cells') :
    checkTotal w es cells' type = checkTotal w es cells type := by
  induction h generalizing es with
  | nil => rfl
  | cons hc _ ih =>
      cases es with
      | nil => rfl
      | cons e es => rw [checkTotal, checkTotal, hc, ih]

theorem checkLeast_congr {es : List Edge} {cells cells' : List LayoutCell} {minimum : UInt32}
    (h : List.Forall₂ (fun c c' => ∀ e, layoutResizeCheck w e c' type =
      layoutResizeCheck w e c type) cells cells') :
    checkLeast w es cells' type minimum = checkLeast w es cells type minimum := by
  induction h generalizing es minimum with
  | nil => rfl
  | cons hc _ ih =>
      cases es with
      | nil => rfl
      | cons e es => rw [checkLeast, checkLeast, hc, ih]

theorem Resized.layoutResizeCheck_across {c c' : LayoutCell} (h : Resized type c c') (e : Edge) :
    layoutResizeCheck w e c' type.across = layoutResizeCheck w e c type.across := by
  refine h.induct (P := fun c c' => ∀ e, layoutResizeCheck w e c' type.across =
    layoutResizeCheck w e c type.across) (fun _ _ => rfl) ?_ ?_ e
  · intro wp g change e
    rw [layoutResizeCheck, layoutResizeCheck, Geometry.size_across_addSize]
  · intro t g change cells cells' _ hcells e
    have hchild := hcells.imp fun _ _ hcc => hcc.2
    rw [layoutResizeCheck, layoutResizeCheck, children_eq (hcells.imp fun _ _ hcc => hcc.1),
      checkTotal_congr hchild, checkLeast_congr hchild]

theorem supplyAlong_congr {es : List Edge} {cells cells' : List LayoutCell} {spare : Bool}
    (h : List.Forall₂ (fun c c' => ∀ e, supply w type e c' = supply w type e c) cells cells') :
    supplyAlong w type spare es cells' = supplyAlong w type spare es cells := by
  induction h generalizing es with
  | nil => rfl
  | cons hc _ ih =>
      cases es with
      | nil => rfl
      | cons e es => rw [supplyAlong, supplyAlong, hc, ih]

theorem supplyAcross_congr {es : List Edge} {cells cells' : List LayoutCell}
    (h : List.Forall₂ (fun c c' => inFlow c' = inFlow c ∧
      ∀ e, supply w type e c' = supply w type e c) cells cells') :
    supplyAcross w type es cells' = supplyAcross w type es cells := by
  induction h generalizing es with
  | nil => rfl
  | cons hc _ ih =>
      cases es with
      | nil => rfl
      | cons e es => rw [supplyAcross, supplyAcross, hc.1, hc.2, ih]

theorem Resized.supply_across {c c' : LayoutCell} (h : Resized type c c') (e : Edge) :
    supply w type.across e c' = supply w type.across e c := by
  refine h.induct (P := fun c c' => ∀ e, supply w type.across e c' =
    supply w type.across e c) (fun _ _ => rfl) ?_ ?_ e
  · intro wp g change e
    rw [supply, supply, (Resized.windowpane wp g change).layoutResizeCheck_across]
  · intro t g change cells cells' hany hcells e
    have hR := hcells.imp fun _ _ hcc => hcc.1
    have hflow : anyInFlow cells' = anyInFlow cells := by
      have := (Resized.node t g change hany hR).inFlow
      rwa [inFlow_node, inFlow_node, ← anyInFlow_eq_any, ← anyInFlow_eq_any] at this
    rw [supply, supply, hflow, children_eq hR, spare_eq hR, blocked_eq hR,
      supplyAlong_congr (hcells.imp fun _ _ hcc => hcc.2),
      supplyAcross_congr (hcells.imp fun _ _ hcc => ⟨hcc.1.inFlow, hcc.2⟩)]

theorem Resized.span_across {c c' : LayoutCell} (h : Resized type c c') :
    span type.across c' = span type.across c := by
  refine h.induct (P := fun c c' => span type.across c' = span type.across c) (fun _ => rfl)
    ?_ ?_
  · intro wp g change
    rw [span, span, Geometry.size_across_addSize]
  · intro t g change cells cells' _ hcells
    have hmap := Lists.map_eq_of_forall₂ hcells fun _ _ _ hcc => hcc.2
    rw [span, span, spanSum_eq, spanMax_eq, hmap, ← spanSum_eq, ← spanMax_eq]

theorem forall₂_zip {R : LayoutCell → LayoutCell → Prop} {es : List Edge}
    {cells cells' : List LayoutCell} (h : List.Forall₂ R cells cells') :
    List.Forall₂ (fun p q => q.1 = p.1 ∧ R p.2 q.2) (es.zip cells) (es.zip cells') := by
  induction h generalizing es with
  | nil => simp
  | cons hc _ ih =>
      cases es with
      | nil => exact .nil
      | cons e es => exact .cons ⟨rfl, hc⟩ ih

theorem Resized.canGive_across {k : Nat} {c c' : LayoutCell} (h : Resized type c c') (e : Edge) :
    CanGive w type.across k e c' ↔ CanGive w type.across k e c := by
  refine h.induct (P := fun c c' => ∀ e, CanGive w type.across k e c' ↔
    CanGive w type.across k e c) (fun _ _ => Iff.rfl) ?_ ?_ e
  · intro wp g change e
    exact ⟨fun _ => .windowpane, fun _ => .windowpane⟩
  · intro t g change cells cells' _ hcells e
    have hR := hcells.imp fun _ _ hcc => hcc.1
    have hpairs : List.Forall₂ (fun p q => q.1 = p.1 ∧ Resized type p.2 q.2 ∧
        ∀ e, CanGive w type.across k e q.2 ↔ CanGive w type.across k e p.2)
        (withEdges e t cells) (withEdges e t cells') := by
      rw [withEdges, withEdges, children_eq hR]
      exact forall₂_zip hcells
    by_cases ht : t = type.across
    · subst ht
      have hserved : Served (fun p => (supply w type.across p.1 p.2).units)
            (fun p => (supply w type.across p.1 p.2).trap) (withEdges e type.across cells') k ↔
          Served (fun p => (supply w type.across p.1 p.2).units)
            (fun p => (supply w type.across p.1 p.2).trap) (withEdges e type.across cells) k := by
        have hmap := Lists.map_eq_of_forall₂ (f := fun p => supply w type.across p.1 p.2)
          (g := fun p => supply w type.across p.1 p.2) hpairs fun p _ q hpq => by
            rw [hpq.1, hpq.2.1.supply_across]
        have hview := fun ps => @served_map _ Supply.units (fun s => s.trap = true) _
          (fun p : Edge × LayoutCell => supply w type.across p.1 p.2) ps k
        exact (hview _).symm.trans (hmap ▸ hview _)
      constructor
      · rintro (_ | ⟨hne, -⟩ | hs)
        · exact absurd rfl hne
        · exact .along (hserved.mp hs)
      · rintro (_ | ⟨hne, -⟩ | hs)
        · exact absurd rfl hne
        · exact .along (hserved.mpr hs)
    · constructor
      · rintro (_ | ⟨-, hs⟩ | -)
        · refine .across ht fun p hp hpf => ?_
          obtain ⟨q, hq, he, hpq, hgive⟩ := Lists.exists_of_mem_left hpairs hp
          rw [← hgive, ← he]
          exact hs q hq (by rwa [hpq.inFlow])
        · exact absurd rfl ht
      · rintro (_ | ⟨-, hs⟩ | -)
        · refine .across ht fun q hq hqf => ?_
          obtain ⟨p, hp, he, hpq, hgive⟩ := Lists.exists_of_mem_right hpairs hq
          rw [hgive, he]
          exact hs p hp (by rwa [← hpq.inFlow])
        · exact absurd rfl ht

/-! ### The window -/

/-- For sizes that the casts to `i32` keep, the change is to the new size but not by
more than there is. -/
theorem resizeChange_of_lt {root : LayoutCell} {s : UInt32} (hs : s.toNat < 2 ^ 31)
    (hsize : (root.size type).toNat < 2 ^ 31)
    (hcheck : (layoutResizeCheck w .root root type).toNat < 2 ^ 31) :
    resizeChange w root type s =
      max ((s.toNat : Int) - (root.size type).toNat)
        (-((layoutResizeCheck w .root root type).toNat : Int)) := by
  rw [resizeChange, asI32_of_lt hs, asI32_of_lt hsize, asI32_of_lt hcheck,
    wrapI32_of_lt (by omega) (by omega), wrapI32_of_lt (by omega) (by omega)]
  have hle : s ≤ root.size type ↔ s.toNat ≤ (root.size type).toNat := Iff.rfl
  simp only [hle]
  split_ifs <;> omega

/-- How much is taken from the layout along one axis. -/
def loss (w : WindowOptions) (root : LayoutCell) (type : LayoutType) (s : UInt32) : Nat :=
  (-resizeChange w root type s).toNat

/-- What is taken from the layout can be given. -/
def CanLose (w : WindowOptions) (root : LayoutCell) (type : LayoutType) (s : UInt32) : Prop :=
  CanGive w type (loss w root type s) .root root

theorem canGive_zero (e : Edge) (c : LayoutCell) : CanGive w type 0 e c := by
  induction c generalizing e with
  | windowpane floating wp g => exact .windowpane
  | node t g cells ih =>
      by_cases ht : t = type
      · subst ht
        exact .along (served_zero _)
      · exact .across ht fun p hp _ => ih _ (mem_of_mem_withEdges hp) _

theorem resizeAlong_mono {m n : Nat} (hmn : m ≤ n) {root root' : LayoutCell} {s : UInt32}
    (h : resizeAlong w m root type s = .ok root') : resizeAlong w n root type s = .ok root' := by
  rw [resizeAlong] at h ⊢
  split at h
  · rw [if_pos ‹_›]
    exact layoutResizeAdjust_mono hmn h
  · rw [if_neg ‹_›]
    exact h

/-- A resize along one axis adds units, takes what is lost, or does nothing. -/
theorem resizeAlong_eq (w : WindowOptions) (root : LayoutCell) (type : LayoutType) (s : UInt32) :
    (∃ k, loss w root type s = 0 ∧ ∀ fuel, resizeAlong w fuel root type s =
      layoutResizeAdjust w type fuel .root root (signed true k)) ∨
    (∀ fuel, resizeAlong w fuel root type s =
      layoutResizeAdjust w type fuel .root root (signed false (loss w root type s))) ∨
    (loss w root type s = 0 ∧ ∀ fuel, resizeAlong w fuel root type s = .ok root) := by
  simp only [resizeAlong, loss]
  rcases lt_trichotomy (resizeChange w root type s) 0 with h | h | h
  · refine .inr (.inl fun fuel => ?_)
    rw [if_pos (by omega), signed_false, Int.toNat_of_nonneg (by omega), neg_neg]
  · refine .inr (.inr ⟨by omega, fun fuel => ?_⟩)
    rw [if_neg (by omega)]
    rfl
  · refine .inl ⟨(resizeChange w root type s).toNat, by omega, fun fuel => ?_⟩
    rw [if_pos (by omega), signed_true, Int.toNat_of_nonneg (by omega)]

theorem resizeAlong_returns_iff {root : LayoutCell} {s : UInt32} (hpop : Populated root)
    (hspan : span type root < 2 ^ 32) :
    (∃ fuel root', resizeAlong w fuel root type s = .ok root') ↔ CanLose w root type s := by
  rw [CanLose]
  rcases resizeAlong_eq w root type s with ⟨k, hloss, heq⟩ | heq | ⟨hloss, heq⟩
  · rw [hloss]
    refine ⟨fun _ => canGive_zero _ _, fun _ => ?_⟩
    obtain ⟨root', h⟩ := Option.isSome_iff_exists.mp
      (@adjustBy_grow_isSome w type k .root root)
    obtain ⟨fuel, h⟩ := layoutResizeAdjust_ok_iff.mpr h
    exact ⟨fuel, root', by rw [heq, h]⟩
  · rw [← adjustBy_isSome_iff hpop hspan, Option.isSome_iff_exists, exists_comm]
    simp only [heq, layoutResizeAdjust_ok_iff]
  · rw [hloss]
    exact ⟨fun _ => canGive_zero _ _, fun _ => ⟨0, root, heq 0⟩⟩

/-- What a resize along one axis returns is the layout adjusted, if not the same. -/
theorem resizeAlong_ok {fuel : Nat} {root root' : LayoutCell} {s : UInt32}
    (h : resizeAlong w fuel root type s = .ok root') :
    root' = root ∨ ∃ grow k, adjustBy w grow type k .root root = some root' := by
  rcases resizeAlong_eq w root type s with ⟨k, -, heq⟩ | heq | ⟨-, heq⟩
  · exact .inr ⟨true, k, layoutResizeAdjust_ok_iff.mp ⟨fuel, by rw [← heq, h]⟩⟩
  · exact .inr ⟨false, _, layoutResizeAdjust_ok_iff.mp ⟨fuel, by rw [← heq, h]⟩⟩
  · rw [heq, Except.ok.injEq] at h
    exact .inl h.symm

theorem Resized.canLose_across {root root' : LayoutCell} (h : Resized type root root')
    (s : UInt32) : CanLose w root' type.across s ↔ CanLose w root type.across s := by
  rw [CanLose, CanLose, h.canGive_across, loss, loss, resizeChange, resizeChange,
    h.layoutResizeCheck_across, h.size_across]

/-- The other axis is as it was. -/
theorem resizeAlong_across {fuel : Nat} {root root' : LayoutCell} {s : UInt32}
    (hpop : Populated root) (h : resizeAlong w fuel root type s = .ok root') :
    Populated root' ∧ span type.across root' = span type.across root ∧
      ∀ s, CanLose w root' type.across s ↔ CanLose w root type.across s := by
  rcases resizeAlong_ok h with rfl | ⟨grow, k, hk⟩
  · exact ⟨hpop, rfl, fun _ => Iff.rfl⟩
  · cases hf : inFlow root with
    | true =>
        have hR := adjustBy_resized hf hk
        exact ⟨hpop.resized hR, hR.span_across, hR.canLose_across⟩
    | false =>
        cases hpop with
        | windowpane =>
            rw [adjustBy, Option.some.injEq] at hk
            subst hk
            refine ⟨.windowpane, ?_, fun s => ⟨fun _ => .windowpane, fun _ => .windowpane⟩⟩
            rw [span, span, Geometry.size_across_addSize]
        | node hany _ =>
            rw [inFlow_node, hany] at hf
            cases hf

/-- A resize returns exactly when along both axes what is taken can be given. Nothing is said of
layouts whose sizes come to 2 ^ 32 or more along an axis. -/
theorem layoutResize_returns_iff {root : LayoutCell} {sx sy : UInt32} (hpop : Populated root)
    (hspan : ∀ type, span type root < 2 ^ 32) :
    (∃ fuel root', layoutResize w fuel root sx sy = .ok root') ↔
      CanLose w root .leftright sx ∧ CanLose w root .topbottom sy := by
  constructor
  · rintro ⟨fuel, root', h⟩
    obtain ⟨root₁, hx, h⟩ := bind_eq_ok.mp h
    obtain ⟨root₂, hy, -⟩ := bind_eq_ok.mp h
    obtain ⟨hpop₁, hspan₁, hlose⟩ := resizeAlong_across hpop hx
    refine ⟨(resizeAlong_returns_iff hpop (hspan _)).mp ⟨fuel, root₁, hx⟩, ?_⟩
    have hspan' : span .topbottom root₁ < 2 ^ 32 := by
      rw [LayoutType.across] at hspan₁
      rw [hspan₁]
      exact hspan _
    exact (hlose sy).mp ((resizeAlong_returns_iff hpop₁ hspan').mp ⟨fuel, root₂, hy⟩)
  · rintro ⟨hx, hy⟩
    obtain ⟨m, root₁, hx⟩ := (resizeAlong_returns_iff hpop (hspan _)).mpr hx
    obtain ⟨hpop₁, hspan₁, hlose⟩ := resizeAlong_across hpop hx
    have hspan' : span .topbottom root₁ < 2 ^ 32 := by
      rw [LayoutType.across] at hspan₁
      rw [hspan₁]
      exact hspan _
    obtain ⟨n, root₂, hy⟩ := (resizeAlong_returns_iff hpop₁ hspan').mpr ((hlose sy).mpr hy)
    refine ⟨max m n, layoutFixOffsets root₂, bind_eq_ok.mpr ⟨root₁, ?_,
      bind_eq_ok.mpr ⟨root₂, ?_, rfl⟩⟩⟩
    · exact resizeAlong_mono (le_max_left m n) hx
    · exact resizeAlong_mono (le_max_right m n) hy

/-- Two tiled panes side by side and a floating one beside them. -/
def besideFloat : LayoutCell :=
  .node .leftright ⟨80, 24, 0, 0⟩
    [.windowpane false (some 0) ⟨40, 24, 0, 0⟩, .windowpane false (some 1) ⟨39, 24, 41, 0⟩,
      .windowpane true (some 2) ⟨40, 12, 5, 5⟩]

theorem besideFloat_populated : Populated besideFloat :=
  .node rfl (by simp [Populated.windowpane])

/-- Three columns are as few as the tiled panes can be left with. -/
theorem besideFloat_returns :
    ∃ fuel root, layoutResize .plain fuel besideFloat 3 24 = .ok root := by
  have hloss : loss .plain besideFloat .topbottom 24 = 0 := by decide +kernel
  refine (layoutResize_returns_iff besideFloat_populated (by rintro (_ | _) <;> decide)).mpr
    ⟨.along ⟨by decide +kernel, fun xs p ys hps htrap => ?_⟩, ?_⟩
  · have hpass : ∀ q ∈ xs ++ p :: ys, (supply .plain .leftright q.1 q.2).trap = false := by
      rw [← hps]
      decide +kernel
    exact absurd htrap (by simp [hpass p (List.mem_append_right _ List.mem_cons_self)])
  · rw [CanLose, hloss]
    exact canGive_zero _ _

/-- The floating pane is counted as space to take, and shrinking the window to two
columns asks the tiled panes for one column more than they have. -/
theorem besideFloat_not_returns :
    Populated besideFloat ∧ ¬∃ fuel root, layoutResize .plain fuel besideFloat 2 24 = .ok root := by
  refine ⟨besideFloat_populated, ?_⟩
  rintro ⟨fuel, root, h⟩
  obtain ⟨root₁, hx, -⟩ := bind_eq_ok.mp h
  have hlose := (resizeAlong_returns_iff besideFloat_populated (by decide)).mp ⟨fuel, root₁, hx⟩
  cases hlose with
  | across hne => exact hne rfl
  | along hserved =>
      have : ¬loss .plain besideFloat .leftright 2 ≤ 77 := by decide +kernel
      exact this hserved.1

end Ztmux.Layout
