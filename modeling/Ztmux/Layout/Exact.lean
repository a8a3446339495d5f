import Ztmux.Layout.Supply
import Ztmux.Layout.Spread

/-!
Resizing a layout of tiled panes that `layout_check` accepts without wrapping around.

The 32-bit sums are then exact, which is `FlowExact`, and a change that there is room for
comes out exactly: the layout is accepted again, sizes across the change stay, and no pane
loses its minimum.
-/

namespace Ztmux.Layout

open LayoutCell RoundRobin

variable {w : WindowOptions} {grow : Bool} {type : LayoutType}

/-! ### Exact sums -/

/-- No pane of the layout floats. -/
inductive FloatFree : LayoutCell → Prop
  | windowpane {wp : Option Nat} {g : Geometry} : FloatFree (.windowpane false wp g)
  | node {t : LayoutType} {g : Geometry} {cells : List LayoutCell} :
      (∀ c ∈ cells, FloatFree c) → FloatFree (.node t g cells)

/-- `layout_check` does not wrap around in a sum, nor below zero. -/
inductive NoWrap : LayoutCell → Prop
  | windowpane {floating : Bool} {wp : Option Nat} {g : Geometry} :
      NoWrap (.windowpane floating wp g)
  | node {t : LayoutType} {g : Geometry} {cells : List LayoutCell} : cells ≠ [] →
      (cells.map fun c => (c.size t).toNat + 1).sum < 2 ^ 32 → (∀ c ∈ cells, NoWrap c) →
        NoWrap (.node t g cells)

theorem FloatFree.solid {c : LayoutCell} (h : FloatFree c) (hwrap : NoWrap c) : Solid c := by
  induction c with
  | windowpane floating wp g =>
      cases h
      exact .windowpane
  | node t g cells ih =>
      cases h with
      | node hfloat =>
          cases hwrap with
          | node hne hsum hcells =>
              exact .node hne fun c hc => ih c hc (hfloat c hc) (hcells c hc)

theorem checkSum_eq_ofNat (t : LayoutType) (cells : List LayoutCell) :
    checkSum t cells = UInt32.ofNat (cells.map fun c => (c.size t).toNat + 1).sum := by
  induction cells with
  | nil => rfl
  | cons c cs ih =>
      rw [checkSum_cons, ih, List.map_cons, List.sum_cons, UInt32.ofNat_add, UInt32.ofNat_add,
        UInt32.ofNat_toNat]
      rfl

/-- Without floating cells the flow is everything. -/
theorem extent_of_inFlow {cells : List LayoutCell} (h : ∀ c ∈ cells, inFlow c) :
    extent type cells = (cells.map fun c => (c.size type).toNat + 1).sum := by
  rw [extent, List.map_congr_left fun c hc => if_pos (h c hc)]

/-- Without wrapping around, what is accepted is filled exactly. -/
theorem flowExact_of_layoutCheck {c : LayoutCell} (hsolid : Solid c) (hwrap : NoWrap c)
    (h : layoutCheck c) : FlowExact 0 c := by
  induction c with
  | windowpane floating wp g => exact .windowpane fun _ _ => Nat.zero_le _
  | node t g cells ih =>
      obtain ⟨hcells, hsum⟩ := layoutCheck_node.mp h
      cases hsolid with
      | node hne hsolid =>
          cases hwrap with
          | node _ hlt hwrap =>
              refine .node (fun c hc => ih c hc (hsolid c hc) (hwrap c hc) (hcells c hc).2) fun _ =>
                ⟨fun c hc _ => (hcells c hc).1, ?_⟩
              rw [extent_of_inFlow fun c hc => (hsolid c hc).inFlow]
              have hpos : 0 < (cells.map fun c => (c.size t).toNat + 1).sum := by
                obtain ⟨c, cs, rfl⟩ := List.exists_cons_of_ne_nil hne
                rw [List.map_cons, List.sum_cons]
                omega
              have htoNat := congrArg UInt32.toNat hsum
              rw [checkSum_eq_ofNat, toNat_ofNat_of_lt hlt, UInt32.toNat_add] at htoNat
              have h1 : (1 : UInt32).toNat = 1 := rfl
              have hg := (g.size t).toNat_lt
              omega

theorem FlowExact.layoutCheck {m : Nat} {c : LayoutCell} (h : FlowExact m c) (hsolid : Solid c) :
    Layout.layoutCheck c := by
  induction c with
  | windowpane floating wp g => rfl
  | node t g cells ih =>
      have hany := hsolid.inFlow
      rw [inFlow_node] at hany
      cases hsolid with
      | node hne hsolid =>
          cases h with
          | node hchild hfill =>
              obtain ⟨hacross, halong⟩ := hfill hany
              rw [layoutCheck_node, checkSum_eq_ofNat]
              refine ⟨fun c hc => ⟨hacross c hc (hsolid c hc).inFlow,
                ih c hc (hchild c hc) (hsolid c hc)⟩, ?_⟩
              rw [← extent_of_inFlow fun c hc => (hsolid c hc).inFlow, halong, UInt32.ofNat_add,
                UInt32.ofNat_toNat]
              rfl

/-! ### What is the same but for the sizes along a direction -/

/-- A geometry without its size along `type`. -/
def Geometry.forgetSize (type : LayoutType) (g : Geometry) : Geometry :=
  match type with
  | .leftright => { g with sx := 0 }
  | .topbottom => { g with sy := 0 }

mutual

/-- A layout without its sizes along `type`. -/
def forgetSizes (type : LayoutType) : LayoutCell → LayoutCell
  | .windowpane floating wp g => .windowpane floating wp (g.forgetSize type)
  | .node t g cells => .node t (g.forgetSize type) (forgetSizesIn type cells)

def forgetSizesIn (type : LayoutType) : List LayoutCell → List LayoutCell
  | [] => []
  | c :: cs => forgetSizes type c :: forgetSizesIn type cs

end

theorem forgetSizesIn_eq_map (cells : List LayoutCell) :
    forgetSizesIn type cells = cells.map (forgetSizes type) := by
  induction cells with
  | nil => rfl
  | cons c cs ih => rw [forgetSizesIn, ih, List.map_cons]

theorem Resized.forgetSizes {c c' : LayoutCell} (h : Resized type c c') :
    forgetSizes type c' = Layout.forgetSizes type c := by
  have hg : ∀ (g : Geometry) (change : Int),
      (g.addSize type change).forgetSize type = g.forgetSize type := by
    intro g change
    cases type <;> rfl
  refine h.induct (P := fun c c' => Layout.forgetSizes type c' = Layout.forgetSizes type c)
    (fun _ => rfl) (fun wp g change => ?_) fun t g change cells cells' _ hcells => ?_
  · rw [Layout.forgetSizes, Layout.forgetSizes, hg]
  · rw [Layout.forgetSizes, Layout.forgetSizes, hg, forgetSizesIn_eq_map, forgetSizesIn_eq_map,
      Lists.map_eq_of_forall₂ hcells fun c _ c' hcc => hcc.2]

/-! ### The panes keep their minimums -/

mutual

/-- The leaves of a cell in order, each with the edges that it touches. -/
def leaves (e : Edge) : LayoutCell → List (Edge × Geometry)
  | .windowpane _ _ g => [(e, g)]
  | .node t _ cells => leavesIn (e.children t cells) cells

def leavesIn : List Edge → List LayoutCell → List (Edge × Geometry)
  | e :: es, c :: cs => leaves e c ++ leavesIn es cs
  | _, _ => []

end

theorem leaves_node (e : Edge) (t : LayoutType) (g : Geometry) (cells : List LayoutCell) :
    leaves e (.node t g cells) = (withEdges e t cells).flatMap fun p => leaves p.1 p.2 := by
  rw [leaves, withEdges]
  generalize e.children t cells = es
  induction es generalizing cells with
  | nil => cases cells <;> rfl
  | cons e es ih =>
      cases cells with
      | nil => rfl
      | cons c cs => rw [leavesIn, ih, List.zip_cons_cons, List.flatMap_cons]

/-- A leaf in its place that has its minimum if it had it. -/
def LeafKept (w : WindowOptions) (type : LayoutType) (p q : Edge × Geometry) : Prop :=
  q.1 = p.1 ∧ (leafMinimum w p.1 type ≤ p.2.size type → leafMinimum w p.1 type ≤ q.2.size type)

/-- So are all leaves of a cell. -/
def LeavesKept (w : WindowOptions) (type : LayoutType) (p q : Edge × LayoutCell) : Prop :=
  List.Forall₂ (LeafKept w type) (leaves p.1 p.2) (leaves q.1 q.2)

theorem LeafKept.trans {p q r : Edge × Geometry} (h : LeafKept w type p q)
    (h' : LeafKept w type q r) : LeafKept w type p r := by
  obtain ⟨heq, hmin⟩ := h
  obtain ⟨heq', hmin'⟩ := h'
  rw [heq] at hmin'
  exact ⟨heq'.trans heq, hmin' ∘ hmin⟩

theorem LeavesKept.refl (p : Edge × LayoutCell) : LeavesKept w type p p :=
  List.forall₂_same.mpr fun _ _ => ⟨rfl, id⟩

theorem LeavesKept.trans {p q r : Edge × LayoutCell} (h : LeavesKept w type p q)
    (h' : LeavesKept w type q r) : LeavesKept w type p r :=
  Lists.forall₂_comp h h' fun _ _ _ _ h h' => h.trans h'

theorem leavesKept_node {e : Edge} {t : LayoutType} {g g' : Geometry}
    {cells cells' : List LayoutCell}
    (h : List.Forall₂ (LeavesKept w type) (withEdges e t cells) (withEdges e t cells')) :
    LeavesKept w type (e, .node t g cells) (e, .node t g' cells') := by
  rw [LeavesKept, leaves_node, leaves_node]
  exact List.rel_flatMap h fun _ _ hpq => hpq

theorem leavesKept_windowpane {k : Nat} {e : Edge} {wp : Option Nat} {g : Geometry}
    (hfits : Fits w grow type k e (.windowpane false wp g)) :
    LeavesKept w type (e, .windowpane false wp g)
      (e, .windowpane false wp (g.addSize type (signed grow k))) := by
  refine .cons ⟨rfl, fun hmin => ?_⟩ .nil
  have hsize := fits_windowpane hfits
  rw [UInt32.le_iff_toNat_le] at hmin ⊢
  dsimp only at hmin ⊢
  cases grow with
  | true =>
      rw [signed_true] at hsize ⊢
      omega
  | false =>
      rw [Fits, if_neg Bool.false_ne_true, layoutResizeCheck_windowpane] at hfits
      rw [signed_false] at hsize ⊢
      omega

theorem forall₂_zip_right {R : Edge × LayoutCell → LayoutCell → Prop} {es : List Edge}
    {cs cs' : List LayoutCell} (hlen : es.length = cs.length)
    (h : List.Forall₂ R (es.zip cs) cs') :
    List.Forall₂ (fun p q => q.1 = p.1 ∧ R p q.2) (es.zip cs) (es.zip cs') := by
  induction es generalizing cs cs' with
  | nil => exact .nil
  | cons e es ih =>
      cases cs with
      | nil => cases hlen
      | cons c cs =>
          rw [List.zip_cons_cons] at h ⊢
          cases h with
          | cons hc hcs => exact .cons ⟨rfl, hc⟩ (ih (Nat.succ.inj hlen) hcs)

/-- A change that fits leaves every pane its minimum. -/
theorem adjustBy_leavesKept {k : Nat} {e : Edge} {c c' : LayoutCell} (hsolid : Solid c)
    (h : adjustBy w grow type k e c = some c') (hc : FlowExact 0 c)
    (hfits : Fits w grow type k e c) : LeavesKept w type (e, c) (e, c') := by
  have hflow := hsolid.inFlow
  revert hsolid hc hfits
  refine adjustBy_induct (P := fun k e c c' => Solid c → FlowExact 0 c → Fits w grow type k e c →
    LeavesKept w type (e, c) (e, c')) ?_ ?_ ?_ hflow h
  · intro k e wp g _ _ hfits
    exact leavesKept_windowpane hfits
  · intro k e t g cells cells' ht hany hcells hsolid hc hfits
    obtain rfl := LayoutType.eq_across_of_ne ht
    cases hsolid with
    | node _ hsolid =>
        cases hc with
        | node hexact hfill =>
            have hfits' := fits_across (hfill hany) hfits
            have hchange := Lists.forall₂_imp_mem hcells
              (S := fun p c' => Resized t.across p.2 c' ∧
                LeavesKept w t.across p (p.1, c')) (by
                intro p hp c' hpc'
                obtain ⟨hacross, hP⟩ := hpc'
                have hpc := mem_of_mem_withEdges hp
                have hpf := (hsolid p.2 hpc).inFlow
                rw [Across, if_pos hpf] at hacross
                exact ⟨adjustBy_resized hpf hacross,
                  hP hpf (hsolid p.2 hpc) (hexact p.2 hpc) (hfits' p hp hpf)⟩)
            have hresized : List.Forall₂ (Resized t.across) cells cells' := by
              rw [← map_snd_withEdges e t cells, List.forall₂_map_left_iff]
              exact hchange.imp fun _ _ hpq => hpq.1
            refine leavesKept_node ?_
            rw [withEdges, withEdges, children_eq hresized]
            refine (forall₂_zip_right (length_children e t cells) hchange).imp ?_
            intro p q hpq
            obtain ⟨hedge, -, hkept⟩ := hpq
            rw [← hedge] at hkept
            exact hkept
  · intro k e g cells ps M hany hM hstep hdeal hsolid hc hfits
    cases hsolid with
    | node _ hsolid =>
        cases hc with
        | node hexact hfill =>
            have hrun := flowExact_along_forall₂ (m := 0) (M := fun p => M p ∧ Solid p.2)
              (R := fun p q => q.1 = p.1 ∧ Resized type p.2 q.2 ∧ LeavesKept w type p q)
              (fun p => ⟨rfl, .refl _, .refl p⟩)
              (fun p q r hpq hqr => ⟨hqr.1.trans hpq.1, hpq.2.1.trans hqr.2.1,
                hpq.2.2.trans hqr.2.2⟩) (hfill hany) hany
              (fun p hp => ⟨⟨hM p hp, hsolid _ (mem_of_mem_withEdges hp)⟩,
                hexact _ (mem_of_mem_withEdges hp)⟩)
              (by
                intro p q hMp hexactp hone hq
                obtain ⟨hMp, hsolidp⟩ := hMp
                obtain ⟨hMq, htakes, hR, hP⟩ := hstep p q hMp hq
                obtain ⟨-, hadjust, hedge⟩ := reply_eq_took.mp hq
                obtain ⟨hexactq, hsize⟩ := adjustBy_flowExact (fun _ _ => Nat.zero_le _)
                  hsolidp.inFlow hadjust hexactp hone
                have hkept : LeavesKept w type p (p.1, q.2) := hP hsolidp hexactp hone
                rw [← hedge] at hkept
                exact ⟨⟨hMq, hsolidp.resized hR⟩, htakes, hR, hexactq, hsize, hedge, hR, hkept⟩)
              hdeal (by
                rintro rfl
                rwa [Fits, if_pos rfl] at hfits)
            refine leavesKept_node ?_
            rw [withEdges_map_snd (hrun.2.imp fun _ _ hpq => ⟨hpq.1, hpq.2.1⟩)]
            exact hrun.2.imp fun _ _ hpq => hpq.2.2

/-! ### What is left to take -/

/-- Along its own direction a node has as much less to give as was taken. -/
theorem layoutResizeCheck_adjustBy {k : Nat} {e : Edge} {g g' : Geometry}
    {cells cells' : List LayoutCell} (hsolid : Solid (.node type g cells))
    (hspan : span type (.node type g cells) < 2 ^ 32)
    (hsolid' : Solid (.node type g' cells')) (hspan' : span type (.node type g' cells') < 2 ^ 32)
    (h : adjustBy w false type k e (.node type g cells) = some (.node type g' cells')) :
    (layoutResizeCheck w e (.node type g' cells') type).toNat + k =
      (layoutResizeCheck w e (.node type g cells) type).toNat := by
  have hunits : ∀ {g : Geometry} {cells : List LayoutCell}, Solid (.node type g cells) →
      span type (.node type g cells) < 2 ^ 32 →
      (layoutResizeCheck w e (.node type g cells) type).toNat =
        ((withEdges e type cells).map fun p => (supply w type p.1 p.2).units).sum := by
    intro g cells hsolid hspan
    rw [toNat_layoutResizeCheck_along hsolid.populated hspan]
    refine congrArg List.sum (List.map_congr_left fun p hp => ?_)
    have hp := mem_of_mem_withEdges hp
    cases hsolid with
    | node _ hsolid =>
        rw [(hsolid p.2 hp).supply_eq ((span_le_of_mem hp).trans_lt hspan)]
        rfl
  have hany := hsolid.inFlow
  rw [inFlow_node] at hany
  obtain ⟨ps, hdeal, heq⟩ := (adjustBy_along hany).mp h
  obtain ⟨-, -, rfl⟩ := LayoutCell.node.inj heq
  have hps : withEdges e type (ps.map Prod.snd) = ps := by
    refine withEdges_map_snd (deal_forall₂ (fun _ => True)
      (fun p q => q.1 = p.1 ∧ Resized type p.2 q.2) (fun p => ⟨rfl, .refl _⟩) ?_ ?_
      (fun _ _ => trivial) hdeal).1
    · rintro p q r ⟨hpq, hR⟩ ⟨hqr, hR'⟩
      exact ⟨hqr.trans hpq, hR.trans hR'⟩
    · intro p q _ hq
      obtain ⟨htakes, hadjust, hedge⟩ := reply_eq_took.mp hq
      exact ⟨trivial, hedge, adjustBy_resized (Bool.and_eq_true_iff.mp htakes).1 hadjust⟩
  rw [hunits hsolid' hspan', hunits hsolid hspan, hps]
  refine (reply_metered (w := w)).deal_units (fun p hp => ?_) hdeal
  have hp := mem_of_mem_withEdges hp
  cases hsolid with
  | node _ hsolid => exact ⟨(hsolid p.2 hp).populated, (span_le_of_mem hp).trans_lt hspan⟩

/-! ### Resizing -/

theorem exists_signed (change : Int) : ∃ grow k, change = signed grow k := by
  rcases Int.le_total 0 change with h | h
  · exact ⟨true, change.toNat, (Int.toNat_of_nonneg h).symm⟩
  · exact ⟨false, (-change).toNat, by rw [signed_false]; omega⟩

/-- A layout of tiled panes that is accepted without wrapping around takes every change that
`layout_resize_check` promises and that the root's size has room for. -/
theorem layoutResizeAdjust_exact (w : WindowOptions) (root : LayoutCell) (hfloat : FloatFree root)
    (hcheck : layoutCheck root) (hwrap : NoWrap root) (type : LayoutType) (change : Int)
    (hlow : -((layoutResizeCheck w .root root type).toNat : Int) ≤ change)
    (hhigh : (root.size type).toNat + change < 2 ^ 32) :
    ∃ root', Returns (fun fuel => layoutResizeAdjust w type fuel .root root change) root' ∧
      layoutCheck root' ∧ forgetSizes type root' = forgetSizes type root ∧
      ((root'.size type).toNat : Int) = (root.size type).toNat + change ∧
      LeavesKept w type (.root, root) (.root, root') ∧
      (change < 0 → (∃ g cells, root = .node type g cells) →
        ((layoutResizeCheck w .root root' type).toNat : Int) =
          (layoutResizeCheck w .root root type).toNat + change) := by
  have hsolid := hfloat.solid hwrap
  have hexact := flowExact_of_layoutCheck hsolid hwrap hcheck
  obtain ⟨grow, k, rfl⟩ := exists_signed change
  have hfits : Fits w grow type k .root root := by
    cases grow with
    | true =>
        rw [signed_true] at hhigh
        rw [Fits, if_pos rfl]
        omega
    | false =>
        rw [signed_false] at hlow
        rw [Fits, if_neg Bool.false_ne_true]
        omega
  have hsome : (adjustBy w grow type k .root root).isSome := by
    cases grow with
    | true => exact adjustBy_grow_isSome .root root
    | false =>
        rw [Fits, if_neg Bool.false_ne_true] at hfits
        exact hsolid.adjustBy_isSome hexact hfits
  obtain ⟨root', hroot'⟩ := Option.isSome_iff_exists.mp hsome
  have hresized := adjustBy_resized hsolid.inFlow hroot'
  have hsolid' := hsolid.resized hresized
  obtain ⟨hexact', hsize⟩ :=
    adjustBy_flowExact (fun _ _ => Nat.zero_le _) hsolid.inFlow hroot' hexact hfits
  refine ⟨root', returns_layoutResizeAdjust hroot', hexact'.layoutCheck hsolid',
    hresized.forgetSizes, hsize, adjustBy_leavesKept hsolid hroot' hexact hfits, ?_⟩
  rintro hneg ⟨g, cells, rfl⟩
  cases grow with
  | true =>
      rw [signed_true] at hneg
      omega
  | false =>
      cases hresized with
      | outside hout =>
          rw [hsolid.inFlow] at hout
          cases hout
      | node =>
          have hleft := layoutResizeCheck_adjustBy hsolid
            ((hsolid.span_le_size hexact).trans_lt (UInt32.toNat_lt _)) hsolid'
            ((hsolid'.span_le_size hexact').trans_lt (UInt32.toNat_lt _)) hroot'
          rw [signed_false]
          omega

/-- Three panes side by side, 14 columns wide. -/
def threePanes : LayoutCell :=
  .node .leftright ⟨14, 3, 0, 0⟩
    [.windowpane false (some 0) ⟨3, 3, 0, 0⟩, .windowpane false (some 1) ⟨1, 3, 4, 0⟩,
      .windowpane false (some 2) ⟨8, 3, 6, 0⟩]

theorem layoutResizeAdjust_exact_three :
    ∃ root', Returns (fun fuel => layoutResizeAdjust .plain .leftright fuel .root threePanes (-6))
        root' ∧
      layoutCheck root' ∧ forgetSizes .leftright root' = forgetSizes .leftright threePanes ∧
      ((root'.size .leftright).toNat : Int) = (threePanes.size .leftright).toNat + -6 ∧
      LeavesKept .plain .leftright (.root, threePanes) (.root, root') ∧
      ((-6 : Int) < 0 → (∃ g cells, threePanes = .node .leftright g cells) →
        ((layoutResizeCheck .plain .root root' .leftright).toNat : Int) =
          (layoutResizeCheck .plain .root threePanes .leftright).toNat + -6) :=
  layoutResizeAdjust_exact .plain threePanes
    (.node (by rintro c hc; fin_cases hc <;> exact .windowpane)) (by decide)
    (.node (by decide) (by decide) (by rintro c hc; fin_cases hc <;> exact .windowpane))
    .leftright (-6) (by decide) (by decide)

/-- A pane of the greatest size. -/
def widestPane : LayoutCell := .windowpane false (some 0) ⟨4294967295, 1, 0, 0⟩

/-- One of the greatest size and one of none: what `layout_check` adds up for them wraps
around to 1. -/
def wrappedPanes : LayoutCell :=
  .node .leftright ⟨0, 1, 0, 0⟩ [widestPane, .windowpane false (some 1) ⟨0, 1, 0, 0⟩]

/-- Where sizes wrap around a change is not exact, whether one is added or taken. -/
theorem layoutResizeAdjust_wraps :
    (∃ root', FloatFree widestPane ∧ layoutCheck widestPane ∧
      -((layoutResizeCheck .plain .root widestPane .leftright).toNat : Int) ≤ 1 ∧
      Returns (fun fuel => layoutResizeAdjust .plain .leftright fuel .root widestPane 1) root' ∧
      ((root'.size .leftright).toNat : Int) ≠ (widestPane.size .leftright).toNat + 1) ∧
    ∃ root', FloatFree wrappedPanes ∧ layoutCheck wrappedPanes ∧
      -((layoutResizeCheck .plain .root wrappedPanes .leftright).toNat : Int) ≤ -1 ∧
      Returns (fun fuel => layoutResizeAdjust .plain .leftright fuel .root wrappedPanes (-1))
        root' ∧
      ((root'.size .leftright).toNat : Int) ≠ (wrappedPanes.size .leftright).toNat + -1 := by
  refine ⟨⟨_, .windowpane, by decide, by decide, .of_succ ⟨0, fun fuel _ => rfl⟩, by decide⟩,
    .node .leftright ⟨4294967295, 1, 0, 0⟩ [.windowpane false (some 0) ⟨4294967294, 1, 0, 0⟩,
      .windowpane false (some 1) ⟨0, 1, 0, 0⟩], .node ?_, by decide, by decide,
    @returns_layoutResizeAdjust .plain false .leftright 1 .root _ _ rfl, by decide⟩
  intro c hc
  fin_cases hc <;> exact .windowpane

end Ztmux.Layout
