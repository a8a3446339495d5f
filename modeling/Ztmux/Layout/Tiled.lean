import Ztmux.Layout.Edit
import Ztmux.Layout.Supply

/-!
Tiled layouts.

A layout without floating cells is tiled when every node has at least two children
that fill it and no pane is smaller than `PANE_MINIMUM`. Splitting, destroying and
resizing keep a layout tiled, with the exception of a split whose size hint is out of
range.
-/

namespace Ztmux.Layout

open LayoutCell

/-- What cells side by side along `t` take up, each with a border. -/
def rowSum (t : LayoutType) (cells : List LayoutCell) : Nat :=
  (cells.map fun c => (c.size t).toNat + 1).sum

/-- A layout in which the panes fill the window exactly. -/
inductive Tiled : LayoutCell → Prop
  | windowpane {wp : Option Nat} {g : Geometry} : paneMinimum ≤ g.sx → paneMinimum ≤ g.sy →
      Tiled (.windowpane false wp g)
  | node {t : LayoutType} {g : Geometry} {cells : List LayoutCell} : 2 ≤ cells.length →
      (∀ c ∈ cells, Tiled c) → (∀ c ∈ cells, c.size t.across = g.size t.across) →
      rowSum t cells = (g.size t).toNat + 1 → Tiled (.node t g cells)

/-- Tiled cells that fill a node of type `t`. -/
structure TiledRow (t : LayoutType) (g : Geometry) (cells : List LayoutCell) : Prop where
  tiled : ∀ c ∈ cells, Tiled c
  across : ∀ c ∈ cells, c.size t.across = g.size t.across
  along : rowSum t cells = (g.size t).toNat + 1

variable {w : WindowOptions} {type : LayoutType}

theorem tiled_node_iff {t : LayoutType} {g : Geometry} {cells : List LayoutCell} :
    Tiled (.node t g cells) ↔ 2 ≤ cells.length ∧ TiledRow t g cells := by
  constructor
  · rintro (_ | ⟨hlen, htiled, hacross, halong⟩)
    exact ⟨hlen, htiled, hacross, halong⟩
  · rintro ⟨hlen, h⟩
    exact .node hlen h.tiled h.across h.along

theorem Tiled.solid {c : LayoutCell} (h : Tiled c) : Solid c := by
  induction c with
  | windowpane floating wp g => cases h; exact .windowpane
  | node t g cells ih =>
      obtain ⟨hlen, hrow⟩ := tiled_node_iff.mp h
      refine .node ?_ fun c hc => ih c hc (hrow.tiled c hc)
      rintro rfl
      cases hlen

theorem extent_eq_rowSum {t : LayoutType} {cells : List LayoutCell}
    (h : ∀ c ∈ cells, inFlow c) : extent t cells = rowSum t cells := by
  rw [extent, rowSum]
  exact congrArg List.sum (List.map_congr_left fun c hc => by rw [if_pos (h c hc)])

theorem Tiled.flowExact {c : LayoutCell} (h : Tiled c) : FlowExact 1 c := by
  induction c with
  | windowpane floating wp g =>
      cases h with
      | windowpane hx hy =>
          refine .windowpane fun _ type => ?_
          cases type
          · exact hx
          · exact hy
  | node t g cells ih =>
      obtain ⟨-, hrow⟩ := tiled_node_iff.mp h
      refine .node (fun c hc => ih c hc (hrow.tiled c hc)) fun _ =>
        ⟨fun c hc _ => hrow.across c hc, ?_⟩
      rw [extent_eq_rowSum fun c hc => (hrow.tiled c hc).solid.inFlow, hrow.along]

theorem Tiled.resized {c c' : LayoutCell} (h : Tiled c) (hR : Resized type c c')
    (hexact : FlowExact 1 c') : Tiled c' := by
  revert h hexact
  refine hR.induct (P := fun c c' => Tiled c → FlowExact 1 c' → Tiled c') (fun _ h _ => h) ?_ ?_
  · intro wp g change _ hexact
    cases hexact with
    | windowpane hmin => exact .windowpane (hmin rfl .leftright) (hmin rfl .topbottom)
  · intro t g change cells cells' hany hcells h hexact
    obtain ⟨hlen, hrow⟩ := tiled_node_iff.mp h
    cases hexact with
    | node hchild hfill =>
        have htiled : ∀ c' ∈ cells', Tiled c' := fun c' hc' => by
          obtain ⟨c, hc, -, hcc⟩ := Lists.exists_of_mem_right hcells hc'
          exact hcc (hrow.tiled c hc) (hchild c' hc')
        have hflow : ∀ c' ∈ cells', inFlow c' := fun c' hc' => (htiled c' hc').solid.inFlow
        have hlen' : 2 ≤ cells'.length := by rwa [← hcells.length_eq]
        obtain ⟨c', hc'⟩ := List.exists_mem_of_length_pos (show 0 < cells'.length by omega)
        have hF := hfill (List.any_eq_true.mpr ⟨c', hc', hflow c' hc'⟩)
        exact tiled_node_iff.mpr ⟨hlen', htiled, fun c hc => hF.across c hc (hflow c hc),
          by rw [← extent_eq_rowSum hflow, hF.along]⟩

theorem Tiled.grow (e : Edge) {k : Nat} {c : LayoutCell} (h : Tiled c)
    (hk : (c.size type).toNat + k < 2 ^ 32) :
    ∃ c', Returns (fun fuel => layoutResizeAdjust w type fuel e c k) c' ∧ Tiled c' ∧
      Resized type c c' ∧ (c'.size type).toNat = (c.size type).toNat + k := by
  obtain ⟨c', hc'⟩ := Option.isSome_iff_exists.mp
    (@adjustBy_grow_isSome w type k e c)
  have hR := adjustBy_resized h.solid.inFlow hc'
  obtain ⟨hexact, hsize⟩ := adjustBy_flowExact (m := 1) (by simp) h.solid.inFlow hc' h.flowExact
    (by rwa [Fits, if_pos rfl])
  refine ⟨c', returns_layoutResizeAdjust hc', h.resized hR hexact, hR, ?_⟩
  rw [signed_true] at hsize
  omega

theorem Tiled.shrink (hw : w.Bare) (e : Edge) {k : Nat} {c : LayoutCell} (h : Tiled c)
    (hk : k ≤ (layoutResizeCheck w e c type).toNat) :
    ∃ c', Returns (fun fuel => layoutResizeAdjust w type fuel e c (-k)) c' ∧ Tiled c' ∧
      Resized type c c' ∧ (c'.size type).toNat + k = (c.size type).toNat := by
  obtain ⟨c', hc'⟩ := Option.isSome_iff_exists.mp (h.solid.adjustBy_isSome h.flowExact hk)
  have hR := adjustBy_resized h.solid.inFlow hc'
  obtain ⟨hexact, hsize⟩ := adjustBy_flowExact (m := 1)
    (fun _ e => by rw [leafMinimum_bare hw]; exact le_rfl) h.solid.inFlow hc' h.flowExact
    (by rwa [Fits, if_neg (by simp)])
  refine ⟨c', returns_layoutResizeAdjust hc', h.resized hR hexact, hR, ?_⟩
  rw [signed_false] at hsize
  omega

theorem Tiled.check_le_size {e : Edge} {c : LayoutCell} (h : Tiled c) :
    (layoutResizeCheck w e c type).toNat ≤ (c.size type).toNat :=
  (layoutResizeCheck_le_span h.solid.populated).trans (h.solid.span_le_size h.flowExact)

/-! ### Rows -/

theorem rowSum_set {t : LayoutType} {cells : List LayoutCell} {i : Nat} {c : LayoutCell}
    (hi : cells[i]? = some c) (c' : LayoutCell) :
    rowSum t (cells.set i c') + ((c.size t).toNat + 1) =
      rowSum t cells + ((c'.size t).toNat + 1) := by
  rw [rowSum, List.map_set, rowSum]
  exact Lists.sum_set_add (by rw [List.getElem?_map, hi]; rfl) _

theorem rowSum_append {t : LayoutType} (cells cells' : List LayoutCell) :
    rowSum t (cells ++ cells') = rowSum t cells + rowSum t cells' := by
  simp [rowSum]

theorem size_add_size_le {t : LayoutType} {cells : List LayoutCell} {i j : Nat}
    {c d : LayoutCell} (hi : cells[i]? = some c) (hj : cells[j]? = some d) (hij : i ≠ j) :
    (c.size t).toNat + 1 + ((d.size t).toNat + 1) ≤ rowSum t cells :=
  Lists.add_le_sum (i := i) (j := j) (by rw [List.getElem?_map, hi]; rfl)
    (by rw [List.getElem?_map, hj]; rfl) hij

theorem TiledRow.size_le {t : LayoutType} {g : Geometry} {cells : List LayoutCell}
    (h : TiledRow t g cells) {c : LayoutCell} (hc : c ∈ cells) :
    (c.size t).toNat ≤ (g.size t).toNat := by
  have hle : (c.size t).toNat + 1 ≤ rowSum t cells :=
    Lists.le_sum_of_mem (List.mem_map_of_mem (f := fun c => (c.size t).toNat + 1) hc)
  rw [h.along] at hle
  omega

/-- Every size in a tiled layout is a size of the window or less. -/
theorem TiledRow.size_le_size {t : LayoutType} {g : Geometry} {cells : List LayoutCell}
    (h : TiledRow t g cells) {c : LayoutCell} (hc : c ∈ cells) (type : LayoutType) :
    (c.size type).toNat ≤ (g.size type).toNat := by
  by_cases ht : t = type
  · subst ht
    exact h.size_le hc
  · obtain rfl := LayoutType.eq_across_of_ne ht
    rw [h.across c hc]

theorem returns_adjustSibling {t : LayoutType} {ps : List (Edge × LayoutCell)} {i : Nat}
    {p : Edge × LayoutCell} {change : Int} {c' : LayoutCell} (hi : ps[i]? = some p)
    (h : Returns (fun fuel => layoutResizeAdjust w t fuel p.1 p.2 change) c') :
    Returns (fun fuel => adjustSibling w fuel t ps i change) (ps.set i (p.1, c')) := by
  have heq : (fun fuel => adjustSibling w fuel t ps i change) = fun fuel =>
      layoutResizeAdjust w t fuel p.1 p.2 change >>= fun c => .ok (ps.set i (p.1, c)) := by
    funext fuel
    rw [adjustSibling, hi]
    rfl
  rw [heq]
  exact h.bind (g := fun _ c => .ok (ps.set i (p.1, c))) (returns_pure _)

/-- Moving space between two siblings. -/
theorem TiledRow.transfer (hw : w.Bare) {t : LayoutType} {g : Geometry}
    {ps : List (Edge × LayoutCell)} {a b : Nat} {p q : Edge × LayoutCell} {size : UInt32}
    (h : TiledRow t g (ps.map Prod.snd)) (ha : ps[a]? = some p) (hb : ps[b]? = some q)
    (hab : a ≠ b) (hsize : size.toNat ≤ (available w t q).toNat)
    (hsmall : (g.size t).toNat < 2 ^ 31) :
    ∃ ps', Returns (fun fuel => Layout.transfer w fuel t ps a b size) (ps', (size.toNat : Int)) ∧
      TiledRow t g (ps'.map Prod.snd) ∧ ps'.length = ps.length := by
  have ha' : (ps.map Prod.snd)[a]? = some p.2 := by rw [List.getElem?_map, ha]; rfl
  have hb' : (ps.map Prod.snd)[b]? = some q.2 := by rw [List.getElem?_map, hb]; rfl
  have hp := h.tiled p.2 (List.mem_of_getElem? ha')
  have hq := h.tiled q.2 (List.mem_of_getElem? hb')
  have hle : size.toNat ≤ (q.2.size t).toNat := hsize.trans hq.check_le_size
  have hsum := size_add_size_le (t := t) ha' hb' hab
  rw [h.along] at hsum
  have hsigned : asI32 size = size.toNat := asI32_of_lt (by omega)
  obtain ⟨c, hc, hctiled, hcR, hcsize⟩ := @Tiled.grow w t p.1 size.toNat _ hp (by omega)
  obtain ⟨d, hd, hdtiled, hdR, hdsize⟩ := @Tiled.shrink w t hw q.1 _ _ hq hsize
  have hb₁ : (ps.set a (p.1, c))[b]? = some q := by rw [List.getElem?_set_ne hab, hb]
  refine ⟨(ps.set a (p.1, c)).set b (q.1, d), ?_, ⟨fun x hx => ?_, fun x hx => ?_, ?_⟩, by simp⟩
  · have hneg : wrapI32 (-(size.toNat : Int)) = -size.toNat := wrapI32_of_lt (by omega) (by omega)
    simp only [Layout.transfer, hsigned, hneg]
    exact (returns_adjustSibling ha hc).bind
      (g := fun fuel ps => adjustSibling w fuel t ps b (-size.toNat) >>=
        fun ps => .ok (ps, (size.toNat : Int)))
      ((returns_adjustSibling hb₁ hd).bind
        (g := fun _ ps => .ok (ps, (size.toNat : Int))) (returns_pure _))
  · rw [List.map_set, List.map_set] at hx
    rcases List.mem_or_eq_of_mem_set hx with hx | rfl
    · rcases List.mem_or_eq_of_mem_set hx with hx | rfl
      · exact h.tiled x hx
      · exact hctiled
    · exact hdtiled
  · rw [List.map_set, List.map_set] at hx
    rcases List.mem_or_eq_of_mem_set hx with hx | rfl
    · rcases List.mem_or_eq_of_mem_set hx with hx | rfl
      · exact h.across x hx
      · rw [hcR.size_across, h.across _ (List.mem_of_getElem? ha')]
    · rw [hdR.size_across, h.across _ (List.mem_of_getElem? hb')]
  · rw [List.map_set, List.map_set]
    have h1 := rowSum_set (t := t) ha' c
    have h2 := @rowSum_set t ((ps.map Prod.snd).set a c) b q.2
      (by rw [List.getElem?_set_ne hab, hb']) d
    have h3 := h.along
    dsimp only at h1 h2 ⊢
    omega

theorem toNat_ofInt_nonneg {x : Int} (h0 : 0 ≤ x) (h : x < 2 ^ 32) :
    (UInt32.ofInt x).toNat = x.toNat := by
  have := toNat_ofInt_of_lt h0 h
  omega

/-- A transfer of at most `limit` from a sibling that has something. -/
theorem TiledRow.transfer_le (hw : w.Bare) {t : LayoutType} {g : Geometry}
    {ps : List (Edge × LayoutCell)} {a b : Nat} {q : Edge × LayoutCell} {limit : Int}
    (h : TiledRow t g (ps.map Prod.snd)) (ha : a < ps.length) (hb : ps[b]? = some q)
    (hab : a ≠ b) (h0 : 0 ≤ limit) (hlimit : limit ≤ 2 ^ 31)
    (hsmall : (g.size t).toNat < 2 ^ 31) :
    ∃ ps' size, Returns (fun fuel => Layout.transfer w fuel t ps a b
        (if UInt32.ofInt limit < available w t q then UInt32.ofInt limit else available w t q))
        (ps', size) ∧ 0 ≤ size ∧ size ≤ limit ∧
      TiledRow t g (ps'.map Prod.snd) ∧ ps'.length = ps.length := by
  have hlim := toNat_ofInt_nonneg h0 (by omega)
  have hle : (if UInt32.ofInt limit < available w t q then UInt32.ofInt limit
      else available w t q).toNat ≤ (available w t q).toNat := by
    split
    · exact Nat.le_of_lt ‹_›
    · exact le_rfl
  obtain ⟨ps', hret, hrow, hlen⟩ :=
    h.transfer hw (List.getElem?_eq_getElem ha) hb hab hle hsmall
  refine ⟨ps', _, hret, by omega, ?_, hrow, hlen⟩
  split
  · omega
  · have : (available w t q).toNat ≤ (UInt32.ofInt limit).toNat := Nat.not_lt.mp ‹_›
    omega

theorem TiledRow.layoutResizePaneGrow (hw : w.Bare) {t : LayoutType} {g : Geometry}
    {ps : List (Edge × LayoutCell)} {i : Nat} {needed : Int} (opposite : Bool)
    (h : TiledRow t g (ps.map Prod.snd)) (hi : i < ps.length) (h0 : 0 ≤ needed)
    (hneeded : needed < 2 ^ 31) (hsmall : (g.size t).toNat < 2 ^ 31) :
    ∃ ps' size, Returns (fun fuel => Layout.layoutResizePaneGrow w fuel t ps i needed opposite)
        (ps', size) ∧ 0 ≤ size ∧ size ≤ needed ∧
      TiledRow t g (ps'.map Prod.snd) ∧ ps'.length = ps.length := by
  cases hd : growDonor w t ps i opposite with
  | none =>
      refine ⟨ps, 0, ?_, le_rfl, h0, h, rfl⟩
      simp only [Layout.layoutResizePaneGrow, hd]
      exact returns_pure _
  | some b =>
      have hdonor : b ≠ i ∧ ∃ q, ps[b]? = some q := by
        rcases Option.or_eq_some_iff.mp hd with hd | ⟨-, hd⟩
        · obtain ⟨hlt, q, hq, -⟩ := donorTail_eq_some hd
          exact ⟨by omega, q, hq⟩
        · split at hd
          · obtain ⟨hlt, q, hq, -⟩ := donorHead_eq_some hi.le hd
            exact ⟨by omega, q, hq⟩
          · cases hd
      obtain ⟨hne, q, hq⟩ := hdonor
      simp only [Layout.layoutResizePaneGrow, hd, hq]
      exact h.transfer_le hw hi hq hne.symm h0 hneeded.le hsmall

theorem TiledRow.layoutResizePaneShrink (hw : w.Bare) {t : LayoutType} {g : Geometry}
    {ps : List (Edge × LayoutCell)} {i : Nat} {needed : Int}
    (h : TiledRow t g (ps.map Prod.snd)) (hi : i + 1 < ps.length) (h0 : needed ≤ 0)
    (hneeded : -2 ^ 31 ≤ needed) (hsmall : (g.size t).toNat < 2 ^ 31) :
    ∃ ps' size, Returns (fun fuel => Layout.layoutResizePaneShrink w fuel t ps i needed)
        (ps', size) ∧ 0 ≤ size ∧ size ≤ -needed ∧
      TiledRow t g (ps'.map Prod.snd) ∧ ps'.length = ps.length := by
  cases hd : donorHead w t ps (i + 1) with
  | none =>
      refine ⟨ps, 0, ?_, le_rfl, by omega, h, rfl⟩
      simp only [Layout.layoutResizePaneShrink, hd]
      exact returns_pure _
  | some b =>
      obtain ⟨hlt, q, hq, -⟩ := donorHead_eq_some hi.le hd
      simp only [Layout.layoutResizePaneShrink, hd, hq, if_pos hi]
      exact h.transfer_le hw hi hq (by omega) (by omega) (by omega) hsmall

/-- What may still be needed: it has the sign of the change. -/
def Needed (change needed : Int) : Prop :=
  if 0 < change then 0 ≤ needed ∧ needed < 2 ^ 31 else -2 ^ 31 ≤ needed ∧ needed ≤ 0

theorem TiledRow.resizeRound (hw : w.Bare) {t : LayoutType} {g : Geometry}
    {ps : List (Edge × LayoutCell)} {i : Nat} {change needed : Int} (opposite : Bool)
    (h : TiledRow t g (ps.map Prod.snd)) (hi : i + 1 < ps.length) (hneeded : Needed change needed)
    (hsmall : (g.size t).toNat < 2 ^ 31) :
    ∃ ps' size, Returns (fun fuel => Layout.resizeRound w t i change opposite fuel ps needed)
        (ps', size) ∧ 0 ≤ size ∧ size ≤ |needed| ∧
      TiledRow t g (ps'.map Prod.snd) ∧ ps'.length = ps.length := by
  rw [Needed] at hneeded
  simp only [Layout.resizeRound]
  split_ifs at hneeded ⊢
  · rw [abs_of_nonneg hneeded.1]
    exact h.layoutResizePaneGrow hw opposite (by omega) hneeded.1 hneeded.2 hsmall
  · rw [abs_of_nonpos hneeded.2]
    exact h.layoutResizePaneShrink hw hi hneeded.2 hneeded.1 hsmall

/-- Resizing a child of a tiled row. What is still needed gets less each time round. -/
theorem TiledRow.resizeSibling (hw : w.Bare) {t : LayoutType} {g : Geometry}
    {ps : List (Edge × LayoutCell)} {i : Nat} {change needed : Int} (opposite : Bool)
    (h : TiledRow t g (ps.map Prod.snd)) (hi : i + 1 < ps.length) (hneeded : Needed change needed)
    (hsmall : (g.size t).toNat < 2 ^ 31) :
    ∃ ps', Returns (fun fuel => Layout.resizeSibling w t i change opposite fuel ps needed) ps' ∧
      TiledRow t g (ps'.map Prod.snd) ∧ ps'.length = ps.length := by
  induction hn : needed.natAbs using Nat.strong_induction_on generalizing ps needed with
  | _ n ih =>
      by_cases hzero : needed = 0
      · subst hzero
        refine ⟨ps, Returns.of_succ ?_, h, rfl⟩
        simp only [Layout.resizeSibling, if_true]
        exact returns_pure _
      · obtain ⟨ps₁, size, hret, hs0, hsle, hrow, hlen⟩ :=
          h.resizeRound hw opposite hi hneeded hsmall
        have hbind := fun {qs} => hret.bind (b := qs) (g := fun fuel r =>
          if r.2 = 0 then pure r.1 else Layout.resizeSibling w t i change opposite fuel r.1
            (wrapI32 (if 0 < change then needed - r.2 else needed + r.2)))
        by_cases hstop : size = 0
        · refine ⟨ps₁, Returns.of_succ ?_, hrow, hlen⟩
          simp only [resizeSibling_succ _ _ _ _ _ _ hzero]
          refine hbind ?_
          simp only [if_pos hstop]
          exact returns_pure _
        · have hrest : Needed change (if 0 < change then needed - size else needed + size) ∧
              (if 0 < change then needed - size else needed + size).natAbs < n := by
            rw [Needed] at hneeded ⊢
            rw [abs_eq_max_neg] at hsle
            split_ifs at hneeded ⊢ <;> omega
          have hwrap := wrapI32_of_lt
            (x := if 0 < change then needed - size else needed + size)
            (by have := hrest.1; rw [Needed] at this; split_ifs at this ⊢ <;> omega)
            (by have := hrest.1; rw [Needed] at this; split_ifs at this ⊢ <;> omega)
          obtain ⟨ps₂, hret₂, hrow₂, hlen₂⟩ := ih _ hrest.2 hrow (by omega) hrest.1 rfl
          refine ⟨ps₂, Returns.of_succ ?_, hrow₂, by omega⟩
          simp only [resizeSibling_succ _ _ _ _ _ _ hzero]
          refine hbind ?_
          simp only [if_neg hstop, hwrap]
          exact hret₂

end Ztmux.Layout
