import Ztmux.Layout.Custom
import Ztmux.Layout.Flow

/-!
Spreading the panes of a node evenly.

Only children that are panes are counted and resized, but the size they share is the
whole size of the node. What the other children take up with their borders comes on
top of it.
-/

namespace Ztmux.Layout

open LayoutCell

/-- The number of children that are tiled panes. -/
def spreadNumber (cells : List LayoutCell) : UInt32 :=
  UInt32.ofNat (cells.countP layoutCellIsTiled)

/-- The size that is shared out. -/
def spreadSize (w : WindowOptions) (e : Edge) (t : LayoutType) (g : Geometry) : UInt32 :=
  match t with
  | .leftright => g.sx
  | .topbottom => if layoutAddBorder w e then g.sy - 1 else g.sy

def spreadEach (size number : UInt32) : UInt32 := (size - (number - 1)) / number

/-- How many panes get one more. The source says that it may pass below zero on the way. -/
def spreadRemainder (size number each : UInt32) : UInt32 := size - number * (each + 1) + 1

/-- The change of a pane of size `size`. -/
def spreadChange (w : WindowOptions) (e : Edge) (t : LayoutType) (each remainder size : UInt32) :
    Int :=
  match t with
  | .leftright =>
      let change := wrapI32 (asI32 each - asI32 size)
      if 0 < remainder then wrapI32 (change + 1) else change
  | .topbottom =>
      let this := if layoutAddBorder w e then each + 1 else each
      let this := if 0 < remainder then this + 1 else this
      wrapI32 (asI32 this - asI32 size)

/-- The loop over the children; the flag says whether any was changed. -/
def spreadCells (w : WindowOptions) (fuel : Nat) (t : LayoutType) (each : UInt32) :
    List (Edge × LayoutCell) → UInt32 → Exec (List LayoutCell × Bool)
  | [], _ => pure ([], false)
  | (e, c) :: cells, remainder =>
      if !layoutCellIsTiled c then do
        let (cells, changed) ← spreadCells w fuel t each cells remainder
        pure (c :: cells, changed)
      else do
        let change := spreadChange w e t each remainder (c.size t)
        let c ← layoutResizeAdjust w t fuel e c change
        let (cells, changed) ← spreadCells w fuel t each cells
          (if 0 < remainder then remainder - 1 else remainder)
        pure (c :: cells, change != 0 || changed)

/-- Spread the panes of a node evenly within it. -/
def layoutSpreadCell (w : WindowOptions) (fuel : Nat) (e : Edge) :
    LayoutCell → Exec (LayoutCell × Bool)
  | .windowpane floating wp g => pure (.windowpane floating wp g, false)
  | .node t g cells =>
      let number := spreadNumber cells
      let size := spreadSize w e t g
      if number ≤ 1 then pure (.node t g cells, false)
      else if size < number - 1 then pure (.node t g cells, false)
      else
        let each := spreadEach size number
        if each = 0 then pure (.node t g cells, false)
        else do
          let (cells, changed) ← spreadCells w fuel t each (withEdges e t cells)
            (spreadRemainder size number each)
          pure (.node t g cells, changed)

/-- Spread the node at a path. -/
def spreadAt (w : WindowOptions) (fuel : Nat) : List Nat → Edge → LayoutCell →
    Exec (LayoutCell × Bool)
  | [], e, c => layoutSpreadCell w fuel e c
  | _ :: _, _, .windowpane _ _ _ => throw .nullPointer
  | i :: path, e, .node t g cells =>
      match cells[i]? with
      | none => throw .nullPointer
      | some c => do
          let (c, changed) ← spreadAt w fuel path (e.child t cells i) c
          pure (.node t g (cells.set i c), changed)

/-! ### What layout_check adds up -/

/-- What cells take up with a border after each, as `layout_check` adds it up. -/
def checkSum (t : LayoutType) (cells : List LayoutCell) : UInt32 :=
  (cells.map fun c => c.size t + 1).sum

@[simp] theorem checkSum_nil (t : LayoutType) : checkSum t [] = 0 := rfl

@[simp] theorem checkSum_cons (t : LayoutType) (c : LayoutCell) (cells : List LayoutCell) :
    checkSum t (c :: cells) = c.size t + 1 + checkSum t cells := by
  rw [checkSum, List.map_cons, List.sum_cons, checkSum]

theorem checkCells_iff {t : LayoutType} {g : Geometry} {n : UInt32} {cells : List LayoutCell} :
    checkCells t g n cells ↔
      (∀ c ∈ cells, c.size t.across = g.size t.across ∧ layoutCheck c) ∧
        n + checkSum t cells = g.size t + 1 := by
  induction cells generalizing n with
  | nil =>
      rw [checkCells, beq_iff_eq, checkSum_nil, add_zero, sub_eq_iff_eq_add]
      exact (and_iff_right fun c hc => by cases hc).symm
  | cons c cs ih =>
      rw [checkCells, Bool.and_eq_true, Bool.and_eq_true, ih, beq_iff_eq, List.forall_mem_cons,
        checkSum_cons, add_assoc n (c.size t + 1)]
      simp only [and_assoc]

theorem layoutCheck_node {t : LayoutType} {g : Geometry} {cells : List LayoutCell} :
    layoutCheck (.node t g cells) ↔
      (∀ c ∈ cells, c.size t.across = g.size t.across ∧ layoutCheck c) ∧
        checkSum t cells = g.size t + 1 := by
  rw [layoutCheck, checkCells_iff, zero_add]

theorem checkSum_append (t : LayoutType) (cells cells' : List LayoutCell) :
    checkSum t (cells ++ cells') = checkSum t cells + checkSum t cells' := by
  rw [checkSum, List.map_append, List.sum_append, checkSum, checkSum]

theorem layoutCheck_set {t : LayoutType} {g : Geometry} {cells : List LayoutCell} {i : Nat}
    {c c' : LayoutCell} (h : layoutCheck (.node t g cells)) (hi : cells[i]? = some c)
    (hsize : ∀ type, c'.size type = c.size type) :
    layoutCheck (.node t g (cells.set i c')) ↔ layoutCheck c' := by
  obtain ⟨hlt, rfl⟩ := List.getElem?_eq_some_iff.mp hi
  rw [layoutCheck_node] at h ⊢
  obtain ⟨hcells, hsum⟩ := h
  have hmem : c' ∈ cells.set i c' := List.mem_set hlt c'
  constructor
  · exact fun hset => (hset.1 c' hmem).2
  · intro hcheck
    refine ⟨fun x hx => ?_, ?_⟩
    · rcases List.mem_or_eq_of_mem_set hx with hx | rfl
      · exact hcells x hx
      · exact ⟨(hsize _).trans (hcells _ (List.getElem_mem hlt)).1, hcheck⟩
    · have hmap : (cells.set i c').map (fun c => c.size t + 1) = cells.map fun c =>
          c.size t + 1 := by
        apply List.ext_getElem
        · simp
        · intro j hj hj'
          rw [List.getElem_map, List.getElem_map, List.getElem_set]
          split_ifs with hij
          · subst hij
            rw [hsize]
          · rfl
      rw [checkSum, hmap]
      exact hsum

/-! ### One pane -/

/-- The cast of a size to `i32` keeps its bits. -/
theorem asI32_emod (n : UInt32) : asI32 n % 2 ^ 32 = n.toNat := by
  have hcond : asI32 n = if 2 * n.toNat < 2 ^ 32 then (n.toNat : Int) else n.toNat - 2 ^ 32 :=
    BitVec.toInt_eq_toNat_cond n.toBitVec
  have hlt := n.toNat_lt
  rw [hcond]
  split_ifs
  · exact Int.emod_eq_of_lt (by omega) (by omega)
  · omega

theorem wrapI32_emod (x : Int) : wrapI32 x % 2 ^ 32 = x % 2 ^ 32 := Int.bmod_emod

theorem addSize_congr {n : UInt32} {a b : Int} (h : a % 2 ^ 32 = b % 2 ^ 32) :
    addSize n a = addSize n b := by
  apply UInt32.toNat.inj
  rw [addSize, addSize, toNat_ofInt, toNat_ofInt, Int.add_emod, h, ← Int.add_emod]

theorem addSize_sub (n m : UInt32) : addSize n (asI32 m - asI32 n) = m := by
  apply UInt32.toNat.inj
  have hm := m.toNat_lt
  rw [addSize, toNat_ofInt, ← asI32_emod n, Int.emod_add_emod, add_sub_cancel, asI32_emod]
  rfl

/-- What a pane has after its change. -/
theorem addSize_spreadChange {w : WindowOptions} {e : Edge} {t : LayoutType}
    {each remainder : UInt32}
    (hw : w.paneBorderStatus = .off) (size : UInt32) :
    addSize size (spreadChange w e t each remainder size) =
      if 0 < remainder then each + 1 else each := by
  have hborder : layoutAddBorder w e = false := by
    rw [layoutAddBorder, hw]
  cases t with
  | leftright =>
      rw [spreadChange]
      split_ifs with h
      · have hnext : (wrapI32 (asI32 each - asI32 size) + 1) % 2 ^ 32 =
            (asI32 (each + 1) - asI32 size) % 2 ^ 32 := by
          have h1 := asI32_emod each
          have h2 := asI32_emod (each + 1)
          have h3 := wrapI32_emod (asI32 each - asI32 size)
          rw [UInt32.toNat_add] at h2
          have h4 : (1 : UInt32).toNat = 1 := rfl
          omega
        rw [addSize_congr ((wrapI32_emod _).trans hnext), addSize_sub]
      · rw [addSize_congr (wrapI32_emod _), addSize_sub]
  | topbottom =>
      rw [spreadChange, hborder]
      rw [addSize_congr (wrapI32_emod _), addSize_sub]
      rfl

/-! ### All panes -/

/-- What the children that are not panes take up. -/
def otherSum (t : LayoutType) (cells : List LayoutCell) : UInt32 :=
  checkSum t (cells.filter fun c => !layoutCellIsTiled c)

/-- A child before and after the node was spread along `t`. -/
def Spread (t : LayoutType) (c c' : LayoutCell) : Prop :=
  Resized t c c' ∧ (layoutCheck c → layoutCheck c')

theorem spread_refl (t : LayoutType) (c : LayoutCell) : Spread t c c := ⟨.refl c, id⟩

theorem eq_windowpane_of_tiled {c : LayoutCell} (h : layoutCellIsTiled c) :
    ∃ wp g, c = .windowpane false wp g := by
  cases c with
  | windowpane floating wp g =>
      cases floating with
      | false => exact ⟨wp, g, rfl⟩
      | true => cases h
  | node t g cells => cases h

theorem countP_cons_of_tiled {c : LayoutCell} {cells : List LayoutCell} (h : layoutCellIsTiled c) :
    spreadNumber (c :: cells) = spreadNumber cells + 1 := by
  rw [spreadNumber, List.countP_cons_of_pos h, UInt32.ofNat_add, spreadNumber]
  rfl

theorem toNat_ofNat_of_lt {n : Nat} (h : n < 2 ^ 32) : (UInt32.ofNat n).toNat = n := by
  rw [UInt32.toNat_ofNat']
  exact Nat.mod_eq_of_lt h

theorem toNat_sub_one {n : UInt32} (h : 0 < n) : (n - 1).toNat = n.toNat - 1 :=
  UInt32.toNat_sub_of_le _ _ (UInt32.lt_iff_toNat_lt.mp h)

/-- The loop gives every pane its share and the first ones one more. -/
theorem spreadCells_ok {w : WindowOptions} {t : LayoutType} {each : UInt32}
    (hw : w.paneBorderStatus = .off) {ps : List (Edge × LayoutCell)} {remainder : UInt32}
    (hrem : remainder.toNat ≤ (ps.map Prod.snd).countP layoutCellIsTiled) :
    ∃ cells changed,
      (∀ fuel, spreadCells w (fuel + 1) t each ps remainder = .ok (cells, changed)) ∧
      List.Forall₂ (Spread t) (ps.map Prod.snd) cells ∧
      checkSum t cells = spreadNumber (ps.map Prod.snd) * (each + 1) + remainder +
        otherSum t (ps.map Prod.snd) := by
  induction ps generalizing remainder with
  | nil =>
      obtain rfl : remainder = 0 := UInt32.toNat.inj (Nat.le_zero.mp hrem)
      refine ⟨[], false, fun _ => rfl, .nil, ?_⟩
      show (0 : UInt32) = 0 * (each + 1) + 0 + 0
      rw [zero_mul, add_zero, add_zero]
  | cons p ps ih =>
      obtain ⟨e, c⟩ := p
      rw [List.map_cons] at hrem ⊢
      by_cases hc : layoutCellIsTiled c
      · obtain ⟨wp, g, rfl⟩ := eq_windowpane_of_tiled hc
        have hrest : (if 0 < remainder then remainder - 1 else remainder).toNat ≤
            (ps.map Prod.snd).countP layoutCellIsTiled := by
          rw [List.countP_cons_of_pos hc] at hrem
          split_ifs with h
          · rw [toNat_sub_one h]
            omega
          · have h0 : ¬ 0 < remainder.toNat := h
            omega
        obtain ⟨cells, changed, hok, hcells, hsum⟩ := ih hrest
        refine ⟨.windowpane false wp (g.addSize t (spreadChange w e t each remainder (g.size t))) ::
          cells, spreadChange w e t each remainder (g.size t) != 0 || changed, ?_,
          .cons ⟨.windowpane wp g _, fun _ => rfl⟩ hcells, ?_⟩
        · intro fuel
          simp only [spreadCells, hc, Bool.not_true, Bool.false_eq_true, if_false]
          show (spreadCells w (fuel + 1) t each ps _ >>= _) = _
          rw [hok]
          rfl
        · have hother : otherSum t (.windowpane false wp g :: ps.map Prod.snd) =
              otherSum t (ps.map Prod.snd) := by
            rw [otherSum, List.filter_cons_of_neg (by rw [hc]; decide), otherSum]
          rw [checkSum_cons, size_windowpane, Geometry.size_addSize, addSize_spreadChange hw, hsum,
            hother, countP_cons_of_tiled hc]
          split_ifs with h
          · grind
          · obtain rfl : remainder = 0 := UInt32.toNat.inj (Nat.le_zero.mp (Nat.not_lt.mp h))
            grind
      · obtain ⟨cells, changed, hok, hcells, hsum⟩ := @ih remainder (by
          rwa [List.countP_cons_of_neg hc] at hrem)
        have hnot : (!layoutCellIsTiled c) = true := by
          rw [Bool.not_eq_true] at hc
          rw [hc]
          rfl
        refine ⟨c :: cells, changed, fun fuel => ?_, .cons (spread_refl t c) hcells, ?_⟩
        · rw [spreadCells, if_pos hnot, hok]
          rfl
        · have hnumber : spreadNumber (c :: ps.map Prod.snd) = spreadNumber (ps.map Prod.snd) := by
            rw [spreadNumber, List.countP_cons_of_neg hc, spreadNumber]
          have hother : otherSum t (c :: ps.map Prod.snd) =
              c.size t + 1 + otherSum t (ps.map Prod.snd) := by
            have hfilter := List.filter_cons_of_pos (p := fun c => !layoutCellIsTiled c)
              (l := ps.map Prod.snd) hnot
            rw [otherSum, hfilter, checkSum_cons, otherSum]
          rw [checkSum_cons, hsum, hnumber, hother]
          grind

/-- What is shared out, with the borders between the panes, is the size of the node. -/
theorem spread_shares {number : UInt32} (h0 : 0 < number) (size : UInt32) :
    number * (spreadEach size number + 1) + spreadRemainder size number (spreadEach size number) =
        size + 1 ∧
      spreadRemainder size number (spreadEach size number) < number := by
  refine ⟨?_, ?_⟩
  · rw [spreadRemainder]
    grind
  · have hdiv : number * spreadEach size number + (size - (number - 1)) % number =
        size - (number - 1) := by
      have hmul := Nat.div_add_mod (size - (number - 1)).toNat number.toNat
      have hlt := (size - (number - 1)).toNat_lt
      have hle : number.toNat * (spreadEach size number).toNat < 2 ^ 32 := by
        rw [spreadEach, UInt32.toNat_div]
        omega
      apply UInt32.toNat.inj
      rw [UInt32.toNat_add, UInt32.toNat_mul, Nat.mod_eq_of_lt hle, UInt32.toNat_mod, spreadEach,
        UInt32.toNat_div, hmul, Nat.mod_eq_of_lt hlt]
    have hmod : spreadRemainder size number (spreadEach size number) =
        (size - (number - 1)) % number := by
      rw [spreadRemainder]
      grind
    rw [hmod]
    exact UInt32.mod_lt _ h0

/-! ### The node -/

/-- Whether a node of size `size` is spread at all: it has two panes at least and a line or
column for each. -/
def Spreads (size : UInt32) (cells : List LayoutCell) : Prop :=
  1 < spreadNumber cells ∧ spreadNumber cells - 1 ≤ size ∧ spreadEach size (spreadNumber cells) ≠ 0

/-- What the panes share is all there is. -/
def SpreadFits (t : LayoutType) (g : Geometry) (cells : List LayoutCell) : Prop :=
  Spreads (g.size t) cells → otherSum t cells = 0

theorem spreadSize_off {w : WindowOptions} (hw : w.paneBorderStatus = .off) (e : Edge)
    (t : LayoutType) (g : Geometry) : spreadSize w e t g = g.size t := by
  have hborder : layoutAddBorder w e = false := by
    rw [layoutAddBorder, hw]
  cases t with
  | leftright => rfl
  | topbottom =>
      rw [spreadSize, hborder]
      rfl

theorem layoutSpreadCell_idle {w : WindowOptions} (hw : w.paneBorderStatus = .off) (fuel : Nat)
    (e : Edge) {t : LayoutType} {g : Geometry} {cells : List LayoutCell}
    (h : ¬ Spreads (g.size t) cells) :
    layoutSpreadCell w fuel e (.node t g cells) = .ok (.node t g cells, false) := by
  simp only [layoutSpreadCell, spreadSize_off hw]
  split_ifs with hnumber hsize heach
  · rfl
  · rfl
  · rfl
  · exact absurd ⟨UInt32.not_le.mp hnumber, UInt32.not_lt.mp hsize, heach⟩ h

theorem layoutSpreadCell_spread {w : WindowOptions} (hw : w.paneBorderStatus = .off) (e : Edge)
    {t : LayoutType} {g : Geometry} {cells : List LayoutCell} (h : Spreads (g.size t) cells) :
    ∃ cells' changed, (∀ fuel, layoutSpreadCell w (fuel + 1) e (.node t g cells) =
        .ok (.node t g cells', changed)) ∧
      List.Forall₂ (Spread t) cells cells' ∧
      checkSum t cells' = g.size t + 1 + otherSum t cells := by
  obtain ⟨hnumber, hsize, heach⟩ := h
  have hpos : 0 < spreadNumber cells := by
    rw [UInt32.lt_iff_toNat_lt] at hnumber ⊢
    exact (Nat.zero_le _).trans_lt hnumber
  obtain ⟨hshares, hrem⟩ := spread_shares hpos (g.size t)
  have hle : (spreadRemainder (g.size t) (spreadNumber cells)
      (spreadEach (g.size t) (spreadNumber cells))).toNat ≤
        ((withEdges e t cells).map Prod.snd).countP layoutCellIsTiled := by
    rw [map_snd_withEdges]
    calc _ ≤ (spreadNumber cells).toNat := (UInt32.lt_iff_toNat_lt.mp hrem).le
      _ ≤ cells.countP layoutCellIsTiled := by
        rw [spreadNumber, UInt32.toNat_ofNat']
        exact Nat.mod_le _ _
  obtain ⟨cells', changed, hok, hcells, hsum⟩ :=
    @spreadCells_ok w t (spreadEach (g.size t) (spreadNumber cells)) hw _ _ hle
  rw [map_snd_withEdges] at hcells hsum
  refine ⟨cells', changed, fun fuel => ?_, hcells, by rw [hsum, hshares]⟩
  simp only [layoutSpreadCell, spreadSize_off hw, if_neg (UInt32.not_le.mpr hnumber),
    if_neg (UInt32.not_lt.mpr hsize), if_neg heach]
  rw [hok]
  rfl

theorem layoutSpreadCell_check {w : WindowOptions} (hw : w.paneBorderStatus = .off) (e : Edge)
    {t : LayoutType} {g : Geometry} {cells : List LayoutCell} (h : layoutCheck (.node t g cells)) :
    ∃ c changed, (∀ fuel, layoutSpreadCell w (fuel + 1) e (.node t g cells) = .ok (c, changed)) ∧
      (∀ type, c.size type = g.size type) ∧ (layoutCheck c ↔ SpreadFits t g cells) := by
  by_cases hspreads : Spreads (g.size t) cells
  · obtain ⟨cells', changed, hok, hcells, hsum⟩ := layoutSpreadCell_spread hw e hspreads
    refine ⟨_, changed, hok, fun _ => rfl, ?_⟩
    have hchildren : ∀ c' ∈ cells', c'.size t.across = g.size t.across ∧ layoutCheck c' := by
      intro c' hc'
      obtain ⟨c, hc, hresized, hcheck⟩ := Lists.exists_of_mem_right hcells hc'
      obtain ⟨hacross, hold⟩ := (layoutCheck_node.mp h).1 c hc
      exact ⟨hresized.size_across.trans hacross, hcheck hold⟩
    rw [layoutCheck_node, and_iff_right hchildren, hsum, add_eq_left, SpreadFits]
    exact (imp_iff_right hspreads).symm
  · refine ⟨_, _, fun fuel => layoutSpreadCell_idle hw _ e hspreads, fun _ => rfl, ?_⟩
    exact iff_of_true h fun hyes => absurd hyes hspreads

theorem spreadAt_ok {w : WindowOptions} (hw : w.paneBorderStatus = .off) {root : LayoutCell}
    (e : Edge) (h : layoutCheck root) {path : List Nat} {t : LayoutType} {g : Geometry}
    {cells : List LayoutCell} (hat : cellAt path root = some (.node t g cells)) :
    ∃ root' changed, (∀ fuel, spreadAt w (fuel + 1) path e root = .ok (root', changed)) ∧
      (∀ type, root'.size type = root.size type) ∧ (layoutCheck root' ↔ SpreadFits t g cells) := by
  induction path generalizing root e with
  | nil =>
      obtain rfl : root = .node t g cells := Option.some.inj hat
      exact layoutSpreadCell_check hw e h
  | cons i path ih =>
      cases root with
      | windowpane floating wp g => cases hat
      | node t' g' cs =>
          rw [cellAt] at hat
          cases hi : cs[i]? with
          | none =>
              rw [hi] at hat
              cases hat
          | some c =>
              rw [hi] at hat
              have hc := ((layoutCheck_node.mp h).1 c (List.mem_of_getElem? hi)).2
              obtain ⟨c', changed, hok, hsize, hcheck⟩ := ih (e.child t' cs i) hc hat
              refine ⟨.node t' g' (cs.set i c'), changed, fun fuel => ?_, fun _ => rfl, ?_⟩
              · simp only [spreadAt, hi]
                rw [hok]
                rfl
              · exact (layoutCheck_set h hi hsize).trans hcheck

/-- Spreading a node of a layout that fits leaves one that fits exactly where nothing but panes
has a part of what is shared out. -/
theorem spread_check_iff (w : WindowOptions) (hw : w.paneBorderStatus = .off) (root : LayoutCell)
    (h : layoutCheck root) (path : List Nat) (t : LayoutType) (g : Geometry)
    (cells : List LayoutCell) (hat : cellAt path root = some (.node t g cells)) :
    ∃ root' changed, Returns (fun fuel => spreadAt w fuel path .root root) (root', changed) ∧
      (layoutCheck root' ↔ SpreadFits t g cells) := by
  obtain ⟨root', changed, hok, -, hcheck⟩ := spreadAt_ok hw .root h hat
  exact ⟨root', changed, Returns.of_succ ⟨0, fun fuel _ => hok fuel⟩, hcheck⟩

/-- Two panes and a node side by side, 11 columns wide. -/
def twoPanesAndNode : LayoutCell :=
  .node .leftright ⟨11, 3, 0, 0⟩
    [.windowpane false (some 0) ⟨3, 3, 0, 0⟩, .windowpane false (some 1) ⟨3, 3, 4, 0⟩,
      .node .topbottom ⟨3, 3, 8, 0⟩
        [.windowpane false (some 2) ⟨3, 1, 8, 0⟩, .windowpane false (some 3) ⟨3, 1, 8, 2⟩]]

theorem spread_check_idle :
    ∃ root' changed, Returns (fun fuel => spreadAt .plain fuel [2] .root twoPanesAndNode)
        (root', changed) ∧ layoutCheck root' := by
  obtain ⟨root', changed, hok, hcheck⟩ :=
    spread_check_iff .plain rfl twoPanesAndNode (by decide) [2] _ _ _ rfl
  exact ⟨root', changed, hok, hcheck.mpr fun _ => rfl⟩

/-- Each of the two panes gets 5 columns, and the node keeps its 3. -/
theorem spread_overfills :
    ∃ root', layoutCheck twoPanesAndNode ∧
      spreadAt .plain 1 [] .root twoPanesAndNode = .ok (root', true) ∧ ¬ layoutCheck root' :=
  ⟨_, by decide, rfl, by decide⟩

end Ztmux.Layout
