import Ztmux.Layout.Tiled
import Ztmux.Layout.Termination
import Ztmux.Layout.Offsets

/-!
Runs of operations on a tiled layout.
-/

namespace Ztmux.Layout

open LayoutCell

variable {w : WindowOptions} {type : LayoutType}

/-- The sizes of a layout are ones that the source's casts to `i32` keep. -/
def Small (c : LayoutCell) : Prop := ∀ type, (c.size type).toNat < 2 ^ 31

theorem TiledRow.small {t : LayoutType} {g : Geometry} {cells : List LayoutCell}
    (h : TiledRow t g cells) (hs : ∀ type, (g.size type).toNat < 2 ^ 31) {c : LayoutCell}
    (hc : c ∈ cells) : Small c :=
  fun type => (h.size_le_size hc type).trans_lt (hs type)

theorem Resized.small {c c' : LayoutCell} (hR : Resized type c c') (h : Small c)
    (hsize : (c'.size type).toNat < 2 ^ 31) : Small c' := by
  intro type'
  by_cases ht : type = type'
  · exact ht ▸ hsize
  · obtain rfl := LayoutType.eq_across_of_ne ht
    rw [hR.size_across]
    exact h _

/-- Every cell of a tiled layout is tiled, and no larger than the layout. -/
theorem Tiled.subcell {path : List Nat} {c d : LayoutCell} (h : Tiled c)
    (hat : cellAt path c = some d) :
    Tiled d ∧ ∀ type, (d.size type).toNat ≤ (c.size type).toNat := by
  induction path generalizing c with
  | nil =>
      obtain rfl : c = d := by simpa [cellAt] using hat
      exact ⟨h, fun _ => le_rfl⟩
  | cons i path ih =>
      cases c with
      | windowpane floating wp g => cases hat
      | node t g cells =>
          rw [cellAt] at hat
          cases hi : cells[i]? with
          | none => rw [hi] at hat; cases hat
          | some x =>
              rw [hi] at hat
              obtain ⟨-, hrow⟩ := tiled_node_iff.mp h
              have hx := List.mem_of_getElem? hi
              obtain ⟨htiled, hle⟩ := ih (hrow.tiled x hx) hat
              exact ⟨htiled, fun type => (hle type).trans (hrow.size_le_size hx type)⟩

/-- A cell of a row is replaced by cells that together are of its size. -/
theorem TiledRow.splice {t : LayoutType} {g : Geometry} {cells cs : List LayoutCell} {i : Nat}
    {c : LayoutCell} (h : TiledRow t g cells) (hi : cells[i]? = some c)
    (htiled : ∀ c ∈ cs, Tiled c) (hacross : ∀ x ∈ cs, x.size t.across = c.size t.across)
    (hsum : rowSum t cs = (c.size t).toNat + 1) :
    TiledRow t g (cells.take i ++ cs ++ cells.drop (i + 1)) := by
  have hsplit : cells = cells.take i ++ [c] ++ cells.drop (i + 1) := by
    obtain ⟨hlt, rfl⟩ := List.getElem?_eq_some_iff.mp hi
    simp
  have hmem : ∀ x ∈ cells.take i ++ cs ++ cells.drop (i + 1), x ∈ cells ∨ x ∈ cs := by
    intro x hx
    rcases List.mem_append.mp hx with hx | hx
    · rcases List.mem_append.mp hx with hx | hx
      · exact .inl (List.mem_of_mem_take hx)
      · exact .inr hx
    · exact .inl (List.mem_of_mem_drop hx)
  refine ⟨fun x hx => ?_, fun x hx => ?_, ?_⟩
  · rcases hmem x hx with hx | hx
    · exact h.tiled x hx
    · exact htiled x hx
  · rcases hmem x hx with hx | hx
    · exact h.across x hx
    · rw [hacross x hx, h.across c (List.mem_of_getElem? hi)]
  · have hold := h.along
    rw [hsplit, rowSum_append, rowSum_append] at hold
    rw [rowSum_append, rowSum_append, hsum, ← hold]
    simp [rowSum]

theorem Tiled.set {t : LayoutType} {g : Geometry} {cells : List LayoutCell} {i : Nat}
    {c c' : LayoutCell} (h : Tiled (.node t g cells)) (hi : cells[i]? = some c) (hc' : Tiled c')
    (hsize : ∀ type, c'.size type = c.size type) : Tiled (.node t g (cells.set i c')) := by
  obtain ⟨hlen, hrow⟩ := tiled_node_iff.mp h
  obtain ⟨hlt, -⟩ := List.getElem?_eq_some_iff.mp hi
  refine tiled_node_iff.mpr ⟨by simpa using hlen, ?_⟩
  have := @TiledRow.splice _ _ _ [c'] _ _ hrow hi (by simpa using hc') (by simpa using hsize _)
    (by simp [rowSum, hsize])
  rw [List.set_eq_take_append_cons_drop, if_pos hlt]
  simpa using this

/-! ### Resizing a child -/

theorem Tiled.modifyNode {f : Nat → Edge → LayoutType → List LayoutCell → Exec (List LayoutCell)}
    {path : List Nat} {root : LayoutCell} {t : LayoutType} {g : Geometry} {cells : List LayoutCell}
    (h : Tiled root) (hs : Small root) (hat : cellAt path root = some (.node t g cells))
    (hf : Tiled (.node t g cells) → Small (.node t g cells) → ∀ e, ∃ cells',
      Returns (fun fuel => f fuel e t cells) cells' ∧ Tiled (.node t g cells')) (e : Edge) :
    ∃ root', Returns (fun fuel => Layout.modifyNode (f fuel) path e root) root' ∧ Tiled root' ∧
      ∀ type, root'.size type = root.size type := by
  induction path generalizing root e with
  | nil =>
      obtain rfl : root = .node t g cells := by simpa [cellAt] using hat
      obtain ⟨cells', hret, htiled⟩ := hf h hs e
      refine ⟨.node t g cells', ?_, htiled, fun _ => rfl⟩
      exact hret.bind (g := fun _ cells => .ok (LayoutCell.node t g cells)) (returns_pure _)
  | cons i path ih =>
      cases root with
      | windowpane floating wp g => cases hat
      | node t' g' cs =>
          rw [cellAt] at hat
          cases hi : cs[i]? with
          | none => rw [hi] at hat; cases hat
          | some c =>
              rw [hi] at hat
              obtain ⟨hlen, hrow⟩ := tiled_node_iff.mp h
              have hc := List.mem_of_getElem? hi
              obtain ⟨c', hret, htiled, hsize⟩ := ih (hrow.tiled c hc) (hrow.small hs hc) hat
                (e.child t' cs i)
              refine ⟨.node t' g' (cs.set i c'), ?_, h.set hi htiled hsize, fun _ => rfl⟩
              simp only [Layout.modifyNode, hi]
              exact hret.bind (g := fun _ c => .ok (LayoutCell.node t' g' (cs.set i c)))
                (returns_pure _)

theorem Tiled.moved {c c' : LayoutCell} (h : Tiled c) (hM : Moved c c') : Tiled c' := by
  revert h
  refine hM.induct (P := fun c c' => Tiled c → Tiled c') (fun _ h => h) ?_ ?_
  · rintro wp g xoff yoff (⟨hx, hy⟩ | _)
    exact .windowpane hx hy
  · intro t g xoff yoff cells cells' _ hcells h
    obtain ⟨hlen, hrow⟩ := tiled_node_iff.mp h
    have hmap := Lists.map_eq_of_forall₂ (f := fun c => (c.size t).toNat + 1)
      (g := fun c => (c.size t).toNat + 1) hcells fun _ _ _ hcc => by rw [hcc.1.size]
    refine tiled_node_iff.mpr ⟨by rwa [← hcells.length_eq], fun c' hc' => ?_, fun c' hc' => ?_, ?_⟩
    · obtain ⟨c, hc, -, hcc⟩ := Lists.exists_of_mem_right hcells hc'
      exact hcc (hrow.tiled c hc)
    · obtain ⟨c, hc, hcc, -⟩ := Lists.exists_of_mem_right hcells hc'
      rw [hcc.size, hrow.across c hc]
      cases t <;> rfl
    · rw [rowSum, hmap, ← rowSum, hrow.along]
      cases t <;> rfl

theorem needed_self (change : Int32) : Needed change.toInt change.toInt := by
  have h1 := change.le_toInt
  have h2 := change.toInt_lt
  rw [Needed]
  split_ifs <;> omega

theorem Tiled.layoutResizeLayout (hw : w.Bare) {root : LayoutCell} {path : List Nat} {i : Nat}
    {g : Geometry} {cells : List LayoutCell} (change : Int32) (opposite : Bool) (h : Tiled root)
    (hs : Small root) (hat : cellAt path root = some (.node type g cells))
    (hi : i + 1 < cells.length) :
    ∃ root', Returns (fun fuel =>
        Layout.layoutResizeLayout w fuel root path i type change opposite) root' ∧ Tiled root' ∧
      ∀ type, root'.size type = root.size type := by
  obtain ⟨root₁, hret, htiled, hsize⟩ := h.modifyNode hs hat
    (f := fun fuel e t cells => do
      let cells ← Layout.resizeSibling w type i change.toInt opposite fuel (withEdges e t cells)
        change.toInt
      pure (cells.map Prod.snd))
    (fun hnode hsmall e => by
      obtain ⟨hlen, hrow⟩ := tiled_node_iff.mp hnode
      obtain ⟨ps, hret, hrow', hlen'⟩ := @TiledRow.resizeSibling w hw _ _
        (withEdges e type cells) i _ _ opposite (by rwa [map_snd_withEdges]) (by simpa using hi)
        (needed_self change) (hsmall type)
      refine ⟨ps.map Prod.snd, ?_, tiled_node_iff.mpr ⟨?_, hrow'⟩⟩
      · exact hret.bind (g := fun _ ps => .ok (ps.map Prod.snd)) (returns_pure _)
      · rw [List.length_map, hlen', length_withEdges]
        exact hlen) .root
  have hM := layoutFixOffsets_moved htiled.solid.inFlow
  refine ⟨layoutFixOffsets root₁, ?_, htiled.moved hM, fun type => by rw [hM.size, hsize]⟩
  exact hret.bind (g := fun _ root => .ok (layoutFixOffsets root)) (returns_pure _)

/-! ### Resizing the window -/

/-- The size that was asked for, or where the panes cannot give as much, one between it and the
old size. -/
def ResizedTo (old asked new : UInt32) : Prop :=
  new = asked ∨ asked.toNat < new.toNat ∧ new.toNat ≤ old.toNat

/-- Along one axis the layout takes the size it is given, as far as that can be. -/
theorem Tiled.resizeAlong (hw : w.Bare) {root : LayoutCell} {s : UInt32} (h : Tiled root)
    (hs : Small root) (hsmall : s.toNat < 2 ^ 31) :
    ∃ root', Returns (fun fuel => Layout.resizeAlong w fuel root type s) root' ∧ Tiled root' ∧
      Small root' ∧ ResizedTo (root.size type) s (root'.size type) ∧
      root'.size type.across = root.size type.across := by
  have hcheck := @Tiled.check_le_size w type .root root h
  have hchange := resizeChange_of_lt (w := w) hsmall (hs type) (hcheck.trans_lt (hs type))
  by_cases hgrow : (root.size type).toNat ≤ s.toNat
  · obtain ⟨k, hk⟩ := Nat.exists_eq_add_of_le hgrow
    obtain ⟨root', hret, htiled, hR, hsize⟩ := @Tiled.grow w type .root k root h (by omega)
    rw [max_eq_left (by omega), hk, Nat.cast_add, add_sub_cancel_left] at hchange
    simp only [Layout.resizeAlong, hchange]
    by_cases hzero : (k : Int) = 0
    · have hsame : root.size type = s := UInt32.toNat.inj (by omega)
      simp only [if_neg (not_not_intro hzero)]
      exact ⟨root, returns_pure _, h, hs, .inl hsame, rfl⟩
    · have hasked : root'.size type = s := UInt32.toNat.inj (by omega)
      simp only [if_pos (show (k : Int) ≠ 0 from hzero)]
      exact ⟨root', hret, htiled, hR.small hs (by omega), .inl hasked, hR.size_across⟩
  · obtain ⟨k, hk, hle⟩ : ∃ k : Nat, max ((s.toNat : Int) - (root.size type).toNat)
        (-((layoutResizeCheck w .root root type).toNat : Int)) = -k ∧
        k ≤ (layoutResizeCheck w .root root type).toNat :=
      ⟨min ((root.size type).toNat - s.toNat) (layoutResizeCheck w .root root type).toNat,
        by omega, by omega⟩
    obtain ⟨root', hret, htiled, hR, hsize⟩ := @Tiled.shrink w type hw .root _ root h hle
    simp only [Layout.resizeAlong, hchange, hk]
    by_cases hzero : (-k : Int) = 0
    · simp only [if_neg (not_not_intro hzero)]
      exact ⟨root, returns_pure _, h, hs, .inr ⟨by omega, le_rfl⟩, rfl⟩
    · simp only [if_pos (show (-k : Int) ≠ 0 from hzero)]
      have hold := hs type
      refine ⟨root', hret, htiled, hR.small hs (by omega), ?_, hR.size_across⟩
      by_cases hasked : (root'.size type).toNat = s.toNat
      · exact .inl (UInt32.toNat.inj hasked)
      · exact .inr ⟨by omega, by omega⟩

theorem Tiled.layoutResize (hw : w.Bare) {root : LayoutCell} {sx sy : UInt32} (h : Tiled root)
    (hs : Small root) (hx : sx.toNat < 2 ^ 31) (hy : sy.toNat < 2 ^ 31) :
    ∃ root', Returns (fun fuel => Layout.layoutResize w fuel root sx sy) root' ∧ Tiled root' ∧
      Small root' ∧ ResizedTo (root.size .leftright) sx (root'.size .leftright) ∧
      ResizedTo (root.size .topbottom) sy (root'.size .topbottom) := by
  obtain ⟨root₁, hret₁, htiled₁, hs₁, hx₁, hacross₁⟩ :=
    @Tiled.resizeAlong w .leftright hw root _ h hs hx
  obtain ⟨root₂, hret₂, htiled₂, hs₂, hy₂, hacross₂⟩ :=
    @Tiled.resizeAlong w .topbottom hw root₁ _ htiled₁ hs₁ hy
  have hM := layoutFixOffsets_moved htiled₂.solid.inFlow
  refine ⟨layoutFixOffsets root₂, ?_, htiled₂.moved hM, fun type => ?_, ?_, ?_⟩
  · exact hret₁.bind (g := fun fuel root => Layout.resizeAlong w fuel root .topbottom sy >>=
        fun root => .ok (layoutFixOffsets root))
      (hret₂.bind (g := fun _ root => .ok (layoutFixOffsets root)) (returns_pure _))
  · rw [hM.size]
    exact hs₂ type
  · rw [hM.size]
    exact hacross₂ ▸ hx₁
  · rw [hM.size]
    exact hacross₁ ▸ hy₂

/-! ### Destroying -/

theorem size_setOffset (c : LayoutCell) (xoff yoff : Int32) (type : LayoutType) :
    (c.setOffset xoff yoff).size type = c.size type := by
  cases c <;> cases type <;> rfl

theorem Tiled.setOffset {c : LayoutCell} (h : Tiled c) (xoff yoff : Int32) :
    Tiled (c.setOffset xoff yoff) := by
  cases c with
  | windowpane floating wp g => exact h.moved (by cases h; exact .windowpane wp g xoff yoff)
  | node t g cells =>
      obtain ⟨hlen, hrow⟩ := tiled_node_iff.mp h
      refine tiled_node_iff.mpr ⟨hlen, hrow.tiled, fun c hc => ?_, ?_⟩
      · rw [hrow.across c hc]
        cases t <;> rfl
      · rw [hrow.along]
        cases t <;> rfl

/-- What is left of a row takes the place of its node. -/
theorem TiledRow.collapse {t : LayoutType} {g : Geometry} {cells : List LayoutCell}
    (h : TiledRow t g cells) (hne : cells ≠ []) (isRoot : Bool) :
    Tiled (Layout.collapse isRoot t g cells) ∧
      ∀ type, (Layout.collapse isRoot t g cells).size type = g.size type := by
  match cells with
  | [c] =>
      have hsize : ∀ type, c.size type = g.size type := by
        intro type
        by_cases ht : t = type
        · subst ht
          have halong := h.along
          simp only [rowSum, List.map_cons, List.map_nil, List.sum_cons, List.sum_nil] at halong
          exact UInt32.toNat.inj (by omega)
        · obtain rfl := LayoutType.eq_across_of_ne ht
          exact h.across c List.mem_cons_self
      have htiled := h.tiled c List.mem_cons_self
      rw [Layout.collapse]
      split
      · exact ⟨htiled.setOffset 0 0, fun type => by rw [size_setOffset, hsize]⟩
      · exact ⟨htiled, hsize⟩
  | c :: d :: cs =>
      exact ⟨tiled_node_iff.mpr ⟨by simp, h⟩, fun _ => rfl⟩

theorem rowSum_eraseIdx {t : LayoutType} {cells : List LayoutCell} {i : Nat} {c : LayoutCell}
    (hi : cells[i]? = some c) :
    rowSum t (cells.eraseIdx i) + ((c.size t).toNat + 1) = rowSum t cells := by
  rw [rowSum, ← List.eraseIdx_map, rowSum]
  exact Lists.sum_eraseIdx_add (by rw [List.getElem?_map, hi]; rfl)

/-- A child of a row gives its space to its neighbour and is taken out. -/
theorem TiledRow.giveToNeighbour {t : LayoutType} {g : Geometry} {cells : List LayoutCell}
    {i : Nat} {c : LayoutCell} (h : TiledRow t g cells) (hlen : 2 ≤ cells.length)
    (hs : ∀ type, (g.size type).toNat < 2 ^ 31) (hi : cells[i]? = some c) (e : Edge) :
    ∃ cs, Returns (fun fuel => Layout.giveToNeighbour w fuel e t cells i (c.size t)) (some cs) ∧
      TiledRow t g (cs.eraseIdx i) ∧ cs.length = cells.length := by
  obtain ⟨hlt, -⟩ := List.getElem?_eq_some_iff.mp hi
  obtain ⟨j, hj⟩ : ∃ j, layoutCellGetNeighbour cells i = some j := by
    obtain ⟨j, hjlt, hji⟩ : ∃ j, j < cells.length ∧ j ≠ i := by
      by_cases h0 : i = 0
      · exact ⟨1, by omega, by omega⟩
      · exact ⟨0, by omega, by omega⟩
    have hget := List.getElem?_eq_getElem hjlt
    exact Option.isSome_iff_exists.mp (layoutCellGetNeighbour_isSome hget
      (h.tiled _ (List.mem_of_getElem? hget)).solid.inFlow hji)
  obtain ⟨hji, d, hd, -⟩ := layoutCellGetNeighbour_eq_some hj hlt
  have hsum := size_add_size_le (t := t) hi hd hji.symm
  have hbound := hs t
  rw [h.along] at hsum
  have hchange : wrapI32 (asI32 (c.size t) + 1) = ((c.size t).toNat + 1 : Nat) := by
    rw [asI32_of_lt (by omega), wrapI32_of_lt (by omega) (by omega)]
    rfl
  obtain ⟨p, hp, hpd⟩ : ∃ p, (withEdges e t cells)[j]? = some p ∧ p.2 = d := by
    have hmap := map_snd_withEdges e t cells
    rw [← hmap, List.getElem?_map] at hd
    exact Option.map_eq_some_iff.mp hd
  obtain ⟨d', hret, htiled, hR, hsize⟩ := @Tiled.grow w t p.1 ((c.size t).toNat + 1) d
    (h.tiled d (List.mem_of_getElem? hd)) (by omega)
  refine ⟨cells.set j d', ?_, ⟨fun x hx => ?_, fun x hx => ?_, ?_⟩, by simp⟩
  · simp only [Layout.giveToNeighbour, hj, hchange]
    have hmap : ((withEdges e t cells).set j (p.1, d')).map Prod.snd = cells.set j d' := by
      rw [List.map_set, map_snd_withEdges]
    rw [← hmap]
    exact (returns_adjustSibling hp (by rwa [hpd])).bind
      (g := fun _ ps => .ok (some (ps.map Prod.snd))) (returns_pure _)
  · rcases List.mem_or_eq_of_mem_set (List.mem_of_mem_eraseIdx hx) with hx | rfl
    · exact h.tiled x hx
    · exact htiled
  · rcases List.mem_or_eq_of_mem_set (List.mem_of_mem_eraseIdx hx) with hx | rfl
    · exact h.across x hx
    · rw [hR.size_across, h.across d (List.mem_of_getElem? hd)]
  · have h1 := rowSum_set (t := t) hd d'
    have h2 := @rowSum_eraseIdx t (cells.set j d') i c
      (by rw [List.getElem?_set_ne hji, hi])
    have h3 := h.along
    omega

theorem Tiled.destroyIn {path : List Nat} {c : LayoutCell} {wp : Option Nat} {g : Geometry}
    (h : Tiled c) (hs : Small c) (hne : path ≠ [])
    (hat : cellAt path c = some (.windowpane false wp g)) (isRoot : Bool) (e : Edge) :
    ∃ c', Returns (fun fuel => Layout.destroyIn w fuel isRoot path e c) (c', false) ∧ Tiled c' ∧
      ∀ type, c'.size type = c.size type := by
  induction path generalizing c isRoot e with
  | nil => exact absurd rfl hne
  | cons i path ih =>
      cases c with
      | windowpane floating wp g => cases hat
      | node t g' cells =>
          rw [cellAt] at hat
          cases hi : cells[i]? with
          | none => rw [hi] at hat; cases hat
          | some d =>
              rw [hi] at hat
              obtain ⟨hlen, hrow⟩ := tiled_node_iff.mp h
              have hd := List.mem_of_getElem? hi
              by_cases hpath : path = []
              · subst hpath
                obtain rfl : d = .windowpane false wp g := by simpa [cellAt] using hat
                obtain ⟨cs, hret, hrow', hlen'⟩ := hrow.giveToNeighbour (w := w) hlen hs hi e
                obtain ⟨htiled, hsize⟩ := hrow'.collapse
                  (List.ne_nil_of_length_pos (by
                    obtain ⟨hlt, -⟩ := List.getElem?_eq_some_iff.mp hi
                    rw [List.length_eraseIdx_of_lt (by omega)]
                    omega)) isRoot
                refine ⟨_, ?_, htiled, hsize⟩
                simp only [Layout.destroyIn, hi, if_true, layoutCellIsTiled, Bool.not_false,
                  Bool.not_true, Bool.false_eq_true, if_false]
                refine hret.bind ?_
                exact returns_pure _
              · obtain ⟨d', hret, htiled, hsize⟩ := ih (hrow.tiled d hd) (hrow.small hs hd) hpath
                  hat false (e.child t cells i)
                refine ⟨.node t g' (cells.set i d'), ?_, h.set hi htiled hsize, fun _ => rfl⟩
                simp only [Layout.destroyIn, hi, if_neg hpath]
                refine hret.bind ?_
                simp only [Bool.false_eq_true, if_false]
                exact returns_pure _

theorem Tiled.layoutDestroyCell {root : LayoutCell} {path : List Nat} {wp : Option Nat}
    {g : Geometry} (h : Tiled root) (hs : Small root) (hne : path ≠ [])
    (hat : cellAt path root = some (.windowpane false wp g)) :
    ∃ root', Returns (fun fuel => Layout.layoutDestroyCell w fuel root path) (some root') ∧
      Tiled root' ∧ ∀ type, root'.size type = root.size type := by
  obtain ⟨root', hret, htiled, hsize⟩ := h.destroyIn (w := w) hs hne hat true .root
  refine ⟨root', ?_, htiled, hsize⟩
  simp only [Layout.layoutDestroyCell, if_neg hne]
  exact hret.bind (returns_pure _)

/-! ### Splitting -/

/-- The size asked for the second half, exactly. -/
def exactRequest (g : Geometry) (size : Int32) (before : Bool) (type : LayoutType) : Int :=
  if size.toInt < 0 then ((g.size type).toNat + 1) / 2 - 1
  else if before then (g.size type).toNat - size.toInt - 1
  else size.toInt

/-- A size hint that `layoutSplitSizes` can work with. What it asks for is not negative; it
is bounded by `sx - 2` for both types, so there must be such a bound, and a request
within it must leave a line or column for the other half. -/
structure HintFits (g : Geometry) (size : Int32) (before : Bool) (type : LayoutType) : Prop where
  nonneg : 0 ≤ exactRequest g size before type
  bounded : 1 ≤ exactRequest g size before type → 2 ≤ g.sx.toNat
  leaves : exactRequest g size before type ≤ g.sx.toNat - 2 →
    exactRequest g size before type ≤ (g.size type).toNat - 2

theorem toNat_ceil_half (n : UInt32) : (n / 2 + n % 2).toNat = (n.toNat + 1) / 2 := by
  have hlt := n.toNat_lt
  rw [UInt32.toNat_add, UInt32.toNat_div, UInt32.toNat_mod, show (2 : UInt32).toNat = 2 from rfl]
  omega

theorem toNat_splitRequest {g : Geometry} {size : Int32} {before : Bool} {type : LayoutType}
    (hss : 3 ≤ (g.size type).toNat) (h : 0 ≤ exactRequest g size before type) :
    ((splitRequest g size before type).toNat : Int) = exactRequest g size before type := by
  have hlt := (g.size type).toNat_lt
  have hneg : size < 0 ↔ size.toInt < 0 := Int32.lt_iff_toInt_lt
  rw [exactRequest] at h ⊢
  rw [splitRequest]
  simp only [hneg]
  split_ifs at h ⊢ with h1 h2
  · have hceil := toNat_ceil_half (g.size type)
    rw [UInt32.toNat_sub_of_le _ _ (by rw [UInt32.le_iff_toNat_le, hceil]; simp; omega), hceil]
    have : (1 : UInt32).toNat = 1 := rfl
    omega
  · have hsize := toNat_toUInt32 (x := size) (by omega)
    have h1 : (g.size type - size.toUInt32).toNat = (g.size type).toNat - size.toUInt32.toNat :=
      UInt32.toNat_sub_of_le _ _ (by rw [UInt32.le_iff_toNat_le]; omega)
    rw [UInt32.toNat_sub_of_le _ _ (by rw [UInt32.le_iff_toNat_le, h1]; simp; omega), h1]
    have : (1 : UInt32).toNat = 1 := rfl
    omega
  · exact toNat_toUInt32 (by omega)

/-- The two halves that a fitting hint gives. -/
theorem layoutSplitSizes_of_fits {g : Geometry} {size : Int32} {before : Bool} {type : LayoutType}
    (hss : 3 ≤ (g.size type).toNat) (h : HintFits g size before type) :
    1 ≤ (layoutSplitSizes g size before type).1.toNat ∧
      1 ≤ (layoutSplitSizes g size before type).2.toNat ∧
      (layoutSplitSizes g size before type).1.toNat +
        (layoutSplitSizes g size before type).2.toNat + 1 = (g.size type).toNat ∧
      ∀ p ∈ splitSubtractions g size before type, p.2 ≤ p.1 := by
  have hreq := toNat_splitRequest hss h.nonneg
  have hnonneg := h.nonneg
  have hbounded := h.bounded
  have hleaves := h.leaves
  rw [← hreq] at hnonneg hbounded hleaves
  have h1 : (1 : UInt32).toNat = 1 := rfl
  have h2 : (2 : UInt32).toNat = 2 := rfl
  have hsx : 2 ≤ g.sx.toNat → (g.sx - 2).toNat = g.sx.toNat - 2 := fun hle =>
    UInt32.toNat_sub_of_le _ _ (by rw [UInt32.le_iff_toNat_le]; omega)
  have hss2 : (g.size type - 2).toNat = (g.size type).toNat - 2 :=
    UInt32.toNat_sub_of_le _ _ (by rw [UInt32.le_iff_toNat_le]; omega)
  have hss1 : (g.size type - 1).toNat = (g.size type).toNat - 1 :=
    UInt32.toNat_sub_of_le _ _ (by rw [UInt32.le_iff_toNat_le]; omega)
  have hs2 : 1 ≤ (layoutSplitSizes g size before type).2.toNat ∧
      (layoutSplitSizes g size before type).2.toNat + 2 ≤ (g.size type).toNat := by
    rw [layoutSplitSizes]
    dsimp only
    simp only [UInt32.lt_iff_toNat_lt, paneMinimum, h1]
    split_ifs
    · rw [h1]; omega
    · rw [hss2]; omega
    · have := hsx (hbounded (by omega))
      omega
  have hs1 : (layoutSplitSizes g size before type).1.toNat =
      (g.size type).toNat - 1 - (layoutSplitSizes g size before type).2.toNat := by
    have : (g.size type - 1 - (layoutSplitSizes g size before type).2).toNat =
        (g.size type - 1).toNat - (layoutSplitSizes g size before type).2.toNat :=
      UInt32.toNat_sub_of_le _ _ (by rw [UInt32.le_iff_toNat_le, hss1]; omega)
    rw [← hss1, ← this]
    rfl
  refine ⟨by omega, hs2.1, by omega, ?_⟩
  simp only [splitSubtractions, List.forall_mem_append]
  refine ⟨⟨?_, ?_⟩, ?_⟩
  · have hneg : size < 0 ↔ size.toInt < 0 := Int32.lt_iff_toInt_lt
    have hrequest := h.nonneg
    rw [exactRequest] at hrequest
    simp only [hneg]
    split_ifs at hrequest ⊢ with h0 h0'
    · have hceil := toNat_ceil_half (g.size type)
      simp only [List.forall_mem_singleton, UInt32.le_iff_toNat_le, h1]
      omega
    · have hsize := toNat_toUInt32 (x := size) (by omega)
      have hsub : (g.size type - size.toUInt32).toNat = (g.size type).toNat - size.toUInt32.toNat :=
        UInt32.toNat_sub_of_le _ _ (by rw [UInt32.le_iff_toNat_le]; omega)
      simp only [List.forall_mem_cons, List.not_mem_nil, false_imp_iff, implies_true, and_true,
        UInt32.le_iff_toNat_le, h1]
      omega
    · simp
  · simp only [UInt32.lt_iff_toNat_lt, paneMinimum, h1]
    split_ifs
    · simp
    · simp only [List.forall_mem_cons, List.not_mem_nil, false_imp_iff, implies_true, and_true,
        UInt32.le_iff_toNat_le, h2]
      exact ⟨hbounded (by omega), by omega⟩
    · simp only [List.forall_mem_singleton, UInt32.le_iff_toNat_le, h2]
      exact hbounded (by omega)
  · simp only [List.forall_mem_cons, List.not_mem_nil, false_imp_iff, implies_true, and_true,
      UInt32.le_iff_toNat_le, h1]
    omega

theorem splitGeometry_size (g : Geometry) (type : LayoutType) (size1 size2 : UInt32) :
    (splitGeometry g type size1 size2).1.size type = size1 ∧
      (splitGeometry g type size1 size2).2.size type = size2 ∧
      (splitGeometry g type size1 size2).1.size type.across = g.size type.across ∧
      (splitGeometry g type size1 size2).2.size type.across = g.size type.across := by
  cases type <;> exact ⟨rfl, rfl, rfl, rfl⟩

theorem tiled_windowpane_iff {wp : Option Nat} {g : Geometry} :
    Tiled (.windowpane false wp g) ↔ ∀ type, 1 ≤ (g.size type).toNat := by
  constructor
  · rintro (⟨hx, hy⟩ | _) type
    cases type
    · exact hx
    · exact hy
  · exact fun h => .windowpane (h .leftright) (h .topbottom)

theorem tiledRow_halves (wp wp' : Option Nat) {g : Geometry} {type : LayoutType}
    {size1 size2 : UInt32} (h : ∀ type, 1 ≤ (g.size type).toNat) (h1 : 1 ≤ size1.toNat)
    (h2 : 1 ≤ size2.toNat) (hsum : size1.toNat + size2.toNat + 1 = (g.size type).toNat) :
    TiledRow type g [.windowpane false wp (splitGeometry g type size1 size2).1,
      .windowpane false wp' (splitGeometry g type size1 size2).2] := by
  obtain ⟨hs1, hs2, ha1, ha2⟩ := splitGeometry_size g type size1 size2
  have hhalf : ∀ (wp : Option Nat) (g' : Geometry), g'.size type.across = g.size type.across →
      1 ≤ (g'.size type).toNat → Tiled (.windowpane false wp g') := by
    intro wp g' hacross hsize
    refine tiled_windowpane_iff.mpr fun type' => ?_
    by_cases ht : type = type'
    · exact ht ▸ hsize
    · obtain rfl := LayoutType.eq_across_of_ne ht
      rw [hacross]
      exact h _
  refine ⟨?_, ?_, ?_⟩
  · rw [List.forall_mem_cons, List.forall_mem_singleton]
    exact ⟨hhalf wp _ ha1 (by rwa [hs1]), hhalf wp' _ ha2 (by rwa [hs2])⟩
  · rw [List.forall_mem_cons, List.forall_mem_singleton]
    exact ⟨ha1, ha2⟩
  · simp only [rowSum, List.map_cons, List.map_nil, List.sum_cons, List.sum_nil, size_windowpane,
      hs1, hs2]
    omega

theorem three_le_of_splitCheckSpace (hw : w.Bare) {width pad : Int32} {e : Edge} {g : Geometry}
    (h : layoutSplitCheckSpace w width pad e g type) : 3 ≤ (g.size type).toNat := by
  cases type with
  | leftright =>
      have hlt : ¬g.sx < 3 := by simpa [layoutSplitCheckSpace, hw.2, paneMinimum] using h
      exact Nat.not_lt.mp hlt
  | topbottom =>
      have hle : (3 : UInt32) ≤ g.sy := by
        simpa [layoutSplitCheckSpace, layoutAddBorder, hw.1, paneMinimum] using h
      exact hle

/-- What a split puts in the place of a cell. -/
structure Replaces (parent : Option LayoutType) (c : LayoutCell) (cs : List LayoutCell) : Prop where
  tiled : ∀ x ∈ cs, Tiled x
  row : ∀ t, parent = some t →
    (∀ x ∈ cs, x.size t.across = c.size t.across) ∧ rowSum t cs = (c.size t).toNat + 1
  single : parent = none → ∃ x, cs = [x] ∧ ∀ type, x.size type = c.size type

theorem replaces_single {parent : Option LayoutType} {c x : LayoutCell} (h : Tiled x)
    (hsize : ∀ type, x.size type = c.size type) : Replaces parent c [x] where
  tiled := by simpa using h
  row t _ := ⟨by simpa using hsize _, by simp [rowSum, hsize]⟩
  single _ := ⟨x, rfl, hsize⟩

theorem Tiled.splitUnder (hw : w.Bare) (width pad : Int32) {size : Int32} {before : Bool}
    (pane : Option Nat) (parent : Option LayoutType) {path : List Nat} {c : LayoutCell}
    {wp : Option Nat} {g : Geometry} (h : Tiled c)
    (hat : cellAt path c = some (.windowpane false wp g))
    (hfits : 3 ≤ (g.size type).toNat → HintFits g size before type) (e : Edge) :
    ∃ r, Layout.splitUnder w width pad type size before pane parent path e c = .ok r ∧
      ∀ cs, r = some cs → Replaces parent c cs := by
  induction path generalizing c parent e with
  | nil =>
      obtain rfl : c = .windowpane false wp g := by simpa [cellAt] using hat
      have hpos := tiled_windowpane_iff.mp h
      cases hspace : layoutSplitCheckSpace w width pad e g type with
      | false => exact ⟨none, by simp [Layout.splitUnder, hspace]; rfl, by simp⟩
      | true =>
          have hss := three_le_of_splitCheckSpace hw hspace
          obtain ⟨h1, h2, hsum, -⟩ := layoutSplitSizes_of_fits hss (hfits hss)
          have hrow := fun wp wp' => tiledRow_halves wp wp' hpos h1 h2 hsum
          have hhalves : ∃ wp₁ wp₂, Layout.splitUnder w width pad type size before pane parent []
              e (.windowpane false wp g) = .ok (some (if parent = some type then
                [.windowpane false wp₁ (splitGeometry g type (layoutSplitSizes g size before type).1
                    (layoutSplitSizes g size before type).2).1,
                  .windowpane false wp₂ (splitGeometry g type
                    (layoutSplitSizes g size before type).1
                    (layoutSplitSizes g size before type).2).2]
                else [.node type g
                  [.windowpane false wp₁ (splitGeometry g type
                      (layoutSplitSizes g size before type).1
                      (layoutSplitSizes g size before type).2).1,
                    .windowpane false wp₂ (splitGeometry g type
                      (layoutSplitSizes g size before type).1
                      (layoutSplitSizes g size before type).2).2]])) := by
            cases before with
            | true => exact ⟨pane, wp, by simp [Layout.splitUnder, hspace]; rfl⟩
            | false => exact ⟨wp, pane, by simp [Layout.splitUnder, hspace]; rfl⟩
          obtain ⟨wp₁, wp₂, heq⟩ := hhalves
          refine ⟨_, heq, ?_⟩
          rintro _ ⟨⟩
          split
          · rename_i hparent
            refine ⟨(hrow wp₁ wp₂).tiled, fun t ht => ?_, fun hnone => ?_⟩
            · obtain rfl : type = t := by simpa [hparent] using ht
              exact ⟨(hrow wp₁ wp₂).across, (hrow wp₁ wp₂).along⟩
            · rw [hparent] at hnone
              cases hnone
          · exact replaces_single (tiled_node_iff.mpr ⟨by simp, hrow wp₁ wp₂⟩) fun _ => rfl
  | cons i path ih =>
      cases c with
      | windowpane floating wp g => cases hat
      | node t g' cells =>
          rw [cellAt] at hat
          cases hi : cells[i]? with
          | none => rw [hi] at hat; cases hat
          | some d =>
              rw [hi] at hat
              obtain ⟨hlen, hrow⟩ := tiled_node_iff.mp h
              have hd := List.mem_of_getElem? hi
              obtain ⟨r, hr, hrep⟩ := ih (some t) (hrow.tiled d hd) hat (e.child t cells i)
              refine ⟨r.map fun cs => [.node t g' (cells.take i ++ cs ++ cells.drop (i + 1))], ?_,
                ?_⟩
              · simp only [Layout.splitUnder, hi, hr]
                rfl
              · intro cs hcs
                obtain ⟨ds, rfl, rfl⟩ := Option.map_eq_some_iff.mp hcs
                have hds := hrep ds rfl
                obtain ⟨hacross, hsum⟩ := hds.row t rfl
                refine replaces_single (tiled_node_iff.mpr ⟨?_, hrow.splice hi hds.tiled hacross
                  hsum⟩) fun _ => rfl
                have hne : 0 < ds.length := List.length_pos_iff.mpr fun hnil => by
                  simp [hnil, rowSum] at hsum
                obtain ⟨hlt, -⟩ := List.getElem?_eq_some_iff.mp hi
                simp only [List.length_append, List.length_take, List.length_drop]
                omega

theorem Tiled.layoutSplitPane (hw : w.Bare) (width pad : Int32) {size : Int32} {before : Bool}
    (pane : Option Nat) {path : List Nat} {root : LayoutCell} {wp : Option Nat} {g : Geometry}
    (h : Tiled root) (hat : cellAt path root = some (.windowpane false wp g))
    (hfits : 3 ≤ (g.size type).toNat → HintFits g size before type) :
    ∃ r, Layout.layoutSplitPane w width pad root path type size before pane = .ok r ∧
      ∀ root', r = some root' → Tiled root' ∧ ∀ type, root'.size type = root.size type := by
  obtain ⟨r, hr, hrep⟩ := h.splitUnder hw width pad pane none hat hfits .root
  refine ⟨r.bind List.head?, by rw [Layout.layoutSplitPane, hr]; rfl, fun root' hroot => ?_⟩
  obtain ⟨cs, rfl, hhead⟩ := Option.bind_eq_some_iff.mp hroot
  have hcs := hrep cs rfl
  obtain ⟨x, rfl, hsize⟩ := hcs.single rfl
  obtain rfl : x = root' := by simpa using hhead
  exact ⟨hcs.tiled x List.mem_cons_self, hsize⟩

/-! ### Runs -/

/-- The operations on a layout. A split carries the scrollbar of the pane that is
split. -/
inductive Op
  | splitPane (width pad : Int32) (path : List Nat) (type : LayoutType) (size : Int32)
      (before : Bool) (pane : Option Nat)
  | destroyCell (path : List Nat)
  | resizeLayout (path : List Nat) (i : Nat) (type : LayoutType) (change : Int32) (opposite : Bool)
  | resize (sx sy : UInt32)

/-- What an operation makes of a layout, or nothing when it reports failure. -/
def Op.exec (w : WindowOptions) (root : LayoutCell) (fuel : Nat) :
    Op → Exec (Option LayoutCell)
  | .splitPane width pad path type size before pane =>
      layoutSplitPane w width pad root path type size before pane
  | .destroyCell path => layoutDestroyCell w fuel root path
  | .resizeLayout path i type change opposite => do
      let root ← layoutResizeLayout w fuel root path i type change opposite
      pure (some root)
  | .resize sx sy => do
      let root ← layoutResize w fuel root sx sy
      pure (some root)

/-- The operations there are on a layout: any leaf is split with a hint from -1 up,
any leaf but the root is destroyed, any child but the last is resized along its node, and
the window gets any positive size. -/
def Op.Applies (root : LayoutCell) : Op → Prop
  | .splitPane _ _ path _ size _ _ =>
      (∃ wp g, cellAt path root = some (.windowpane false wp g)) ∧ -1 ≤ size.toInt
  | .destroyCell path => path ≠ [] ∧ ∃ wp g, cellAt path root = some (.windowpane false wp g)
  | .resizeLayout path i type _ _ =>
      ∃ g cells, cellAt path root = some (.node type g cells) ∧ i + 1 < cells.length
  | .resize sx sy => 0 < sx ∧ 0 < sy

/-- The hint of a split of a pane that is big enough is in range, and a window size is
one that the cast to `i32` keeps. -/
def Op.Fits (root : LayoutCell) : Op → Prop
  | .splitPane _ _ path type size before _ => ∀ wp g,
      cellAt path root = some (.windowpane false wp g) → 3 ≤ (g.size type).toNat →
        HintFits g size before type
  | .resize sx sy => sx.toNat < 2 ^ 31 ∧ sy.toNat < 2 ^ 31
  | _ => True

/-- No unsigned sum or difference of sizes wraps. The neighbour of a destroyed cell takes its size
and the border, a sibling gives what the other takes, and a window gives what its panes have. -/
def Op.NoWrap (w : WindowOptions) (root : LayoutCell) : Op → Prop
  | .splitPane _ _ path type size before _ => ∀ wp g,
      cellAt path root = some (.windowpane false wp g) → 3 ≤ (g.size type).toNat →
        ∀ p ∈ splitSubtractions g size before type, p.2 ≤ p.1
  | .destroyCell path => ∀ front i j t g cells, ∀ c d : LayoutCell, path = front ++ [i] →
      cellAt front root = some (.node t g cells) → cells[i]? = some c → cells[j]? = some d →
        j ≠ i → (d.size t).toNat + ((c.size t).toNat + 1) ≤ (g.size t).toNat
  | .resizeLayout path _ type _ _ => ∀ g cells, ∀ i j : Nat, ∀ c d : LayoutCell, ∀ e,
      cellAt path root = some (.node type g cells) → cells[i]? = some c → cells[j]? = some d →
        j ≠ i → (layoutResizeCheck w e d type).toNat ≤ (d.size type).toNat ∧
          (c.size type).toNat + (layoutResizeCheck w e d type).toNat ≤ (g.size type).toNat
  | .resize _ _ => ∀ type,
      (layoutResizeCheck w .root root type).toNat ≤ (root.size type).toNat

/-- The size of the layout after an operation. -/
def Op.Sizes (root root' : LayoutCell) : Op → Prop
  | .resize sx sy => ResizedTo (root.size .leftright) sx (root'.size .leftright) ∧
      ResizedTo (root.size .topbottom) sy (root'.size .topbottom)
  | _ => ∀ type, root'.size type = root.size type

/-- One operation that fits and does not fail. -/
def Step (w : WindowOptions) (root root' : LayoutCell) : Prop :=
  ∃ op : Op, op.Applies root ∧ op.Fits root ∧ Returns (fun fuel => op.exec w root fuel) (some root')

theorem Tiled.noWrap {root : LayoutCell} {op : Op} (h : Tiled root) (hfits : op.Fits root) :
    op.NoWrap w root := by
  cases op with
  | splitPane width pad path type size before pane =>
      intro wp g hat hss
      exact (layoutSplitSizes_of_fits hss (hfits wp g hat hss)).2.2.2
  | destroyCell path =>
      intro front i j t g cells c d _ hat hi hj hji
      obtain ⟨-, hrow⟩ := tiled_node_iff.mp (h.subcell hat).1
      have hsum := size_add_size_le (t := t) hj hi hji
      rw [hrow.along] at hsum
      omega
  | resizeLayout path i type change opposite =>
      intro g cells i j c d e hat hi hj hji
      obtain ⟨-, hrow⟩ := tiled_node_iff.mp (h.subcell hat).1
      have hcheck := @Tiled.check_le_size w type e d (hrow.tiled d (List.mem_of_getElem? hj))
      have hsum := size_add_size_le (t := type) hi hj hji.symm
      rw [hrow.along] at hsum
      exact ⟨hcheck, by omega⟩
  | resize sx sy => exact fun type => h.check_le_size

/-- An operation that fits returns, and keeps the layout tiled and as large as it says. -/
theorem Tiled.exec (hw : w.Bare) {root : LayoutCell} {op : Op} (h : Tiled root) (hs : Small root)
    (happlies : op.Applies root) (hfits : op.Fits root) :
    ∃ r, Returns (fun fuel => op.exec w root fuel) r ∧
      ∀ root', r = some root' → Tiled root' ∧ Small root' ∧ op.Sizes root root' := by
  have hsame : ∀ {root'}, (∀ type, root'.size type = root.size type) → Small root' :=
    fun hsize type => by rw [hsize]; exact hs type
  cases op with
  | splitPane width pad path type size before pane =>
      obtain ⟨⟨wp, g, hat⟩, -⟩ := happlies
      obtain ⟨r, hr, htiled⟩ := h.layoutSplitPane hw width pad pane hat (hfits wp g hat)
      refine ⟨r, ⟨0, fun _ _ => hr⟩, fun root' hroot => ?_⟩
      obtain ⟨htiled, hsize⟩ := htiled root' hroot
      exact ⟨htiled, hsame hsize, hsize⟩
  | destroyCell path =>
      obtain ⟨hne, wp, g, hat⟩ := happlies
      obtain ⟨root', hret, htiled, hsize⟩ := h.layoutDestroyCell (w := w) hs hne hat
      exact ⟨some root', hret, by rintro _ ⟨⟩; exact ⟨htiled, hsame hsize, hsize⟩⟩
  | resizeLayout path i type change opposite =>
      obtain ⟨g, cells, hat, hi⟩ := happlies
      obtain ⟨root', hret, htiled, hsize⟩ := h.layoutResizeLayout hw change opposite hs hat hi
      exact ⟨some root', hret.bind (returns_pure _),
        by rintro _ ⟨⟩; exact ⟨htiled, hsame hsize, hsize⟩⟩
  | resize sx sy =>
      obtain ⟨root', hret, htiled, hs', hx, hy⟩ := h.layoutResize hw hs hfits.1 hfits.2
      exact ⟨some root', hret.bind (returns_pure _), by rintro _ ⟨⟩; exact ⟨htiled, hs', hx, hy⟩⟩

theorem Tiled.run (hw : w.Bare) {root root' : LayoutCell} (h : Tiled root) (hs : Small root)
    (hrun : Relation.ReflTransGen (Step w) root root') : Tiled root' ∧ Small root' := by
  induction hrun with
  | refl => exact ⟨h, hs⟩
  | tail _ hstep ih =>
      obtain ⟨op, happlies, hfits, hret⟩ := hstep
      obtain ⟨r, hret', hnext⟩ := ih.1.exec hw ih.2 happlies hfits
      obtain ⟨htiled, hsmall, -⟩ := hnext _ (hret'.unique hret)
      exact ⟨htiled, hsmall⟩

/-- In every run of operations that fit, from a tiled layout, every layout reached is tiled and
no size in it reaches `2 ^ 31`; the next operation that fits returns, wraps nothing, and leaves
such a layout of the size that it says. -/
theorem layout_run_tiled (hw : w.Bare) {root root' : LayoutCell} (h : Tiled root) (hs : Small root)
    (hrun : Relation.ReflTransGen (Step w) root root') :
    (Tiled root' ∧ ∀ path c, cellAt path root' = some c → Small c) ∧
      ∀ op : Op, op.Applies root' → op.Fits root' →
        op.NoWrap w root' ∧ ∃ r, Returns (fun fuel => op.exec w root' fuel) r ∧
          ∀ root'', r = some root'' →
            (Tiled root'' ∧ ∀ path c, cellAt path root'' = some c → Small c) ∧
              op.Sizes root' root'' := by
  have hcells : ∀ {root : LayoutCell}, Tiled root → Small root →
      ∀ path c, cellAt path root = some c → Small c := fun h hs path c hat type =>
    ((h.subcell hat).2 type).trans_lt (hs type)
  obtain ⟨htiled, hsmall⟩ := h.run hw hs hrun
  refine ⟨⟨htiled, hcells htiled hsmall⟩, fun op happlies hfits => ⟨htiled.noWrap hfits, ?_⟩⟩
  obtain ⟨r, hret, hnext⟩ := htiled.exec hw hsmall happlies hfits
  refine ⟨r, hret, fun root'' hroot => ?_⟩
  obtain ⟨htiled', hsmall', hsizes⟩ := hnext root'' hroot
  exact ⟨⟨htiled', hcells htiled' hsmall'⟩, hsizes⟩

def wholeWindow : LayoutCell := .windowpane false (some 0) ⟨80, 24, 0, 0⟩

theorem wholeWindow_tiled : Tiled wholeWindow := .windowpane (by decide) (by decide)

theorem wholeWindow_small : Small wholeWindow := by rintro (_ | _) <;> decide

/-- The window split down the middle. -/
def halvedWindow : LayoutCell :=
  .node .topbottom ⟨80, 24, 0, 0⟩
    [.windowpane false (some 0) ⟨80, 12, 0, 0⟩, .windowpane false (some 1) ⟨80, 11, 0, 13⟩]

theorem wholeWindow_halved : Step .plain wholeWindow halvedWindow := by
  refine ⟨.splitPane 1 0 [] .topbottom (-1) false (some 1), ⟨⟨_, _, rfl⟩, by decide⟩, ?_,
    ⟨0, fun _ _ => rfl⟩⟩
  rintro _ _ ⟨⟩ -
  exact ⟨by decide, fun _ => by decide, fun _ => by decide⟩

/-- Closing the upper half gives its lines and the border to the lower one, which then is the
window. -/
theorem halvedWindow_run_tiled :
    Tiled halvedWindow ∧ 11 + (12 + 1) ≤ 24 ∧
      ∃ root, Returns (fun fuel => layoutDestroyCell .plain fuel halvedWindow [0]) (some root) ∧
        Tiled root ∧ root.size .leftright = 80 ∧ root.size .topbottom = 24 := by
  obtain ⟨⟨htiled, -⟩, hnext⟩ := layout_run_tiled WindowOptions.plain_bare wholeWindow_tiled
    wholeWindow_small (.single wholeWindow_halved)
  obtain ⟨hwrap, r, hret, hclosed⟩ := hnext (.destroyCell [0]) ⟨by decide, _, _, rfl⟩ trivial
  refine ⟨htiled, hwrap [] 0 1 _ _ _ _ _ rfl rfl rfl rfl (by decide), ?_⟩
  have hlower : Returns (fun fuel => layoutDestroyCell .plain fuel halvedWindow [0])
      (some (.windowpane false (some 1) ⟨80, 24, 0, 0⟩)) :=
    .of_succ ⟨0, fun _ _ => rfl⟩
  obtain ⟨⟨hroot, -⟩, hsizes⟩ := hclosed _ (hret.unique hlower)
  exact ⟨_, hlower, hroot, hsizes .leftright, hsizes .topbottom⟩

/-- Asked for 30 of 24 lines, a split leaves the upper half a size that wrapped: 30 is
within the bound, which is taken from the 80 columns. -/
theorem wholeWindow_split_not_tiled :
    ∃ op : Op, Tiled wholeWindow ∧ Small wholeWindow ∧ op.Applies wholeWindow ∧
      ∃ root, Returns (fun fuel => op.exec .plain wholeWindow fuel) (some root) ∧ ¬ Tiled root := by
  refine ⟨.splitPane 1 0 [] .topbottom 30 false (some 1), wholeWindow_tiled, wholeWindow_small,
    ⟨⟨_, _, rfl⟩, by decide⟩, _, ⟨0, fun _ _ => rfl⟩, fun h => ?_⟩
  have halong := (tiled_node_iff.mp h).2.along
  exact absurd halong (by decide)

end Ztmux.Layout
