import Ztmux.Layout.Pruned
import Ztmux.Layout.Resizable
import Ztmux.Layout.Exact

/-!
Closing the bottom right cells of a layout that has been read.

A leaf hands its space to the cell before it and is taken out of its node. When it is the only cell
there is no cell to hand it to: the node stays without cells, and the next round finds no leaf at
the bottom right. What a round does to the shape does not depend on the sizes.
-/

namespace Ztmux.Layout

open RoundRobin LayoutCell

variable {w : WindowOptions} {type : LayoutType}

/-! ### Handing space on -/

theorem solid_iff_shape (c : LayoutCell) : Solid c ↔ c.shape.Solid := by
  induction c with
  | windowpane floating wp g =>
      constructor
      · intro h
        cases h
        exact .leaf
      · intro h
        cases h
        exact .windowpane
  | node t g cells ih =>
      rw [shape_node]
      constructor
      · intro h
        cases h with
        | node hne hcells =>
            refine .node (by simpa using hne) fun s hs => ?_
            obtain ⟨c, hc, rfl⟩ := List.mem_map.mp hs
            exact (ih c hc).mp (hcells c hc)
      · intro h
        obtain ⟨hne, hcells⟩ := h.ofNode
        exact .node (by simpa using hne) fun c hc =>
          (ih c hc).mpr (hcells _ (List.mem_map_of_mem hc))

section

variable {fuel i : Nat} {e : Edge} {t : LayoutType} {cells : List LayoutCell} {size : UInt32}

theorem layoutResizeAdjust_resized {c c' : LayoutCell} {change : Int} (hf : inFlow c)
    (h : layoutResizeAdjust w type fuel e c change = .ok c') : Resized type c c' := by
  obtain ⟨grow, k, rfl⟩ := exists_signed change
  exact adjustBy_resized hf (layoutResizeAdjust_ok_iff.mp ⟨fuel, h⟩)

theorem getElem?_withEdges {j : Nat} (hj : j < cells.length) :
    (withEdges e t cells)[j]? = some (e.child t cells j, cells[j]) := by
  simp [withEdges, Edge.children, hj]

theorem giveToNeighbour_noNull (hi : i < cells.length) :
    NoNull (giveToNeighbour w fuel e t cells i size) := by
  rw [giveToNeighbour]
  cases hneighbour : layoutCellGetNeighbour cells i with
  | none => exact noNull_pure _
  | some j =>
      obtain ⟨-, c, hc, -⟩ := layoutCellGetNeighbour_eq_some hneighbour hi
      obtain ⟨hj, -⟩ := List.getElem?_eq_some_iff.mp hc
      refine NoNull.bind (adjustSibling_noNull ?_ _) fun _ _ => noNull_pure _
      rwa [length_withEdges]

/-- Handing space on changes no shape. -/
theorem shape_giveToNeighbour {cells' : List LayoutCell} (hi : i < cells.length)
    (h : giveToNeighbour w fuel e t cells i size = .ok (some cells')) :
    cells'.map LayoutCell.shape = cells.map LayoutCell.shape := by
  rw [giveToNeighbour] at h
  cases hneighbour : layoutCellGetNeighbour cells i with
  | none =>
      rw [hneighbour] at h
      cases h
  | some j =>
      obtain ⟨-, c, hc, hflow⟩ := layoutCellGetNeighbour_eq_some hneighbour hi
      obtain ⟨hj, hcj⟩ := List.getElem?_eq_some_iff.mp hc
      rw [hneighbour] at h
      obtain ⟨ps, hps, h⟩ := bind_eq_ok.mp h
      rw [adjustSibling, getElem?_withEdges hj] at hps
      obtain ⟨c', hc', hset⟩ := bind_eq_ok.mp hps
      obtain rfl := Option.some.inj (Except.ok.inj h)
      rw [← Except.ok.inj hset, List.map_set, map_snd_withEdges, List.map_set]
      subst hcj
      rw [(layoutResizeAdjust_resized hflow hc').shape, ← List.map_set, List.set_getElem_self]

/-- The last of some cells has a neighbour when all of them are in the flow. -/
theorem exists_neighbour {front : List LayoutCell} {last : LayoutCell} (hfront : front ≠ [])
    (hflow : ∀ c ∈ front, inFlow c) : ∃ j, layoutCellGetNeighbour (front ++ [last]) front.length =
      some j := by
  have hpos := List.length_pos_iff.mpr hfront
  have hget : (front ++ [last])[0]? = some front[0] := by
    rw [List.getElem?_append_left hpos, List.getElem?_eq_getElem hpos]
  exact Option.isSome_iff_exists.mp
    (layoutCellGetNeighbour_isSome hget (hflow _ (List.getElem_mem hpos)) hpos.ne)

theorem giveToNeighbour_ne_none {front : List LayoutCell} {last : LayoutCell} (hfront : front ≠ [])
    (hflow : ∀ c ∈ front, inFlow c) :
    giveToNeighbour w fuel e t (front ++ [last]) front.length size ≠ .ok none := by
  intro h
  obtain ⟨j, hj⟩ := @exists_neighbour front last hfront hflow
  rw [giveToNeighbour, hj] at h
  obtain ⟨ps, -, h⟩ := bind_eq_ok.mp h
  cases h

theorem giveToNeighbour_only (c : LayoutCell) : giveToNeighbour w fuel e t [c] 0 size = .ok none :=
  rfl

theorem shape_collapse (isRoot : Bool) (g : Geometry) (cells : List LayoutCell) :
    (collapse isRoot t g cells).shape = .joined t (cells.map LayoutCell.shape) := by
  match cells with
  | [] => rfl
  | [c] =>
      rw [collapse]
      split_ifs
      · exact shape_setOffset c 0 0
      · rfl
  | c :: d :: cells => exact shape_node t g _

/-! ### The bottom right leaf -/

theorem bottomrightOf_concat (i : Nat) (front : List LayoutCell) (last : LayoutCell) :
    bottomrightOf i (front ++ [last]) =
      (layoutFindBottomright last).map (List.cons (i + front.length)) := by
  induction front generalizing i with
  | nil => rfl
  | cons c front ih =>
      rw [List.cons_append, bottomrightOf, if_neg (by simp), ih, List.length_cons,
        Nat.add_right_comm, Nat.add_assoc]

/-- A node with no cells and no size is at the bottom right. -/
inductive Emptied : LayoutCell → Prop
  | here {t : LayoutType} : Emptied (.node t ⟨0, 0, 0, 0⟩ [])
  | within {t : LayoutType} {g : Geometry} {front : List LayoutCell} {c : LayoutCell} : Emptied c →
      Emptied (.node t g (front ++ [c]))

theorem Emptied.layoutFindBottomright {c : LayoutCell} (h : Emptied c) :
    Layout.layoutFindBottomright c = none := by
  induction h with
  | here => rfl
  | within _ ih => rw [Layout.layoutFindBottomright, bottomrightOf_concat, ih, Option.map_none]

/-- What comes of a leaf that is taken out. -/
structure TakenOut (s' : Shape) (x : Exec (LayoutCell × Bool)) : Prop where
  noNull : NoNull x
  shape : ∀ r, x = .ok r → r.1.shape = s' ∧ r.2 = false

/-- What comes of a leaf that is alone. -/
structure LeftEmpty (isRoot : Bool) (c : LayoutCell) (x : Exec (LayoutCell × Bool)) : Prop where
  emptied : ∀ r, x = .ok r → (isRoot = true → 1 < c.shape.leaves) → Emptied r.1
  leaves : ∀ r, x = .ok r → r.1.shape.leaves + 1 = c.shape.leaves

theorem layoutFindBottomright_ne_nil {g : Geometry} {path : List Nat}
    (h : layoutFindBottomright (.node t g cells) = some path) : path ≠ [] := by
  rcases List.eq_nil_or_concat cells with rfl | ⟨front, last, rfl⟩
  · cases h
  · rw [layoutFindBottomright, List.concat_eq_append, bottomrightOf_concat] at h
    obtain ⟨_, -, rfl⟩ := Option.map_eq_some_iff.mp h
    exact List.cons_ne_nil _ _

/-- The cells of a node after space has been handed on, as those before the last one and the last
one. -/
theorem exists_front {front cells' : List LayoutCell} {last : LayoutCell}
    (h : cells'.map LayoutCell.shape = (front ++ [last]).map LayoutCell.shape) :
    ∃ front' : List LayoutCell, front'.map LayoutCell.shape = front.map LayoutCell.shape ∧
      cells'.eraseIdx front.length = front' ∧ ∀ c, cells'.set front.length c = front' ++ [c] := by
  rw [List.map_append] at h
  obtain ⟨front', last', rfl, hfront, hlast⟩ := List.map_eq_append_iff.mp h
  obtain ⟨x, rfl, -⟩ := List.map_eq_singleton_iff.mp hlast
  have hlength : front'.length = front.length := by simpa using congrArg List.length hfront
  exact ⟨front', hfront, by simp [← hlength, List.eraseIdx_append_of_length_le], fun c => by
    simp [← hlength]⟩

theorem shape_concat (g : Geometry) {front front' : List LayoutCell} (c : LayoutCell)
    (h : front'.map LayoutCell.shape = front.map LayoutCell.shape) :
    (node t g (front' ++ [c])).shape = .node t (front.map LayoutCell.shape ++ [c.shape]) := by
  rw [shape_node, List.map_append, h]
  rfl

/-- Taking a leaf out below the last cell of a node changes that cell and no shape before it. -/
theorem destroyIn_within {isRoot : Bool} {path : List Nat} {g : Geometry} {front : List LayoutCell}
    {last : LayoutCell}
    {r : LayoutCell × Bool} (hne : path ≠ [])
    (h : destroyIn w fuel isRoot (front.length :: path) e (.node t g (front ++ [last])) = .ok r) :
    ∃ r' g' front', destroyIn w fuel false path (e.child t (front ++ [last]) front.length) last =
      .ok r' ∧
      r.1 = .node t g' (front' ++ [r'.1]) ∧ front'.map LayoutCell.shape =
        front.map LayoutCell.shape := by
  have hlt : front.length < (front ++ [last]).length := by simp
  have hset : ∀ c, (front ++ [last]).set front.length c = front ++ [c] := fun c => by simp
  rw [destroyIn, List.getElem?_concat_length] at h
  dsimp only at h
  rw [if_neg hne] at h
  obtain ⟨r', hr', h⟩ := bind_eq_ok.mp h
  refine ⟨r', ?_⟩
  by_cases hout : r'.2
  · rw [if_pos hout] at h
    obtain ⟨handed, hhanded, h⟩ := bind_eq_ok.mp h
    cases handed with
    | none =>
        refine ⟨if isRoot then g else ⟨0, 0, 0, 0⟩, front, hr', ?_, rfl⟩
        rw [← Except.ok.inj h, hset]
    | some cells' =>
        obtain ⟨front', hshapes, -, hset'⟩ := exists_front (shape_giveToNeighbour hlt hhanded)
        refine ⟨g, front', hr', ?_, hshapes⟩
        rw [← Except.ok.inj h, hset']
  · rw [if_neg hout] at h
    refine ⟨g, front, hr', ?_, rfl⟩
    rw [← Except.ok.inj h, hset]

/-- The bottom right leaf is taken out of the shape, or it is alone and its node stays without
cells. -/
theorem destroyIn_bottomright {c : LayoutCell} (hsolid : Solid c) {path : List Nat}
    (hpath : layoutFindBottomright c = some path) (hne : path ≠ []) (isRoot : Bool) (e : Edge) :
    (∃ s', c.shape.Closed s' ∧ TakenOut s' (destroyIn w fuel isRoot path e c)) ∨
      (c.shape.Alone ∧ LeftEmpty isRoot c (destroyIn w fuel isRoot path e c)) := by
  induction c generalizing path isRoot e with
  | windowpane floating wp g =>
      obtain rfl := Option.some.inj hpath
      exact absurd rfl hne
  | node t g cells ih =>
      cases hsolid with
      | node hcells hsolids =>
          obtain ⟨front, last, rfl⟩ : ∃ front last, cells = front ++ [last] :=
            ⟨_, _, (List.dropLast_append_getLast hcells).symm⟩
          rw [layoutFindBottomright, bottomrightOf_concat, Nat.zero_add] at hpath
          obtain ⟨path', hpath', rfl⟩ := Option.map_eq_some_iff.mp hpath
          have hget : (front ++ [last])[front.length]? = some last := List.getElem?_concat_length
          have hlast : last ∈ front ++ [last] :=
            List.mem_append_right _ (List.mem_singleton_self last)
          have hlt : front.length < (front ++ [last]).length := by simp
          have hflow : ∀ c ∈ front, inFlow c :=
            fun c hc => (hsolids c (List.mem_append_left _ hc)).inFlow
          cases last with
          | windowpane floating wp g' =>
              obtain rfl := Option.some.inj hpath'
              cases hsolids _ hlast
              rw [destroyIn, hget]
              dsimp only
              rw [if_pos rfl, if_neg (by simp [layoutCellIsTiled])]
              by_cases hfront : front = []
              · subst hfront
                refine .inr ⟨by rw [shape_node]; exact .leaf, ?_⟩
                rw [List.nil_append, List.length_nil, giveToNeighbour_only]
                refine ⟨fun r h hroot => ?_, fun r h => ?_⟩
                · cases isRoot with
                  | true => exact absurd (hroot rfl) (by simp)
                  | false =>
                      rw [← Except.ok.inj h]
                      exact .here
                · rw [← Except.ok.inj h]
                  rfl
              · refine .inl ⟨.joined t (front.map LayoutCell.shape), ?_, ?_, fun r h => ?_⟩
                · rw [shape_node, List.map_append]
                  exact .leaf (by simpa using hfront)
                · refine (giveToNeighbour_noNull hlt).bind fun r _ => ?_
                  cases r <;> exact noNull_pure _
                · obtain ⟨r', hr', h⟩ := bind_eq_ok.mp h
                  cases r' with
                  | none => exact absurd hr' (giveToNeighbour_ne_none hfront hflow)
                  | some cells' =>
                      obtain ⟨front', hshapes, herase, -⟩ :=
                        exists_front (shape_giveToNeighbour hlt hr')
                      rw [← Except.ok.inj h, shape_collapse, herase, hshapes]
                      exact ⟨rfl, rfl⟩
          | node t' g' cells' =>
              have hne' := layoutFindBottomright_ne_nil hpath'
              have hset : ∀ c, (front ++ [node t' g' cells']).set front.length c = front ++ [c] :=
                fun c => by simp
              rw [shape_concat g _ rfl]
              rcases ih _ hlast (hsolids _ hlast) hpath' hne' false
                (e.child t (front ++ [node t' g' cells']) front.length) with
                ⟨s', hclosed, hnull, htaken⟩ | ⟨halone, hemptied, hleaves⟩
              · refine .inl ⟨_, .within hclosed, ?_, fun r h => ?_⟩
                · rw [destroyIn, hget]
                  dsimp only
                  rw [if_neg hne']
                  refine hnull.bind fun r hr => ?_
                  rw [if_neg (by rw [(htaken r hr).2]; exact Bool.false_ne_true)]
                  exact noNull_pure _
                · rw [destroyIn, hget] at h
                  dsimp only at h
                  rw [if_neg hne'] at h
                  obtain ⟨r', hr', h⟩ := bind_eq_ok.mp h
                  obtain ⟨hshape, hout⟩ := htaken r' hr'
                  rw [if_neg (by rw [hout]; exact Bool.false_ne_true)] at h
                  rw [← Except.ok.inj h, hset, shape_concat g _ rfl, hshape]
                  exact ⟨rfl, rfl⟩
              · refine .inr ⟨.within halone, fun r h _ => ?_, fun r h => ?_⟩
                · obtain ⟨r', g'', front', hr', hcell, -⟩ := destroyIn_within hne' h
                  rw [hcell]
                  exact .within (hemptied r' hr' fun h => absurd h Bool.false_ne_true)
                · obtain ⟨r', g'', front', hr', hcell, hshapes⟩ := destroyIn_within hne' h
                  have hone := hleaves r' hr'
                  rw [hcell, shape_concat g'' _ hshapes, shape_concat g _ rfl, Shape.leaves,
                    Shape.leaves, sumLeaves_concat, sumLeaves_concat]
                  omega

theorem layoutFindBottomright_isSome {c : LayoutCell} (h : Solid c) :
    ∃ path, layoutFindBottomright c = some path := by
  induction c with
  | windowpane floating wp g => exact ⟨[], rfl⟩
  | node t g cells ih =>
      cases h with
      | node hcells hsolids =>
          obtain ⟨front, last, rfl⟩ : ∃ front last, cells = front ++ [last] :=
            ⟨_, _, (List.dropLast_append_getLast hcells).symm⟩
          have hlast : last ∈ front ++ [last] :=
            List.mem_append_right _ (List.mem_singleton_self last)
          obtain ⟨path, hpath⟩ := ih last hlast (hsolids last hlast)
          exact ⟨(0 + front.length) :: path,
            by rw [layoutFindBottomright, bottomrightOf_concat, hpath]; rfl⟩

/-! ### The rounds -/

variable {n rounds : Nat} {root : LayoutCell}

/-- What the rounds end with: the first leaves, or a node left without cells. -/
def Ended (n : Nat) (root : LayoutCell) (r : Except ParseError LayoutCell) : Prop :=
  ∃ root', r = .ok root' ∧ layoutCountCells root' = n ∧
    ((root.shape.OnlyKept n ∧ Solid root' ∧ root'.shape = root.shape.keep n) ∨
      (¬ root.shape.OnlyKept n ∧ Emptied root'))

theorem closeBottomright_emptied {r : Except ParseError LayoutCell} (h : Emptied root)
    (hn : n ≤ layoutCountCells root)
    (hclose : closeBottomright w fuel n rounds root = .ok r) :
    r = .ok root ∧ layoutCountCells root = n := by
  cases rounds with
  | zero => cases hclose
  | succ rounds =>
      rw [closeBottomright, if_neg (by omega)] at hclose
      split_ifs at hclose with hcount
      · exact ⟨(Except.ok.inj hclose).symm, hcount.symm⟩
      · rw [h.layoutFindBottomright] at hclose
        cases hclose

theorem closeBottomright_spec (hsolid : Solid root) (hpos : 0 < n)
    (hn : n ≤ layoutCountCells root) :
    (root.shape.OnlyKept n → NoNull (closeBottomright w fuel n rounds root)) ∧
      ∀ r, closeBottomright w fuel n rounds root = .ok r → Ended n root r := by
  induction rounds generalizing root with
  | zero => exact ⟨fun _ => noNull_outOfFuel, fun r h => (nomatch h)⟩
  | succ rounds ih =>
      have hshape := (solid_iff_shape root).mp hsolid
      rw [layoutCountCells_eq_leaves] at hn
      rw [closeBottomright, layoutCountCells_eq_leaves, if_neg (by omega)]
      by_cases hcount : n = root.shape.leaves
      · have hkept := hshape.onlyKept_of_le hcount.ge
        rw [if_pos hcount]
        refine ⟨fun _ => noNull_pure _,
          fun r h => ⟨root, (Except.ok.inj h).symm, ?_, .inl ⟨hkept, hsolid, ?_⟩⟩⟩
        · rw [layoutCountCells_eq_leaves, hcount]
        · rw [hshape.keep_of_le hcount.ge]
      · obtain ⟨path, hpath⟩ := layoutFindBottomright_isSome hsolid
        have hne : path ≠ [] := by
          rintro rfl
          cases root with
          | windowpane floating wp g =>
              exact hcount (by rw [shape_windowpane, Shape.leaves_leaf] at hn ⊢; omega)
          | node t g cells => exact layoutFindBottomright_ne_nil hpath rfl
        rw [if_neg hcount, hpath]
        dsimp only
        rw [layoutDestroyCell, if_neg hne]
        rcases @destroyIn_bottomright w fuel root hsolid path hpath hne true .root with
          ⟨s', hclosed, hnull, htaken⟩ | ⟨halone, hemptied, hleaves⟩
        · have hkept := hclosed.onlyKept_iff hshape (n := n) (by omega)
          have hleaves := hclosed.leaves
          have hnext : ∀ r, destroyIn w fuel true path .root root = .ok r → Solid r.1 ∧
              n ≤ layoutCountCells r.1 := by
            intro r hr
            rw [solid_iff_shape, layoutCountCells_eq_leaves, (htaken r hr).1]
            exact ⟨hclosed.solid hshape, by omega⟩
          constructor
          · intro honly
            refine NoNull.bind (hnull.bind fun _ _ => noNull_pure _) fun r hr => ?_
            obtain ⟨r', hr', hsome⟩ := bind_eq_ok.mp hr
            rw [← Except.ok.inj hsome]
            obtain ⟨hsolid', hn'⟩ := hnext r' hr'
            refine (ih hsolid' hn').1 ?_
            rw [(htaken r' hr').1]
            exact hkept.mpr honly
          · intro r hr
            obtain ⟨r₁, hr₁, hr⟩ := bind_eq_ok.mp hr
            obtain ⟨r', hr', hsome⟩ := bind_eq_ok.mp hr₁
            rw [← Except.ok.inj hsome] at hr
            obtain ⟨hsolid', hn'⟩ := hnext r' hr'
            obtain ⟨root', hroot', hcount', hended⟩ := (ih hsolid' hn').2 r hr
            rw [(htaken r' hr').1, hkept, hclosed.keep hpos (by omega)] at hended
            exact ⟨root', hroot', hcount', hended⟩
        · have hnot := halone.not_onlyKept (n := n) (by omega)
          refine ⟨fun honly => absurd honly hnot, fun r hr => ?_⟩
          obtain ⟨r₁, hr₁, hr⟩ := bind_eq_ok.mp hr
          obtain ⟨r', hr', hsome⟩ := bind_eq_ok.mp hr₁
          rw [← Except.ok.inj hsome] at hr
          have hone := hleaves r' hr'
          have hempty := hemptied r' hr' fun _ => by omega
          obtain ⟨hok, hcount'⟩ :=
            closeBottomright_emptied hempty (by rw [layoutCountCells_eq_leaves]; omega) hr
          exact ⟨r'.1, hok, hcount', .inr ⟨hnot, hempty⟩⟩

end

end Ztmux.Layout
