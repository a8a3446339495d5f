import Ztmux.Layout.Closing
import Ztmux.Layout.Spared
import Ztmux.Layout.Termination
import Ztmux.Layout.Tiled
import Ztmux.Layout.Scanned

/-!
The rounds that close the bottom right cells, and when they end.

The size of the leaf and its border are handed to the cell before it as an `i32`. A size that does
not fit is handed on as a loss, and the round ends only if the cell can spare as much. What the
leaf hands on depends on the rounds before it, so this is asked of the layout each round starts
with.
-/

namespace Ztmux.Layout

open RoundRobin LayoutCell

variable {w : WindowOptions} {type t : LayoutType} {e : Edge} {n fuel : Nat}

/-! ### Handing on -/

/-- What the space of a cell of this size and the border beside it are handed on as. -/
def handed (size : UInt32) : Int := wrapI32 (asI32 size + 1)

/-- The bottom right leaf can hand its space on: it adds to the cell before it, or that cell can
spare what it is asked for. -/
inductive HandsOn (w : WindowOptions) : Edge → LayoutCell → Prop
  | adds {e : Edge} {t : LayoutType} {g g' : Geometry} {cells : List LayoutCell} {floating : Bool}
      {wp : Option Nat} : 0 ≤ handed (g'.size t) →
        HandsOn w e (.node t g (cells ++ [.windowpane floating wp g']))
  | spares {e : Edge} {t : LayoutType} {g g' : Geometry} {front : List LayoutCell} {c : LayoutCell}
      {floating : Bool} {wp : Option Nat} :
        Spares w t (-handed (g'.size t)).toNat
          (e.child t (front ++ [c, .windowpane floating wp g']) front.length) c →
        HandsOn w e (.node t g (front ++ [c, .windowpane floating wp g']))
  | within {e : Edge} {t : LayoutType} {g : Geometry} {front : List LayoutCell} {c : LayoutCell} :
      HandsOn w (e.child t (front ++ [c]) front.length) c → HandsOn w e (.node t g (front ++ [c]))

/-- A change that adds, or that the cell can spare. -/
def Absorbs (w : WindowOptions) (type : LayoutType) (change : Int) (e : Edge) (c : LayoutCell) :
    Prop :=
  0 ≤ change ∨ Spares w type (-change).toNat e c

theorem handsOn_last {front : List LayoutCell} {c : LayoutCell} {floating : Bool} {wp : Option Nat}
    {g g' : Geometry} :
    HandsOn w e (.node t g (front ++ [c, .windowpane floating wp g'])) ↔
      Absorbs w t (handed (g'.size t))
        (e.child t (front ++ [c, .windowpane floating wp g']) front.length)
        c := by
  have hsplit : front ++ [c, .windowpane floating wp g'] =
      (front ++ [c]) ++ [.windowpane floating wp g'] := by
    simp
  constructor
  · intro h
    generalize hcells : front ++ [c, .windowpane floating wp g'] = cells at h
    generalize hroot : LayoutCell.node t g cells = root at h
    cases h with
    | adds h =>
        obtain ⟨rfl, rfl, rfl⟩ := LayoutCell.node.inj hroot
        rw [hsplit] at hcells
        obtain ⟨-, hlast⟩ := List.append_inj' hcells rfl
        cases hlast
        exact .inl h
    | spares h =>
        obtain ⟨rfl, rfl, rfl⟩ := LayoutCell.node.inj hroot
        obtain ⟨rfl, hlast⟩ := List.append_inj' hcells rfl
        cases hlast
        exact .inr h
    | within h =>
        obtain ⟨rfl, rfl, rfl⟩ := LayoutCell.node.inj hroot
        rw [hsplit] at hcells
        obtain ⟨-, hlast⟩ := List.append_inj' hcells rfl
        cases hlast
        cases h
  · rintro (h | h)
    · rw [hsplit]
      exact .adds h
    · exact .spares h

theorem handsOn_within {front : List LayoutCell} {g g' : Geometry} {t' : LayoutType}
    {cells : List LayoutCell} :
    HandsOn w e (.node t g (front ++ [.node t' g' cells])) ↔
      HandsOn w (e.child t (front ++ [.node t' g' cells]) front.length) (.node t' g' cells) := by
  refine ⟨fun h => ?_, .within⟩
  generalize hcells : front ++ [LayoutCell.node t' g' cells] = cells' at h ⊢
  generalize hroot : LayoutCell.node t g cells' = root at h
  cases h with
  | adds h =>
      obtain ⟨rfl, rfl, rfl⟩ := LayoutCell.node.inj hroot
      obtain ⟨-, hlast⟩ := List.append_inj' hcells rfl
      cases hlast
  | @spares _ _ _ _ front' c _ _ h =>
      obtain ⟨rfl, rfl, rfl⟩ := LayoutCell.node.inj hroot
      obtain ⟨-, hlast⟩ := List.append_inj' (hcells.trans (List.append_cons front' c _)) rfl
      cases hlast
  | within h =>
      obtain ⟨rfl, rfl, rfl⟩ := LayoutCell.node.inj hroot
      obtain ⟨rfl, hlast⟩ := List.append_inj' hcells rfl
      cases hlast
      exact h

/-- A solid cell is adjusted by what it absorbs and by nothing else. -/
theorem layoutResizeAdjust_absorbs {c : LayoutCell} (hsolid : Solid c) (change : Int) :
    ((∃ fuel c', layoutResizeAdjust w type fuel e c change = .ok c') → Absorbs w type change e c) ∧
      (Absorbs w type change e c →
        ∃ c', Returns (fun fuel => layoutResizeAdjust w type fuel e c change) c') := by
  rcases Int.lt_or_le change 0 with hneg | hpos
  · have hchange : change = signed false (-change).toNat := by
      rw [signed_false]
      omega
    constructor
    · rintro ⟨fuel, c', h⟩
      rw [hchange] at h
      exact .inr (hsolid.adjustBy_isSome_iff.mp
        (by rw [layoutResizeAdjust_ok_iff.mp ⟨fuel, h⟩]; rfl))
    · intro h
      have hspares : Spares w type (-change).toNat e c := h.resolve_left (by omega)
      obtain ⟨c', hc'⟩ := Option.isSome_iff_exists.mp (hsolid.adjustBy_isSome_iff.mpr hspares)
      have hreturns := returns_layoutResizeAdjust hc'
      rw [← hchange] at hreturns
      exact ⟨c', hreturns⟩
  · refine ⟨fun _ => .inl hpos, fun _ => ?_⟩
    obtain ⟨c', hc'⟩ := Option.isSome_iff_exists.mp
      (@adjustBy_grow_isSome w type change.toNat e c)
    have hreturns := returns_layoutResizeAdjust hc'
    rw [signed_true, Int.toNat_of_nonneg hpos] at hreturns
    exact ⟨c', hreturns⟩

section

variable {front : List LayoutCell} {c last : LayoutCell} {size : UInt32}

theorem layoutCellGetNeighbour_last (hflow : inFlow c) :
    layoutCellGetNeighbour (front ++ [c, last]) (front.length + 1) = some front.length := by
  have htake : (front ++ [c, last]).take (front.length + 1) = front ++ [c] := by
    rw [List.append_cons, List.take_left' (by simp)]
  have hfound : (c :: front.reverse).findIdx? inFlow = some 0 := by
    rw [List.findIdx?_cons, if_pos hflow]
  simp [layoutCellGetNeighbour, layoutCellGetNeighbourDirection, htake, hfound]

/-- The cell before the last one is given its space. -/
theorem giveToNeighbour_last (hflow : inFlow c) :
    giveToNeighbour w fuel e t (front ++ [c, last]) (front.length + 1) size =
      layoutResizeAdjust w t fuel (e.child t (front ++ [c, last]) front.length) c (handed size) >>=
        fun c' => .ok (some (front ++ [c', last])) := by
  have hget := @getElem?_withEdges e t (front ++ [c, last]) front.length (by simp)
  rw [List.getElem_append_right le_rfl] at hget
  simp only [Nat.sub_self, List.getElem_cons_zero] at hget
  rw [giveToNeighbour, layoutCellGetNeighbour_last hflow]
  dsimp only
  rw [adjustSibling, hget, handed]
  dsimp only
  rw [bind_assoc]
  refine congrArg _ (funext fun c' => ?_)
  rw [pure_bind, List.map_set, map_snd_withEdges]
  simp [pure, Except.pure]

/-- What is left when the leaf at the end of a node is taken out. -/
theorem destroyIn_last {isRoot : Bool} {wp : Option Nat} {g g' : Geometry} (hflow : inFlow c) :
    destroyIn w fuel isRoot [front.length + 1] e
        (.node t g (front ++ [c, .windowpane false wp g'])) =
      layoutResizeAdjust w t fuel
          (e.child t (front ++ [c, .windowpane false wp g']) front.length) c
            (handed (g'.size t)) >>=
        fun c' => .ok (collapse isRoot t g (front ++ [c']), false) := by
  have hleaf : (front ++ [c, .windowpane false wp g'])[front.length + 1]? =
      some (.windowpane false wp g') := by simp
  simp only [destroyIn, hleaf, if_true, layoutCellIsTiled, Bool.not_false, Bool.not_true,
    Bool.false_eq_true, if_false]
  rw [size_windowpane, giveToNeighbour_last hflow, bind_assoc]
  refine congrArg _ (funext fun c' => ?_)
  have herase : (front ++ [c', .windowpane false wp g']).eraseIdx (front.length + 1) =
      front ++ [c'] := by
    rw [List.eraseIdx_append_of_length_le (by omega), Nat.add_sub_cancel_left]
    rfl
  rw [ok_bind]
  dsimp only
  rw [herase]
  rfl

end

/-- The last cell of a node that is not alone has a cell before it. -/
theorem exists_before {front : List LayoutCell} {last : LayoutCell} (hfront : front ≠ []) :
    ∃ before c, front = before ++ [c] ∧ front ++ [last] = before ++ [c, last] ∧
      front.length = before.length + 1 := by
  refine ⟨front.dropLast, front.getLast hfront, (List.dropLast_append_getLast hfront).symm, ?_, ?_⟩
  · rw [List.append_cons front.dropLast, List.dropLast_append_getLast hfront]
  · rw [List.length_dropLast]
    have := List.length_pos_iff.mpr hfront
    omega

/-- The bottom right leaf is taken out exactly when it can hand its space on. -/
theorem destroyIn_handsOn {c : LayoutCell} (hsolid : Solid c) {path : List Nat}
    (hpath : layoutFindBottomright c = some path) (hne : path ≠ []) (hfree : ¬ c.shape.Alone)
    (isRoot : Bool) (e : Edge) :
    ((∃ fuel r, destroyIn w fuel isRoot path e c = .ok r) → HandsOn w e c) ∧
      (HandsOn w e c →
        ∃ c', Returns (fun fuel => destroyIn w fuel isRoot path e c) (c', false)) := by
  induction c generalizing path isRoot e with
  | windowpane floating wp g =>
      obtain rfl := Option.some.inj hpath
      exact absurd rfl hne
  | node t g cells ih =>
      cases hsolid with
      | node hcells hsolids =>
          obtain ⟨front, last, rfl⟩ : ∃ front last, cells = front ++ [last] :=
            ⟨_, _, (List.dropLast_append_getLast hcells).symm⟩
          rw [layoutFindBottomright, bottomrightOf_concat, Nat.zero_add] at hpath
          obtain ⟨path', hpath', rfl⟩ := Option.map_eq_some_iff.mp hpath
          have hlast : last ∈ front ++ [last] :=
            List.mem_append_right _ (List.mem_singleton_self last)
          have hget : (front ++ [last])[front.length]? = some last := List.getElem?_concat_length
          cases last with
          | windowpane floating wp g' =>
              obtain rfl := Option.some.inj hpath'
              cases hsolids _ hlast
              have hfront : front ≠ [] := by
                rintro rfl
                exact hfree (by rw [shape_node]; exact .leaf)
              obtain ⟨before, c, rfl, hsplit, hlength⟩ :=
                @exists_before front (.windowpane false wp g') hfront
              have hc : Solid c := hsolids c (by simp)
              obtain ⟨hof, hreturns⟩ := @layoutResizeAdjust_absorbs w t
                (e.child t (before ++ [c, .windowpane false wp g']) before.length) c hc
                  (handed (g'.size t))
              rw [hsplit, hlength, handsOn_last]
              simp only [destroyIn_last hc.inFlow]
              constructor
              · rintro ⟨fuel, r, h⟩
                obtain ⟨c', hc', -⟩ := bind_eq_ok.mp h
                exact hof ⟨fuel, c', hc'⟩
              · intro h
                obtain ⟨c', hc'⟩ := hreturns h
                exact ⟨_, hc'.bind (returns_pure _)⟩
          | node t' g' cells' =>
              have hne' := layoutFindBottomright_ne_nil hpath'
              have hfree' : ¬ (LayoutCell.node t' g' cells').shape.Alone := by
                intro halone
                exact hfree (by rw [shape_concat g _ rfl]; exact .within halone)
              obtain ⟨hof, hreturns⟩ := ih _ hlast (hsolids _ hlast) hpath' hne' hfree' false
                (e.child t (front ++ [node t' g' cells']) front.length)
              rw [handsOn_within]
              constructor
              · rintro ⟨fuel, r, h⟩
                obtain ⟨r', -, -, hr', -⟩ := destroyIn_within hne' h
                exact hof ⟨fuel, r', hr'⟩
              · intro h
                obtain ⟨c', hc'⟩ := hreturns h
                refine ⟨.node t g (front ++ [c']), ?_⟩
                simp only [destroyIn, hget, if_neg hne']
                refine hc'.bind ?_
                simp only [Bool.false_eq_true, if_false, List.set_append_right _ _ le_rfl,
                  Nat.sub_self, List.set_cons_zero]
                exact returns_pure _

/-! ### The rounds -/

section

variable {root root' : LayoutCell} {rounds : Nat}

/-- A round: while there are more than `n` cells the bottom right one is closed. -/
def Round (w : WindowOptions) (n : Nat) (root root' : LayoutCell) : Prop :=
  n < layoutCountCells root ∧ ∃ path, layoutFindBottomright root = some path ∧
    Returns (fun fuel => layoutDestroyCell w fuel root path) (some root')

/-- The bottom right cells are closed until there are `n` cells, and no node is left without
cells. -/
def Closes (w : WindowOptions) (n : Nat) (root : LayoutCell) : Prop :=
  ∃ root', Returns (fun fuel => closeBottomright w fuel n fuel root) (.ok root') ∧
    layoutCountCells root' = n ∧ Solid root'

/-- What every round keeps. -/
structure Closable (n : Nat) (root : LayoutCell) : Prop where
  solid : Solid root
  enough : n ≤ layoutCountCells root
  onlyKept : root.shape.OnlyKept n

theorem exists_bottomright (hsolid : Solid root) (hpos : 0 < n) (hlt : n < layoutCountCells root) :
    ∃ path, layoutFindBottomright root = some path ∧ path ≠ [] := by
  obtain ⟨path, hpath⟩ := layoutFindBottomright_isSome hsolid
  refine ⟨path, hpath, ?_⟩
  rintro rfl
  cases root with
  | windowpane floating wp g =>
      rw [layoutCountCells] at hlt
      omega
  | node t g cells => exact layoutFindBottomright_ne_nil hpath rfl

theorem closeBottomright_succ {path : List Nat} (hlt : n < layoutCountCells root)
    (hpath : layoutFindBottomright root = some path) (hne : path ≠ []) :
    closeBottomright w fuel n (rounds + 1) root =
      destroyIn w fuel true path .root root >>= fun r => closeBottomright w fuel n rounds r.1 := by
  rw [closeBottomright, if_neg (by omega), if_neg (by omega), hpath]
  dsimp only
  rw [layoutDestroyCell, if_neg hne, bind_assoc]
  rfl

/-- More rounds than are needed change nothing. -/
theorem closeBottomright_rounds {r : Except ParseError LayoutCell}
    (h : closeBottomright w fuel n rounds root = .ok r) :
    closeBottomright w fuel n (rounds + 1) root = .ok r := by
  induction rounds generalizing root with
  | zero => cases h
  | succ rounds ih =>
      rw [closeBottomright] at h ⊢
      split_ifs at h ⊢
      · exact h
      · exact h
      · cases hpath : layoutFindBottomright root with
        | none =>
            rw [hpath] at h
            cases h
        | some path =>
            rw [hpath] at h
            obtain ⟨next, hnext, h⟩ := bind_eq_ok.mp h
            refine bind_eq_ok.mpr ⟨next, hnext, ?_⟩
            cases next with
            | none => cases h
            | some next => exact ih h

theorem Closable.not_alone (h : Closable n root) (hlt : n < layoutCountCells root) :
    ¬ root.shape.Alone := by
  rw [layoutCountCells_eq_leaves] at hlt
  exact fun halone => halone.not_onlyKept hlt h.onlyKept

/-- One leaf fewer, and what the rounds keep. -/
theorem Closable.destroyed (h : Closable n root) (hlt : n < layoutCountCells root) {path : List Nat}
    (hpath : layoutFindBottomright root = some path) (hne : path ≠ []) {r : LayoutCell × Bool}
    (hr : destroyIn w fuel true path .root root = .ok r) :
    Closable n r.1 ∧ layoutCountCells r.1 + 1 = layoutCountCells root := by
  have hshape := (solid_iff_shape root).mp h.solid
  rcases @destroyIn_bottomright w fuel root h.solid path hpath hne true .root with
    ⟨s', hclosed, -, htaken⟩ | ⟨halone, -⟩
  · have hs := (htaken r hr).1
    have hleaves := hclosed.leaves
    rw [layoutCountCells_eq_leaves] at hlt
    have hcount : layoutCountCells r.1 + 1 = layoutCountCells root := by
      rw [layoutCountCells_eq_leaves, layoutCountCells_eq_leaves, hs, hleaves]
    refine ⟨⟨(solid_iff_shape r.1).mpr ?_, ?_, ?_⟩, hcount⟩
    · rw [hs]
      exact hclosed.solid hshape
    · rw [layoutCountCells_eq_leaves, hs]
      omega
    · rw [hs]
      exact (hclosed.onlyKept_iff hshape hlt).mpr h.onlyKept
  · exact absurd halone (h.not_alone hlt)

theorem Round.destroyed {path : List Nat} (h : Round w n root root')
    (hpath : layoutFindBottomright root = some path) (hne : path ≠ []) :
    ∃ m, ∀ fuel, m ≤ fuel → ∃ out, destroyIn w fuel true path .root root = .ok (root', out) := by
  obtain ⟨-, path', hpath', m, hm⟩ := h
  obtain rfl : path = path' := Option.some.inj (hpath.symm.trans hpath')
  refine ⟨m, fun fuel hfuel => ?_⟩
  have hdestroy : layoutDestroyCell w fuel root path = .ok (some root') := hm fuel hfuel
  rw [layoutDestroyCell, if_neg hne] at hdestroy
  obtain ⟨⟨c, out⟩, hr, hsome⟩ := bind_eq_ok.mp hdestroy
  obtain rfl := Option.some.inj (Except.ok.inj hsome)
  exact ⟨out, hr⟩

/-- The next round starts with a layout that closes too. -/
theorem Closes.next (hcloses : Closes w n root) (h : Closable n root) (hpos : 0 < n)
    (hlt : n < layoutCountCells root) :
    HandsOn w .root root ∧ ∀ root', Round w n root root' → Closes w n root' := by
  obtain ⟨path, hpath, hne⟩ := exists_bottomright h.solid hpos hlt
  obtain ⟨hof, -⟩ := @destroyIn_handsOn w root h.solid path hpath hne (h.not_alone hlt) true .root
  obtain ⟨last, ⟨m, hm⟩, hlast⟩ := hcloses
  constructor
  · have hclose : closeBottomright w (m + 1) n (m + 1) root = .ok (.ok last) :=
      hm (m + 1) (Nat.le_add_right m 1)
    rw [closeBottomright_succ hlt hpath hne] at hclose
    obtain ⟨r, hr, -⟩ := bind_eq_ok.mp hclose
    exact hof ⟨m + 1, r, hr⟩
  · intro root' hround
    obtain ⟨k, hk⟩ := hround.destroyed hpath hne
    refine ⟨last, ⟨max m k + 1, fun fuel hfuel => ?_⟩, hlast⟩
    obtain ⟨fuel, rfl⟩ := Nat.exists_eq_add_one_of_ne_zero (show fuel ≠ 0 by omega)
    obtain ⟨out, hr⟩ := hk (fuel + 1) (by omega)
    have hclose : closeBottomright w (fuel + 1) n (fuel + 1) root = .ok (.ok last) :=
      hm (fuel + 1) (by omega)
    rw [closeBottomright_succ hlt hpath hne, hr] at hclose
    exact closeBottomright_rounds hclose

end

/-! ### Sizes that fit -/

section

end

def twoColumns : LayoutCell :=
  .node .leftright ⟨81, 24, 0, 0⟩ [.windowpane false none ⟨40, 24, 0, 0⟩,
    .windowpane false none ⟨40, 24, 41, 0⟩]

theorem twoColumns_read :
    layoutConstruct conversions 4 "81x24,0,0\x7b40x24,0,0,40x24,41,0\x7d".toList =
      .ok (some (twoColumns, [])) := by
  have hfirst : layoutConstruct conversions 2 "40x24,0,0,40x24,41,0\x7d".toList =
      .ok (some (.windowpane false none ⟨40, 24, 0, 0⟩, ",40x24,41,0\x7d".toList)) := rfl
  have hlast : layoutConstruct conversions 1 "40x24,41,0\x7d".toList =
      .ok (some (.windowpane false none ⟨40, 24, 41, 0⟩, "\x7d".toList)) := rfl
  have hcells := constructCells_next hfirst rfl (constructCells_only hlast rfl)
  exact layoutConstruct_cells rfl rfl rfl rfl rfl hcells rfl

end Ztmux.Layout
