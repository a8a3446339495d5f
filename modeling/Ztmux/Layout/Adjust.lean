import Ztmux.Layout.Resize
import Ztmux.Library.RoundRobin

/-!
What `layoutResizeAdjust` computes.

`adjustBy` says it without fuel: the change is a number of units to add or to take,
and the loop over the children is a dealing out of units by turns. It has no
result exactly where the loop of the source does not end.
-/

namespace Ztmux.Layout

open LayoutCell RoundRobin

/-- The change that adds `k` units or takes them. -/
def signed (grow : Bool) (k : Nat) : Int := if grow then k else -k

@[simp] theorem signed_true (k : Nat) : signed true k = k := rfl

@[simp] theorem signed_false (k : Nat) : signed false k = -k := rfl

/-- Whether a child gets a unit of the change when its turn comes. -/
def takes (w : WindowOptions) (grow : Bool) (type : LayoutType) (p : Edge × LayoutCell) : Bool :=
  inFlow p.2 && (grow || decide (0 < available w type p))

mutual

/-- Adjust a cell by one unit. Along its own direction a node hands the unit to the
first child that takes it. -/
def adjustUnit (w : WindowOptions) (grow : Bool) (type : LayoutType) :
    Edge → LayoutCell → Option LayoutCell
  | _, .windowpane floating wp g =>
      some (.windowpane floating wp (g.addSize type (signed grow 1)))
  | e, .node t g cells =>
      if t ≠ type then
        (unitAll w grow type (e.children t cells) cells).map
          (.node t (g.addSize type (signed grow 1)))
      else if !anyInFlow cells then some (.node t (g.addSize type (signed grow 1)) cells)
      else
        (unitFirst w grow type (e.children t cells) cells).map
          (.node t (g.addSize type (signed grow 1)))

def unitAll (w : WindowOptions) (grow : Bool) (type : LayoutType) :
    List Edge → List LayoutCell → Option (List LayoutCell)
  | e :: es, c :: cs => do
      let c ← if inFlow c then adjustUnit w grow type e c else some c
      let cs ← unitAll w grow type es cs
      some (c :: cs)
  | _, _ => some []

def unitFirst (w : WindowOptions) (grow : Bool) (type : LayoutType) :
    List Edge → List LayoutCell → Option (List LayoutCell)
  | e :: es, c :: cs =>
      if takes w grow type (e, c) then (adjustUnit w grow type e c).map (· :: cs)
      else (unitFirst w grow type es cs).map (c :: ·)
  | _, _ => none

end

/-- What a child answers when it is handed a unit. -/
def reply (w : WindowOptions) (grow : Bool) (type : LayoutType) (p : Edge × LayoutCell) :
    Reply (Edge × LayoutCell) :=
  if takes w grow type p then
    match adjustUnit w grow type p.1 p.2 with
    | some c => .took (p.1, c)
    | none => .stuck
  else .pass

mutual

/-- Adjust a cell by `k` units. -/
def adjustBy (w : WindowOptions) (grow : Bool) (type : LayoutType) (k : Nat) :
    Edge → LayoutCell → Option LayoutCell
  | _, .windowpane floating wp g =>
      some (.windowpane floating wp (g.addSize type (signed grow k)))
  | e, .node t g cells =>
      if t ≠ type then
        (byAll w grow type k (e.children t cells) cells).map
          (.node t (g.addSize type (signed grow k)))
      else if !anyInFlow cells then some (.node t (g.addSize type (signed grow k)) cells)
      else
        (deal (reply w grow type) (withEdges e t cells) k).map fun ps =>
          .node t (g.addSize type (signed grow k)) (ps.map Prod.snd)

def byAll (w : WindowOptions) (grow : Bool) (type : LayoutType) (k : Nat) :
    List Edge → List LayoutCell → Option (List LayoutCell)
  | e :: es, c :: cs => do
      let c ← if inFlow c then adjustBy w grow type k e c else some c
      let cs ← byAll w grow type k es cs
      some (c :: cs)
  | _, _ => some []

end

variable {w : WindowOptions} {grow : Bool} {type : LayoutType}

/-! ### One unit is a change by one -/

theorem reply_pass {p : Edge × LayoutCell} (h : takes w grow type p = false) :
    reply w grow type p = .pass := by
  simp [reply, h]

theorem reply_took {p : Edge × LayoutCell} {c : LayoutCell} (h : takes w grow type p)
    (hu : adjustUnit w grow type p.1 p.2 = some c) : reply w grow type p = .took (p.1, c) := by
  simp [reply, h, hu]

theorem reply_stuck {p : Edge × LayoutCell} (h : takes w grow type p)
    (hu : adjustUnit w grow type p.1 p.2 = none) : reply w grow type p = .stuck := by
  simp [reply, h, hu]

/-- To deal out one unit is to hand it to the first child that takes it. -/
theorem unitFirst_eq_deal {es : List Edge} {cs : List LayoutCell}
    (hlen : es.length = cs.length) :
    unitFirst w grow type es cs =
      (deal (reply w grow type) (es.zip cs) 1).map (List.map Prod.snd) := by
  suffices H : unitFirst w grow type es cs =
      ((sweep (reply w grow type) (es.zip cs) 1).bind fun r =>
        rounds (reply w grow type) 0 r.1 r.2).map (List.map Prod.snd) from H
  induction es generalizing cs with
  | nil => cases cs <;> rfl
  | cons e es ih =>
      cases cs with
      | nil => rfl
      | cons c cs =>
          have hlen' : es.length = cs.length := by simpa using hlen
          rw [unitFirst, List.zip_cons_cons]
          cases ht : takes w grow type (e, c) with
          | false =>
              rw [sweep_pass (reply_pass ht), ih hlen']
              cases hs : sweep (reply w grow type) (es.zip cs) 1 with
              | none => rfl
              | some r =>
                  obtain ⟨ps, j⟩ := r
                  cases j <;> rfl
          | true =>
              cases hu : adjustUnit w grow type e c with
              | none => rw [sweep_cons_stuck (reply_stuck ht hu)]; rfl
              | some c' =>
                  rw [sweep_took (reply_took ht hu), sweep_zero]
                  simp [List.map_snd_zip (Nat.le_of_eq hlen'.symm)]

theorem adjustUnit_eq (e : Edge) (c : LayoutCell) :
    adjustUnit w grow type e c = adjustBy w grow type 1 e c := by
  induction c generalizing e with
  | windowpane floating wp g => rfl
  | node t g cells ih =>
      have hall : ∀ es, unitAll w grow type es cells = byAll w grow type 1 es cells := by
        induction cells with
        | nil => intro es; cases es <;> rfl
        | cons c cs ihcs =>
            intro es
            cases es with
            | nil => rfl
            | cons e es =>
                rw [unitAll, byAll, ih c List.mem_cons_self,
                  ihcs fun x hx => ih x (List.mem_cons_of_mem _ hx)]
      rw [adjustUnit, adjustBy, hall, unitFirst_eq_deal (by simp)]
      simp only [Option.map_map]
      rfl

/-! ### The cases of a change -/

/-- What `k` units do to a child of a node that runs across. -/
def Across (w : WindowOptions) (grow : Bool) (type : LayoutType) (k : Nat)
    (p : Edge × LayoutCell) (c' : LayoutCell) : Prop :=
  if inFlow p.2 then adjustBy w grow type k p.1 p.2 = some c' else c' = p.2

theorem byAll_eq_some {k : Nat} {es : List Edge} {cs cs' : List LayoutCell}
    (hlen : es.length = cs.length) :
    byAll w grow type k es cs = some cs' ↔
      List.Forall₂ (Across w grow type k) (es.zip cs) cs' := by
  induction es generalizing cs cs' with
  | nil =>
      obtain rfl : cs = [] := by simpa using hlen.symm
      simp [byAll, eq_comm]
  | cons e es ih =>
      cases cs with
      | nil => cases hlen
      | cons c cs =>
          have hlen' : es.length = cs.length := by simpa using hlen
          rw [byAll, List.zip_cons_cons, List.forall₂_cons_left_iff]
          by_cases hf : inFlow c
          · simp only [hf, if_true, Option.bind_eq_bind, Option.bind_eq_some_iff,
              Option.some.injEq, ih hlen', Across]
            constructor
            · rintro ⟨c', hc, cs', hcs, rfl⟩
              exact ⟨c', cs', hc, hcs, rfl⟩
            · rintro ⟨c', cs', hc, hcs, rfl⟩
              exact ⟨c', hc, cs', hcs, rfl⟩
          · simp only [hf, Bool.false_eq_true, if_false, Option.bind_eq_bind, Option.bind_some,
              Option.bind_eq_some_iff, Option.some.injEq, ih hlen', Across]
            constructor
            · rintro ⟨cs', hcs, rfl⟩
              exact ⟨c, cs', rfl, hcs, rfl⟩
            · rintro ⟨c', cs', rfl, hcs, rfl⟩
              exact ⟨cs', hcs, rfl⟩

theorem adjustBy_across {k : Nat} {e : Edge} {t : LayoutType} {g : Geometry}
    {cells : List LayoutCell} {c' : LayoutCell} (ht : t ≠ type) :
    adjustBy w grow type k e (.node t g cells) = some c' ↔
      ∃ cells', List.Forall₂ (Across w grow type k) (withEdges e t cells) cells' ∧
        c' = .node t (g.addSize type (signed grow k)) cells' := by
  rw [adjustBy, if_pos ht, Option.map_eq_some_iff]
  simp only [byAll_eq_some (length_children e t cells), withEdges, eq_comm]

theorem adjustBy_along {k : Nat} {e : Edge} {g : Geometry} {cells : List LayoutCell}
    {c' : LayoutCell} (hf : cells.any inFlow) :
    adjustBy w grow type k e (.node type g cells) = some c' ↔
      ∃ ps, deal (reply w grow type) (withEdges e type cells) k = some ps ∧
        c' = .node type (g.addSize type (signed grow k)) (ps.map Prod.snd) := by
  rw [adjustBy, if_neg (by simp), anyInFlow_eq_any, hf, if_neg (by simp),
    Option.map_eq_some_iff]
  simp only [eq_comm]

/-- A child that hands over a unit is changed by one unit. -/
theorem reply_eq_took {p q : Edge × LayoutCell} :
    reply w grow type p = .took q ↔
      takes w grow type p ∧ adjustBy w grow type 1 p.1 p.2 = some q.2 ∧ q.1 = p.1 := by
  cases ht : takes w grow type p with
  | false => simp [reply_pass ht]
  | true =>
      cases hu : adjustUnit w grow type p.1 p.2 with
      | none => simp [reply_stuck ht hu, ← adjustUnit_eq, hu]
      | some c =>
          simp only [reply_took ht hu, ← adjustUnit_eq, hu, Reply.took.injEq, Prod.ext_iff,
            Option.some.injEq, true_and, eq_comm]
          exact and_comm

/-! ### What a change leaves alone -/

/-- A cell after a change along `type`: floating cells and what holds only them are as
before, and in the rest only the sizes along `type` may differ. -/
inductive Resized (type : LayoutType) : LayoutCell → LayoutCell → Prop
  | outside {c : LayoutCell} : inFlow c = false → Resized type c c
  | windowpane (wp : Option Nat) (g : Geometry) (change : Int) :
      Resized type (.windowpane false wp g) (.windowpane false wp (g.addSize type change))
  | node (t : LayoutType) (g : Geometry) (change : Int) {cells cells' : List LayoutCell} :
      cells.any inFlow → List.Forall₂ (Resized type) cells cells' →
        Resized type (.node t g cells) (.node t (g.addSize type change) cells')

/-- Induction over a change: the children of a node are changed in their places. -/
theorem Resized.induct {P : LayoutCell → LayoutCell → Prop} (outside : ∀ c, P c c)
    (windowpane : ∀ wp g change,
      P (.windowpane false wp g) (.windowpane false wp (g.addSize type change)))
    (node : ∀ t g change cells cells', cells.any inFlow →
      List.Forall₂ (fun c c' => Resized type c c' ∧ P c c') cells cells' →
        P (.node t g cells) (.node t (g.addSize type change) cells'))
    {c c' : LayoutCell} (h : Resized type c c') : P c c' := by
  induction c generalizing c' with
  | windowpane floating wp g =>
      cases h with
      | outside => exact outside _
      | windowpane _ _ change => exact windowpane wp g change
  | node t g cells ih =>
      cases h with
      | outside => exact outside _
      | node _ _ change hany hcells =>
          exact node t g change cells _ hany
            (Lists.forall₂_imp_mem hcells fun c hc c' hcc => ⟨hcc, ih c hc hcc⟩)

theorem Resized.refl (c : LayoutCell) : Resized type c c := by
  induction c with
  | windowpane floating wp g =>
      cases floating with
      | true => exact .outside (by simp)
      | false => simpa using @Resized.windowpane type wp g 0
  | node t g cells ih =>
      by_cases hf : cells.any Layout.inFlow
      · simpa using @Resized.node type t g 0 _ _ hf (List.forall₂_same.mpr ih)
      · exact .outside (by simpa using hf)

theorem Resized.eq_of_not_inFlow {c c' : LayoutCell} (h : Resized type c c')
    (hf : Layout.inFlow c = false) : c' = c := by
  cases h with
  | outside => rfl
  | windowpane => simp at hf
  | node _ _ _ hany => rw [inFlow_node, hany] at hf; cases hf

theorem Resized.cells {t t' : LayoutType} {g g' : Geometry} {cells cells' : List LayoutCell}
    (h : Resized type (.node t g cells) (.node t' g' cells')) :
    List.Forall₂ (Resized type) cells cells' := by
  cases h with
  | outside => exact List.forall₂_same.mpr fun c _ => .refl c
  | node _ _ _ _ hcells => exact hcells

theorem Resized.inFlow {c c' : LayoutCell} (h : Resized type c c') :
    Layout.inFlow c' = Layout.inFlow c := by
  refine h.induct (P := fun c c' => Layout.inFlow c' = Layout.inFlow c) (fun _ => rfl)
    (fun _ _ _ => by simp) fun t g change cells cells' _ hcells => ?_
  have hmap := Lists.map_eq_of_forall₂ hcells fun _ _ _ hcc => hcc.2
  rw [inFlow_node, inFlow_node, Lists.any_eq_any_map, hmap, ← Lists.any_eq_any_map]

theorem Resized.trans {c c' c'' : LayoutCell} (h : Resized type c c')
    (h' : Resized type c' c'') : Resized type c c'' := by
  induction c generalizing c' c'' with
  | windowpane floating wp g =>
      cases h with
      | outside => exact h'
      | windowpane _ _ change =>
          cases h' with
          | outside hf => simp at hf
          | windowpane _ _ change' =>
              rw [Geometry.addSize_addSize]
              exact .windowpane wp g _
  | node t g cells ih =>
      cases h with
      | outside => exact h'
      | node _ _ change hany hcells =>
          cases h' with
          | outside hf => exact .node t g change hany hcells
          | node _ _ change' _ hcells' =>
              rw [Geometry.addSize_addSize]
              exact .node t g _ hany (Lists.forall₂_comp hcells hcells'
                fun c hc _ _ h h' => ih c hc h h')

theorem children_eq {e : Edge} {t : LayoutType} {cells cells' : List LayoutCell}
    (h : List.Forall₂ (Resized type) cells cells') : e.children t cells' = e.children t cells := by
  have hmap := Lists.map_eq_of_forall₂ (g := inFlow) h fun c _ c' h => h.inFlow
  have hfirst : layoutCellIsFirstTiled cells' = layoutCellIsFirstTiled cells := by
    funext i
    rw [layoutCellIsFirstTiled, layoutCellIsFirstTiled, Lists.findIdx?_eq_findIdx?_map, hmap,
      ← Lists.findIdx?_eq_findIdx?_map]
  have hlen := h.length_eq
  have hchild : e.child t cells' = e.child t cells := by
    funext i
    simp only [Edge.child, hfirst, hlen]
  rw [Edge.children, Edge.children, hchild, hlen]

/-- The children of a node that are dealt to keep their edges as well. -/
theorem withEdges_map_snd {e : Edge} {t : LayoutType} {cells : List LayoutCell}
    {ps : List (Edge × LayoutCell)}
    (h : List.Forall₂ (fun p q => q.1 = p.1 ∧ Resized type p.2 q.2) (withEdges e t cells) ps) :
    withEdges e t (ps.map Prod.snd) = ps := by
  have hcells : List.Forall₂ (Resized type) cells (ps.map Prod.snd) := by
    rw [← map_snd_withEdges e t cells, List.forall₂_map_left_iff, List.forall₂_map_right_iff]
    exact h.imp fun _ _ hpq => hpq.2
  have hfst : ps.map Prod.fst = e.children t cells := by
    rw [Lists.map_eq_of_forall₂ (g := Prod.fst) h fun p _ q hpq => hpq.1, withEdges,
      List.map_fst_zip (by simp)]
  rw [withEdges, children_eq hcells, ← hfst]
  exact (List.zip_of_prod rfl rfl).symm

/-! ### Induction over a change -/

mutual

def height : LayoutCell → Nat
  | .windowpane _ _ _ => 1
  | .node _ _ cells => heightAll cells + 1

def heightAll : List LayoutCell → Nat
  | [] => 0
  | c :: cs => max (height c) (heightAll cs)

end

theorem heightAll_eq_foldr (cells : List LayoutCell) :
    heightAll cells = (cells.map height).foldr max 0 := by
  induction cells with
  | nil => rfl
  | cons c cs ih => rw [heightAll, ih, List.map_cons, List.foldr_cons]

theorem height_le_heightAll {c : LayoutCell} {cells : List LayoutCell} (h : c ∈ cells) :
    height c ≤ heightAll cells := by
  induction cells with
  | nil => cases h
  | cons x xs ih =>
      rw [heightAll]
      rcases List.mem_cons.mp h with rfl | h
      · exact le_max_left _ _
      · exact (ih h).trans (le_max_right _ _)

theorem Resized.height {c c' : LayoutCell} (h : Resized type c c') :
    Layout.height c' = Layout.height c := by
  refine h.induct (P := fun c c' => Layout.height c' = Layout.height c) (fun _ => rfl)
    (fun _ _ _ => rfl) fun t g change cells cells' _ hcells => ?_
  have hmap := Lists.map_eq_of_forall₂ hcells fun _ _ _ hcc => hcc.2
  rw [Layout.height, Layout.height, heightAll_eq_foldr, hmap, ← heightAll_eq_foldr]

/-- A change leaves alone what is not in the tiled flow. The children that units are
dealt to change while it happens, so the induction is on the height. -/
theorem adjustBy_resized {k : Nat} {e : Edge} {c c' : LayoutCell} (hf : inFlow c)
    (h : adjustBy w grow type k e c = some c') : Resized type c c' := by
  induction hn : height c using Nat.strong_induction_on generalizing e k c c' with
  | _ n ih =>
      subst hn
      cases c with
      | windowpane floating wp g =>
          simp only [inFlow_windowpane, Bool.not_eq_true'] at hf
          subst hf
          rw [adjustBy, Option.some.injEq] at h
          exact h ▸ .windowpane wp g _
      | node t g cells =>
          have hlt : ∀ p ∈ withEdges e t cells, height p.2 < height (.node t g cells) :=
            fun p hp => by
              have := height_le_heightAll (mem_of_mem_withEdges hp)
              rw [height]
              omega
          by_cases ht : t = type
          · subst ht
            rw [inFlow_node] at hf
            obtain ⟨ps, hps, rfl⟩ := (adjustBy_along hf).mp h
            refine .node t g _ hf ?_
            rw [← map_snd_withEdges e t cells, List.forall₂_map_left_iff,
              List.forall₂_map_right_iff]
            refine (deal_forall₂ (fun p => height p.2 < height (.node t g cells))
              (fun p q => Resized t p.2 q.2) (fun p => .refl p.2)
              (fun _ _ _ => Resized.trans) (fun p q hp hq => ?_) hlt hps).1
            obtain ⟨htakes, hq, -⟩ := reply_eq_took.mp hq
            have hpf : inFlow p.2 := (Bool.and_eq_true_iff.mp htakes).1
            have hpq := ih _ hp hpf hq rfl
            exact ⟨by rwa [hpq.height], hpq⟩
          · obtain ⟨cells', hcells, rfl⟩ := (adjustBy_across ht).mp h
            refine .node t g _ (by rwa [inFlow_node] at hf) ?_
            rw [← map_snd_withEdges e t cells, List.forall₂_map_left_iff]
            refine Lists.forall₂_imp_mem hcells fun p hp c' hc => ?_
            rw [Across] at hc
            split at hc
            · exact ih _ (hlt p hp) ‹_› hc rfl
            · rw [hc]
              exact .refl p.2

/-- Induction over a change of a cell in the tiled flow. Along its own direction a
node deals out units, one change of a child after another: what is shown of the children
in between may use any `M` that holds of them all. -/
theorem adjustBy_induct {P : Nat → Edge → LayoutCell → LayoutCell → Prop}
    (windowpane : ∀ k e wp g, P k e (.windowpane false wp g)
      (.windowpane false wp (g.addSize type (signed grow k))))
    (across : ∀ k e t g cells cells', t ≠ type → cells.any inFlow →
      List.Forall₂ (fun p c' => Across w grow type k p c' ∧ (inFlow p.2 → P k p.1 p.2 c'))
        (withEdges e t cells) cells' →
      P k e (.node t g cells) (.node t (g.addSize type (signed grow k)) cells'))
    (along : ∀ k e g cells ps (M : Edge × LayoutCell → Prop),
      cells.any inFlow → (∀ p ∈ withEdges e type cells, M p) →
      (∀ p q, M p → reply w grow type p = .took q →
        M q ∧ takes w grow type p ∧ Resized type p.2 q.2 ∧ P 1 p.1 p.2 q.2) →
      deal (reply w grow type) (withEdges e type cells) k = some ps →
      P k e (.node type g cells)
        (.node type (g.addSize type (signed grow k)) (ps.map Prod.snd)))
    {k : Nat} {e : Edge} {c c' : LayoutCell} (hf : inFlow c)
    (h : adjustBy w grow type k e c = some c') : P k e c c' := by
  induction hn : height c using Nat.strong_induction_on generalizing e k c c' with
  | _ n ih =>
      subst hn
      cases c with
      | windowpane floating wp g =>
          simp only [inFlow_windowpane, Bool.not_eq_true'] at hf
          subst hf
          rw [adjustBy, Option.some.injEq] at h
          exact h ▸ windowpane k e wp g
      | node t g cells =>
          have hlt : ∀ p ∈ withEdges e t cells, height p.2 < height (.node t g cells) :=
            fun p hp => by
              have := height_le_heightAll (mem_of_mem_withEdges hp)
              rw [height]
              omega
          by_cases ht : t = type
          · subst ht
            rw [inFlow_node] at hf
            obtain ⟨ps, hps, rfl⟩ := (adjustBy_along hf).mp h
            refine along k e g cells ps (fun p => height p.2 < height (.node t g cells)) hf hlt
              (fun p q hp hq => ?_) hps
            obtain ⟨htakes, hq, -⟩ := reply_eq_took.mp hq
            have hpf : inFlow p.2 := (Bool.and_eq_true_iff.mp htakes).1
            have hpq := adjustBy_resized hpf hq
            exact ⟨by rwa [hpq.height], htakes, hpq, ih _ hp hpf hq rfl⟩
          · obtain ⟨cells', hcells, rfl⟩ := (adjustBy_across ht).mp h
            refine across k e t g cells cells' ht (by rwa [inFlow_node] at hf) ?_
            refine Lists.forall₂_imp_mem hcells fun p hp c' hc => ⟨hc, fun hpf => ?_⟩
            rw [Across, if_pos hpf] at hc
            exact ih _ (hlt p hp) hpf hc rfl

/-! ### Adding always has a result -/

theorem byAll_isSome_iff {k : Nat} {es : List Edge} {cs : List LayoutCell} :
    (byAll w grow type k es cs).isSome ↔
      ∀ p ∈ es.zip cs, inFlow p.2 → (adjustBy w grow type k p.1 p.2).isSome := by
  induction es generalizing cs with
  | nil => cases cs <;> simp [byAll]
  | cons e es ih =>
      cases cs with
      | nil => simp [byAll]
      | cons c cs =>
          rw [List.zip_cons_cons, List.forall_mem_cons, byAll, ← ih]
          cases hf : inFlow c with
          | false => cases byAll w grow type k es cs <;> simp
          | true =>
              cases adjustBy w grow type k e c <;> cases byAll w grow type k es cs <;> simp

theorem adjustUnit_grow_isSome (e : Edge) (c : LayoutCell) :
    (adjustUnit w true type e c).isSome := by
  induction c generalizing e with
  | windowpane floating wp g => rfl
  | node t g cells ih =>
      rw [adjustUnit]
      split
      · have hall : ∀ es, (unitAll w true type es cells).isSome := by
          clear g
          induction cells with
          | nil => intro es; cases es <;> rfl
          | cons c cs ihcs =>
              intro es
              cases es with
              | nil => rfl
              | cons e es =>
                  obtain ⟨c', hc⟩ := Option.isSome_iff_exists.mp (ih c List.mem_cons_self e)
                  obtain ⟨cs', hcs⟩ := Option.isSome_iff_exists.mp
                    (ihcs (fun x hx => ih x (List.mem_cons_of_mem _ hx)) es)
                  rw [unitAll, hc, hcs]
                  split <;> rfl
        rw [Option.isSome_map]
        exact hall _
      · split
        · rfl
        · rename_i hflow
          have hany : cells.any inFlow := by
            rw [← anyInFlow_eq_any]
            simpa using hflow
          have hfirst : ∀ es, es.length = cells.length → cells.any inFlow →
              (unitFirst w true type es cells).isSome := by
            clear g hflow hany
            induction cells with
            | nil => simp
            | cons c cs ihcs =>
                intro es hlen hany
                cases es with
                | nil => cases hlen
                | cons e es =>
                    rw [unitFirst]
                    split
                    · rw [Option.isSome_map]
                      exact ih c List.mem_cons_self e
                    · rename_i htakes
                      rw [Option.isSome_map]
                      refine ihcs (fun x hx => ih x (List.mem_cons_of_mem _ hx)) es
                        (by simpa using hlen) ?_
                      simpa [takes, show inFlow c = false by simpa [takes] using htakes] using hany
          rw [Option.isSome_map]
          exact hfirst _ (length_children e t cells) hany

theorem adjustBy_grow_isSome {k : Nat} (e : Edge) (c : LayoutCell) :
    (adjustBy w true type k e c).isSome := by
  induction c generalizing e with
  | windowpane floating wp g => rfl
  | node t g cells ih =>
      rw [adjustBy]
      split
      · rw [Option.isSome_map, byAll_isSome_iff]
        exact fun p hp _ => ih p.2 (mem_of_mem_withEdges hp) p.1
      · split
        · rfl
        · rename_i hflow
          have hreply : ∀ p : Edge × LayoutCell, inFlow p.2 →
              ∃ q, reply w true type p = .took q := fun p hp => by
            obtain ⟨c, hc⟩ := Option.isSome_iff_exists.mp
              (@adjustUnit_grow_isSome w type p.1 p.2)
            exact ⟨(p.1, c), reply_took (by simp [takes, hp]) hc⟩
          rw [Option.isSome_map]
          refine deal_isSome_of_ready (fun _ => True) (fun p => inFlow p.2)
            (fun p _ hp => ?_) hreply (fun p q hpq => ?_) (fun _ _ => trivial) ?_
          · cases hu : adjustUnit w true type p.1 p.2 with
            | none =>
                have := @adjustUnit_grow_isSome w type p.1 p.2
                rw [hu] at this
                cases this
            | some c =>
                cases ht : takes w true type p with
                | false => rw [reply_pass ht] at hp; cases hp
                | true => rw [reply_took ht hu] at hp; cases hp
          · obtain ⟨-, hq, -⟩ := reply_eq_took.mp hpq
            exact ⟨fun _ => trivial, fun hp => by rwa [(adjustBy_resized hp hq).inFlow]⟩
          · have hany : cells.any inFlow := by
              rw [← anyInFlow_eq_any]
              simpa using hflow
            obtain ⟨c, hc, hcf⟩ := List.any_eq_true.mp hany
            obtain ⟨p, hp, rfl⟩ := exists_mem_withEdges (e := e) (t := t) hc
            exact ⟨p, hp, hcf⟩

/-! ### The source computes it -/

theorem signed_eq_zero {k : Nat} : signed grow k = 0 ↔ k = 0 := by
  cases grow <;> simp

theorem adjustPass_cons (adjust : Edge → LayoutCell → Int → Exec LayoutCell) (p : Edge × LayoutCell)
    (cells : List (Edge × LayoutCell)) (k : Nat) :
    adjustPass w type adjust (p :: cells) (signed grow (k + 1)) =
      (if takes w grow type p then do
        let c ← adjust p.1 p.2 (signed grow 1)
        let r ← adjustPass w type adjust cells (signed grow k)
        pure ((p.1, c) :: r.1, r.2)
      else do
        let r ← adjustPass w type adjust cells (signed grow (k + 1))
        pure (p :: r.1, r.2)) := by
  obtain ⟨e, c⟩ := p
  have hne : signed grow (k + 1) ≠ 0 := by simp [signed_eq_zero]
  rw [adjustPass, if_neg hne]
  cases hf : inFlow c with
  | false => simp [takes, hf]
  | true =>
      cases grow with
      | true =>
          have hpos : (0 : Int) < k + 1 := by omega
          simp [takes, hf, hpos]
      | false =>
          have hneg : ¬(k : Int) < -1 := by omega
          have hstep : (-1 : Int) + -k + 1 = -k := by omega
          by_cases hc : 0 < layoutResizeCheck w e c type
          · simp [takes, hf, hneg, available, hc, hstep]
          · simp [takes, hf, hneg, available, hc]

theorem adjustPass_eq {adjust : Edge → LayoutCell → Int → Exec LayoutCell}
    {cells : List (Edge × LayoutCell)}
    (hadj : ∀ p ∈ cells, inFlow p.2 →
      adjust p.1 p.2 (signed grow 1) = ofOption (adjustBy w grow type 1 p.1 p.2)) (k : Nat) :
    adjustPass w type adjust cells (signed grow k) =
      ofOption ((sweep (reply w grow type) cells k).map fun r => (r.1, signed grow r.2)) := by
  induction cells generalizing k with
  | nil => simp [adjustPass, sweep, ofOption, pure, Except.pure]
  | cons p cells ih =>
      have ih' := ih fun q hq => hadj q (List.mem_cons_of_mem _ hq)
      cases k with
      | zero => simp [adjustPass, signed_eq_zero.mpr, ofOption, pure, Except.pure]
      | succ k =>
          rw [adjustPass_cons]
          cases ht : takes w grow type p with
          | false =>
              rw [sweep_pass (reply_pass ht), if_neg (by simp), ih']
              cases sweep (reply w grow type) cells (k + 1) <;> rfl
          | true =>
              rw [if_pos rfl, hadj p List.mem_cons_self (Bool.and_eq_true_iff.mp ht).1,
                ← adjustUnit_eq, ih']
              cases hu : adjustUnit w grow type p.1 p.2 with
              | none => rw [sweep_cons_stuck (reply_stuck ht hu)]; rfl
              | some c =>
                  rw [sweep_took (reply_took ht hu)]
                  cases sweep (reply w grow type) cells k <;> rfl

theorem adjustLoop_eq {adjust : Edge → LayoutCell → Int → Exec LayoutCell} {n : Nat}
    (hadj : ∀ e c, height c < n → inFlow c →
      adjust e c (signed grow 1) = ofOption (adjustBy w grow type 1 e c))
    (fuel : Nat) {cells : List (Edge × LayoutCell)} (hcells : ∀ p ∈ cells, height p.2 < n)
    (k : Nat) :
    adjustLoop w type adjust fuel cells (signed grow k) =
      ofOption (rounds (reply w grow type) fuel cells k) := by
  induction fuel generalizing cells k with
  | zero => cases k <;> simp [adjustLoop, signed_eq_zero, rounds, ofOption] <;> rfl
  | succ fuel ih =>
      cases k with
      | zero => simp [adjustLoop, signed_eq_zero.mpr, ofOption, pure, Except.pure]
      | succ k =>
          rw [adjustLoop, if_neg (by simp [signed_eq_zero]), rounds,
            adjustPass_eq fun p hp => hadj p.1 p.2 (hcells p hp)]
          cases hs : sweep (reply w grow type) cells (k + 1) with
          | none => rfl
          | some r =>
              refine ih (sweep_induct (J := fun ps _ => ∀ p ∈ ps, height p.2 < n) ?_ hcells hs) r.2
              intro xs p q ys _ hq hps x hx
              obtain ⟨htakes, hq, -⟩ := reply_eq_took.mp hq
              have hpq := adjustBy_resized (Bool.and_eq_true_iff.mp htakes).1 hq
              rcases List.mem_append.mp hx with hx | hx
              · exact hps x (by simp [hx])
              · rcases List.mem_cons.mp hx with rfl | hx
                · rw [hpq.height]
                  exact hps p (by simp)
                · exact hps x (by simp [hx])

theorem adjustAcross_eq {adjust : Edge → LayoutCell → Int → Exec LayoutCell} {k : Nat}
    {es : List Edge} {cs : List LayoutCell}
    (hadj : ∀ e, ∀ c ∈ cs, inFlow c →
      adjust e c (signed grow k) = ofOption (adjustBy w grow type k e c)) :
    adjustAcross adjust (signed grow k) (es.zip cs) = ofOption (byAll w grow type k es cs) := by
  induction es generalizing cs with
  | nil => cases cs <;> rfl
  | cons e es ih =>
      cases cs with
      | nil => rfl
      | cons c cs =>
          rw [List.zip_cons_cons, adjustAcross, byAll,
            ih fun e c hc => hadj e c (List.mem_cons_of_mem _ hc)]
          cases hf : inFlow c with
          | false => cases byAll w grow type k es cs <;> rfl
          | true =>
              rw [if_pos rfl, if_pos rfl, hadj e c List.mem_cons_self hf]
              cases adjustBy w grow type k e c with
              | none => rfl
              | some c' => cases byAll w grow type k es cs <;> rfl

/-- With fuel for the height of the cell and for every unit, `layoutResizeAdjust`
does what `adjustBy` says, and fails to return when there is no result. -/
theorem layoutResizeAdjust_eq {fuel k : Nat} {c : LayoutCell} (h : height c + k ≤ fuel)
    (e : Edge) :
    layoutResizeAdjust w type fuel e c (signed grow k) = ofOption (adjustBy w grow type k e c) := by
  induction fuel generalizing k c e with
  | zero => cases c <;> simp [height] at h
  | succ fuel ih =>
      cases c with
      | windowpane floating wp g => rfl
      | node t g cells =>
          have hlt : ∀ c ∈ cells, height c + k ≤ fuel := fun c hc => by
            have := height_le_heightAll hc
            rw [height] at h
            omega
          rw [layoutResizeAdjust, adjustBy, layoutCellHasTiledChild]
          split
          · rw [withEdges, adjustAcross_eq fun e c hc _ => ih (hlt c hc) e]
            cases byAll w grow type k (e.children t cells) cells <;> rfl
          · split
            · rfl
            · cases k with
              | zero =>
                  have hloop : ∀ (adjust : Edge → LayoutCell → Int → Exec LayoutCell) cells,
                      adjustLoop w type adjust fuel cells 0 = .ok cells := by
                    intro adjust cells
                    cases fuel <;> simp [adjustLoop, pure, Except.pure]
                  rw [signed_eq_zero.mpr rfl, hloop, deal_zero]
                  rfl
              | succ k =>
                  have hcells : ∀ p ∈ withEdges e t cells, height p.2 < fuel := fun p hp => by
                    have := hlt p.2 (mem_of_mem_withEdges hp)
                    omega
                  obtain rfl : t = type := by simpa using ‹¬t ≠ type›
                  rw [adjustLoop_eq (fun e c hc _ => ih hc e) fuel hcells,
                    rounds_eq_deal _ (by rw [height] at h; omega)]
                  cases deal (reply w grow t) (withEdges e t cells) (k + 1) <;> rfl

/-! ### Fuel -/

theorem adjustPass_mono {f f' : Edge → LayoutCell → Int → Exec LayoutCell}
    (hf : ∀ e c change c', f e c change = .ok c' → f' e c change = .ok c')
    {cells : List (Edge × LayoutCell)} {change : Int} {r : List (Edge × LayoutCell) × Int}
    (h : adjustPass w type f cells change = .ok r) : adjustPass w type f' cells change = .ok r := by
  induction cells generalizing change r with
  | nil => exact h
  | cons p cells ih =>
      obtain ⟨e, c⟩ := p
      simp only [adjustPass] at h ⊢
      split_ifs at h ⊢ with h0 hflow hpos hcheck
      · exact h
      · obtain ⟨s, hs, hr⟩ := bind_eq_ok.mp h
        exact bind_eq_ok.mpr ⟨s, ih hs, hr⟩
      · obtain ⟨c', hc, h⟩ := bind_eq_ok.mp h
        obtain ⟨s, hs, hr⟩ := bind_eq_ok.mp h
        exact bind_eq_ok.mpr ⟨c', hf _ _ _ _ hc, bind_eq_ok.mpr ⟨s, ih hs, hr⟩⟩
      · obtain ⟨c', hc, h⟩ := bind_eq_ok.mp h
        obtain ⟨s, hs, hr⟩ := bind_eq_ok.mp h
        exact bind_eq_ok.mpr ⟨c', hf _ _ _ _ hc, bind_eq_ok.mpr ⟨s, ih hs, hr⟩⟩
      · obtain ⟨s, hs, hr⟩ := bind_eq_ok.mp h
        exact bind_eq_ok.mpr ⟨s, ih hs, hr⟩

theorem adjustLoop_mono {f f' : Edge → LayoutCell → Int → Exec LayoutCell}
    (hf : ∀ e c change c', f e c change = .ok c' → f' e c change = .ok c') {m n : Nat}
    (hmn : m ≤ n) {cells ps : List (Edge × LayoutCell)} {change : Int}
    (h : adjustLoop w type f m cells change = .ok ps) :
    adjustLoop w type f' n cells change = .ok ps := by
  induction m generalizing n cells change with
  | zero =>
      rw [adjustLoop] at h
      split at h
      · cases n <;> rwa [adjustLoop, if_pos ‹_›]
      · cases h
  | succ m ih =>
      obtain ⟨n, rfl⟩ : ∃ n', n = n' + 1 := ⟨n - 1, by omega⟩
      rw [adjustLoop] at h ⊢
      split_ifs at h ⊢
      · exact h
      · obtain ⟨s, hs, hr⟩ := bind_eq_ok.mp h
        exact bind_eq_ok.mpr ⟨s, adjustPass_mono hf hs, ih (by omega) hr⟩

theorem adjustAcross_mono {f f' : Edge → LayoutCell → Int → Exec LayoutCell}
    (hf : ∀ e c change c', f e c change = .ok c' → f' e c change = .ok c') {change : Int}
    {cells : List (Edge × LayoutCell)} {cs : List LayoutCell}
    (h : adjustAcross f change cells = .ok cs) : adjustAcross f' change cells = .ok cs := by
  induction cells generalizing cs with
  | nil => exact h
  | cons p cells ih =>
      obtain ⟨e, c⟩ := p
      rw [adjustAcross] at h ⊢
      split_ifs at h ⊢
      · obtain ⟨c', hc, h⟩ := bind_eq_ok.mp h
        obtain ⟨s, hs, hr⟩ := bind_eq_ok.mp h
        exact bind_eq_ok.mpr ⟨c', hf _ _ _ _ hc, bind_eq_ok.mpr ⟨s, ih hs, hr⟩⟩
      · obtain ⟨c', hc, h⟩ := bind_eq_ok.mp h
        obtain ⟨s, hs, hr⟩ := bind_eq_ok.mp h
        exact bind_eq_ok.mpr ⟨c', hc, bind_eq_ok.mpr ⟨s, ih hs, hr⟩⟩

/-- A call that returns needs no more fuel. -/
theorem layoutResizeAdjust_mono {m n : Nat} (hmn : m ≤ n) {e : Edge} {c c' : LayoutCell}
    {change : Int} (h : layoutResizeAdjust w type m e c change = .ok c') :
    layoutResizeAdjust w type n e c change = .ok c' := by
  induction m generalizing n e c c' change with
  | zero => cases h
  | succ m ih =>
      obtain ⟨n, rfl⟩ : ∃ n', n = n' + 1 := ⟨n - 1, by omega⟩
      have hf : ∀ e c change c', layoutResizeAdjust w type m e c change = .ok c' →
          layoutResizeAdjust w type n e c change = .ok c' :=
        fun _ _ _ _ h => ih (by omega) h
      cases c with
      | windowpane floating wp g => exact h
      | node t g cells =>
          rw [layoutResizeAdjust] at h ⊢
          split_ifs at h ⊢
          · obtain ⟨s, hs, hr⟩ := bind_eq_ok.mp h
            exact bind_eq_ok.mpr ⟨s, adjustAcross_mono hf hs, hr⟩
          · exact h
          · obtain ⟨s, hs, hr⟩ := bind_eq_ok.mp h
            exact bind_eq_ok.mpr ⟨s, adjustLoop_mono hf (by omega) hs, hr⟩

/-- The call returns exactly when `adjustBy` has a result, and returns that. -/
theorem layoutResizeAdjust_ok_iff {k : Nat} {e : Edge} {c c' : LayoutCell} :
    (∃ fuel, layoutResizeAdjust w type fuel e c (signed grow k) = .ok c') ↔
      adjustBy w grow type k e c = some c' := by
  constructor
  · rintro ⟨fuel, h⟩
    have henough := layoutResizeAdjust_mono (Nat.le_add_right fuel (height c + k)) h
    rwa [layoutResizeAdjust_eq (Nat.le_add_left _ _), ofOption_eq_ok] at henough
  · intro h
    exact ⟨height c + k, by rw [layoutResizeAdjust_eq le_rfl, h, ofOption]⟩

theorem returns_layoutResizeAdjust {k : Nat} {e : Edge} {c c' : LayoutCell}
    (h : adjustBy w grow type k e c = some c') :
    Returns (fun fuel => layoutResizeAdjust w type fuel e c (signed grow k)) c' :=
  ⟨height c + k, fun _ hfuel => (layoutResizeAdjust_eq hfuel e).trans (by rw [h, ofOption])⟩

end Ztmux.Layout
