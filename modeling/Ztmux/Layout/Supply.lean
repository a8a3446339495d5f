import Ztmux.Layout.Flow

/-!
What a layout can give up.

Taking space from a cell goes wrong where floating cells are counted by
`layoutResizeCheck`: a node may say that it has space when the cells below it that
take part in the flow have none, and the loop that asks it for a unit then never
ends. `supply` says how many units a cell hands over before it passes or is such a
trap, and `canGive` whether a change can be taken as a whole.
-/

namespace Ztmux.Layout

open LayoutCell RoundRobin

/-- What a cell that is asked for one unit at a time hands over. After that it
passes, or never answers. -/
structure Supply where
  units : Nat
  trap : Bool
  deriving DecidableEq, Repr

namespace Supply

/-- One unit more. -/
def succ (s : Supply) : Supply := ⟨s.units + 1, s.trap⟩

/-- Two cells asked in turn: the second only when the first passes. -/
def join (a b : Supply) : Supply := if a.trap then a else ⟨a.units + b.units, b.trap⟩

/-- Two cells asked at once. When one passes so do both. -/
def meet (a : Supply) : Option Supply → Supply
  | none => a
  | some b => if a.units < b.units ∨ (a.units = b.units ∧ a.trap = false) then a else b

@[simp] theorem join_idle (b : Supply) : join ⟨0, false⟩ b = b := by
  simp [join]

@[simp] theorem join_stuck (b : Supply) : join ⟨0, true⟩ b = ⟨0, true⟩ := rfl

theorem join_succ (a b : Supply) : join a.succ b = (join a b).succ := by
  obtain ⟨n, trap⟩ := a
  cases trap <;> simp [join, succ, Nat.add_right_comm]

@[simp] theorem meet_idle (b : Option Supply) : meet ⟨0, false⟩ b = ⟨0, false⟩ := by
  cases b with
  | none => rfl
  | some b => simp [meet, Nat.pos_iff_ne_zero, eq_comm, em']

@[simp] theorem meet_idle_right (a : Supply) : meet a (some ⟨0, false⟩) = ⟨0, false⟩ := by
  obtain ⟨n, trap⟩ := a
  cases n <;> cases trap <;> simp [meet]

theorem meet_stuck_left {b : Option Supply} (h : b ≠ some ⟨0, false⟩) :
    meet ⟨0, true⟩ b = ⟨0, true⟩ := by
  rcases b with _ | ⟨n, trap⟩
  · rfl
  · cases n <;> cases trap <;> simp_all [meet]

theorem meet_stuck_right (a : Supply) : meet a.succ (some ⟨0, true⟩) = ⟨0, true⟩ := by
  simp [meet, succ]

theorem meet_passing (m n : Nat) :
    meet ⟨m, false⟩ (some ⟨n, false⟩) = ⟨min m n, false⟩ := by
  by_cases h : m ≤ n
  · rw [meet, if_pos (by simp; omega), Nat.min_eq_left h]
  · rw [meet, if_neg (by simp; omega), Nat.min_eq_right (by omega)]

theorem meet_succ (a : Supply) (b : Option Supply) :
    meet a.succ (b.map succ) = (meet a b).succ := by
  cases b with
  | none => rfl
  | some b =>
      simp only [Option.map_some, meet, succ, Nat.add_lt_add_iff_right, Nat.add_right_cancel_iff]
      split <;> rfl

end Supply

/-- Outside the flow there is space that is counted and cannot be had. -/
def spare (w : WindowOptions) (type : LayoutType) (ps : List (Edge × LayoutCell)) : Bool :=
  ps.any fun p => !inFlow p.2 && decide (0 < available w type p)

/-- A cell outside the flow has no space and stops the node from giving any. -/
def blocked (w : WindowOptions) (type : LayoutType) (ps : List (Edge × LayoutCell)) : Bool :=
  ps.any fun p => !inFlow p.2 && !decide (0 < available w type p)

mutual

/-- What a cell hands over when it is asked for one unit along `type` at a time. -/
def supply (w : WindowOptions) (type : LayoutType) : Edge → LayoutCell → Supply
  | _, .windowpane true _ _ => ⟨0, false⟩
  | e, .windowpane false wp g =>
      ⟨(layoutResizeCheck w e (.windowpane false wp g) type).toNat, false⟩
  | e, .node t _ cells =>
      if !anyInFlow cells then ⟨0, false⟩
      else if t = type then
        supplyAlong w type (spare w type (withEdges e t cells)) (e.children t cells) cells
      else if blocked w type (withEdges e t cells) then ⟨0, false⟩
      else (supplyAcross w type (e.children t cells) cells).getD ⟨0, false⟩

/-- The first child that does not pass is the one that is asked. When all have
passed the node does so too, unless it still counts spare space. -/
def supplyAlong (w : WindowOptions) (type : LayoutType) (spare : Bool) :
    List Edge → List LayoutCell → Supply
  | e :: es, c :: cs => (supply w type e c).join (supplyAlong w type spare es cs)
  | _, _ => ⟨0, spare⟩

/-- All children in the flow are asked at once. -/
def supplyAcross (w : WindowOptions) (type : LayoutType) :
    List Edge → List LayoutCell → Option Supply
  | e :: es, c :: cs =>
      if inFlow c then some ((supply w type e c).meet (supplyAcross w type es cs))
      else supplyAcross w type es cs
  | _, _ => none

end

/-- Whether `k` units can be taken from a cell. Across its direction a node passes the
whole change on; along it the units are dealt out by turns. -/
inductive CanGive (w : WindowOptions) (type : LayoutType) (k : Nat) : Edge → LayoutCell → Prop
  | windowpane {e : Edge} {floating : Bool} {wp : Option Nat} {g : Geometry} :
      CanGive w type k e (.windowpane floating wp g)
  | across {e : Edge} {t : LayoutType} {g : Geometry} {cells : List LayoutCell} : t ≠ type →
      (∀ p ∈ withEdges e t cells, inFlow p.2 → CanGive w type k p.1 p.2) →
        CanGive w type k e (.node t g cells)
  | along {e : Edge} {g : Geometry} {cells : List LayoutCell} :
      Served (fun p => (supply w type p.1 p.2).units) (fun p => (supply w type p.1 p.2).trap)
        (withEdges e type cells) k →
        CanGive w type k e (.node type g cells)

/-- Every node has a tiled leaf below it. -/
inductive Populated : LayoutCell → Prop
  | windowpane {floating : Bool} {wp : Option Nat} {g : Geometry} :
      Populated (.windowpane floating wp g)
  | node {t : LayoutType} {g : Geometry} {cells : List LayoutCell} : cells.any inFlow →
      (∀ c ∈ cells, Populated c) → Populated (.node t g cells)

mutual

/-- The most that the sums of `layoutResizeCheck` over a cell can come to. -/
def span (type : LayoutType) : LayoutCell → Nat
  | .windowpane _ _ g => (g.size type).toNat
  | .node t _ cells => if t = type then spanSum type cells else spanMax type cells

def spanSum (type : LayoutType) : List LayoutCell → Nat
  | [] => 0
  | c :: cs => span type c + spanSum type cs

def spanMax (type : LayoutType) : List LayoutCell → Nat
  | [] => 0
  | c :: cs => max (span type c) (spanMax type cs)

end

variable {w : WindowOptions} {type : LayoutType}

theorem span_le_spanMax {c : LayoutCell} {cells : List LayoutCell} (h : c ∈ cells) :
    span type c ≤ spanMax type cells := by
  induction cells with
  | nil => cases h
  | cons x xs ih =>
      rw [spanMax]
      rcases List.mem_cons.mp h with rfl | h
      · exact le_max_left _ _
      · exact (ih h).trans (le_max_right _ _)

theorem span_le_spanSum {c : LayoutCell} {cells : List LayoutCell} (h : c ∈ cells) :
    span type c ≤ spanSum type cells := by
  induction cells with
  | nil => cases h
  | cons x xs ih =>
      rw [spanSum]
      rcases List.mem_cons.mp h with rfl | h
      · omega
      · have := ih h
        omega

theorem spanSum_eq (cells : List LayoutCell) :
    spanSum type cells = (cells.map (span type)).sum := by
  induction cells with
  | nil => rfl
  | cons c cs ih => rw [spanSum, ih, List.map_cons, List.sum_cons]

theorem spanMax_eq (cells : List LayoutCell) :
    spanMax type cells = (cells.map (span type)).foldr max 0 := by
  induction cells with
  | nil => rfl
  | cons c cs ih => rw [spanMax, ih, List.map_cons, List.foldr_cons]

theorem span_le_of_mem {t : LayoutType} {g : Geometry} {c : LayoutCell} {cells : List LayoutCell}
    (h : c ∈ cells) : span type c ≤ span type (.node t g cells) := by
  rw [span]
  split
  · exact span_le_spanSum h
  · exact span_le_spanMax h

theorem layoutResizeCheck_le_span {e : Edge} {c : LayoutCell} (h : Populated c) :
    (layoutResizeCheck w e c type).toNat ≤ span type c := by
  induction c generalizing e with
  | windowpane floating wp g =>
      rw [layoutResizeCheck_windowpane, span]
      omega
  | node t g cells ih =>
      cases h with
      | node hany hcells =>
          by_cases ht : t = type
          · subst ht
            calc (layoutResizeCheck w e (.node t g cells) t).toNat
                ≤ ((withEdges e t cells).map fun p => (available w t p).toNat).sum := by
                  rw [layoutResizeCheck_along, toNat_sum, List.map_map]
                  exact Nat.mod_le _ _
              _ ≤ ((withEdges e t cells).map fun p => span t p.2).sum :=
                  List.sum_le_sum fun p hp =>
                    ih _ (mem_of_mem_withEdges hp) (hcells _ (mem_of_mem_withEdges hp))
              _ = span t (.node t g cells) := by
                  rw [span, if_pos rfl, spanSum_eq]
                  conv_rhs => rw [← map_snd_withEdges e t cells, List.map_map]
                  rfl
          · obtain ⟨c, hc, -⟩ := List.any_eq_true.mp hany
            obtain ⟨p, hp, rfl⟩ := exists_mem_withEdges (e := e) (t := t) hc
            have hle := (le_layoutResizeCheck_across (w := w) (g := g) ht
              (UInt32.toNat_lt _)).mp le_rfl p hp
            exact (hle.trans (ih _ hc (hcells _ hc))).trans (span_le_of_mem hc)

/-- Where the sum does not wrap it is the sum. -/
theorem toNat_layoutResizeCheck_along {e : Edge} {g : Geometry} {cells : List LayoutCell}
    (h : Populated (.node type g cells)) (hspan : span type (.node type g cells) < 2 ^ 32) :
    (layoutResizeCheck w e (.node type g cells) type).toNat =
      ((withEdges e type cells).map fun p => (available w type p).toNat).sum := by
  rw [layoutResizeCheck_along, toNat_sum, List.map_map]
  refine Nat.mod_eq_of_lt (lt_of_le_of_lt ?_ hspan)
  cases h with
  | node _ hcells =>
      calc ((withEdges e type cells).map fun p => (available w type p).toNat).sum
          ≤ ((withEdges e type cells).map fun p => span type p.2).sum :=
            List.sum_le_sum fun p hp =>
              layoutResizeCheck_le_span (hcells _ (mem_of_mem_withEdges hp))
        _ = span type (.node type g cells) := by
            rw [span, if_pos rfl, spanSum_eq]
            conv_rhs => rw [← map_snd_withEdges e type cells, List.map_map]
            rfl

/-- A node has space along its direction exactly when one of its children has. -/
theorem layoutResizeCheck_along_pos {e : Edge} {g : Geometry} {cells : List LayoutCell}
    (h : Populated (.node type g cells)) (hspan : span type (.node type g cells) < 2 ^ 32) :
    0 < layoutResizeCheck w e (.node type g cells) type ↔
      ∃ p ∈ withEdges e type cells, 0 < available w type p := by
  rw [UInt32.lt_iff_toNat_lt, toNat_layoutResizeCheck_along h hspan, UInt32.toNat_zero,
    Nat.pos_iff_ne_zero, Ne, List.sum_eq_zero_iff]
  simp [UInt32.lt_iff_toNat_lt, Nat.pos_iff_ne_zero]

/-! ### One unit -/

/-- What a unit taken from a cell does to its supply. -/
def UnitLaw (w : WindowOptions) (type : LayoutType) (e : Edge) (c : LayoutCell) : Prop :=
  (takes w false type (e, c) = false → supply w type e c = ⟨0, false⟩) ∧
    (takes w false type (e, c) →
      (∀ c', adjustUnit w false type e c = some c' →
        supply w type e c = (supply w type e c').succ ∧ span type c' ≤ span type c) ∧
      (adjustUnit w false type e c = none → supply w type e c = ⟨0, true⟩))

/-- Children of which none takes a unit. -/
theorem supplyAlong_idle (spare : Bool) {es : List Edge} {cs : List LayoutCell}
    (hlaw : ∀ e, ∀ c ∈ cs, UnitLaw w type e c)
    (h : ∀ p ∈ es.zip cs, takes w false type p = false) :
    supplyAlong w type spare es cs = ⟨0, spare⟩ ∧ unitFirst w false type es cs = none := by
  induction es generalizing cs with
  | nil => cases cs <;> exact ⟨rfl, rfl⟩
  | cons e es ih =>
      cases cs with
      | nil => exact ⟨rfl, rfl⟩
      | cons c cs =>
          rw [List.zip_cons_cons, List.forall_mem_cons] at h
          obtain ⟨hs, hu⟩ := ih (fun e c hc => hlaw e c (List.mem_cons_of_mem _ hc)) h.2
          rw [supplyAlong, (hlaw e c List.mem_cons_self).1 h.1, Supply.join_idle, unitFirst, h.1,
            if_neg (by simp), hs, hu]
          exact ⟨rfl, rfl⟩

/-- Children of which one does. -/
theorem supplyAlong_taken (spare : Bool) {es : List Edge} {cs : List LayoutCell}
    (hlaw : ∀ e, ∀ c ∈ cs, UnitLaw w type e c) (h : ∃ p ∈ es.zip cs, takes w false type p) :
    (∀ cs', unitFirst w false type es cs = some cs' →
      supplyAlong w type spare es cs = (supplyAlong w type spare es cs').succ ∧
        spanSum type cs' ≤ spanSum type cs) ∧
      (unitFirst w false type es cs = none → supplyAlong w type spare es cs = ⟨0, true⟩) := by
  induction es generalizing cs with
  | nil => simp at h
  | cons e es ih =>
      cases cs with
      | nil => simp at h
      | cons c cs =>
          obtain ⟨hpass, htake⟩ := hlaw e c List.mem_cons_self
          have hlaw' : ∀ e, ∀ c ∈ cs, UnitLaw w type e c :=
            fun e c hc => hlaw e c (List.mem_cons_of_mem _ hc)
          rw [unitFirst]
          cases ht : takes w false type (e, c) with
          | false =>
              have h' : ∃ p ∈ es.zip cs, takes w false type p := by
                simpa [ht] using h
              obtain ⟨hsome, hnone⟩ := ih hlaw' h'
              rw [if_neg (by simp), supplyAlong, hpass ht, Supply.join_idle]
              refine ⟨fun cs' hcs => ?_, fun hcs => hnone (by simpa using hcs)⟩
              obtain ⟨cs', hu, rfl⟩ := Option.map_eq_some_iff.mp hcs
              rw [supplyAlong, hpass ht, Supply.join_idle, spanSum, spanSum]
              exact ⟨(hsome cs' hu).1, Nat.add_le_add_left (hsome cs' hu).2 _⟩
          | true =>
              obtain ⟨hsome, hnone⟩ := htake ht
              rw [if_pos rfl, supplyAlong]
              refine ⟨fun cs' hcs => ?_, fun hcs => ?_⟩
              · obtain ⟨c', hu, rfl⟩ := Option.map_eq_some_iff.mp hcs
                rw [supplyAlong, (hsome c' hu).1, Supply.join_succ, spanSum, spanSum]
                exact ⟨rfl, Nat.add_le_add_right (hsome c' hu).2 _⟩
              · rw [hnone (by simpa using hcs), Supply.join_stuck]

theorem supplyAcross_isSome {es : List Edge} {cs : List LayoutCell}
    (hlen : es.length = cs.length) (h : cs.any inFlow) :
    (supplyAcross w type es cs).isSome := by
  induction es generalizing cs with
  | nil =>
      obtain rfl : cs = [] := by simpa using hlen.symm
      simp at h
  | cons e es ih =>
      cases cs with
      | nil => simp at h
      | cons c cs =>
          rw [supplyAcross]
          cases hf : inFlow c with
          | true => rfl
          | false => exact ih (by simpa using hlen) (by simpa [hf] using h)

/-- Children of which one in the flow has nothing. -/
theorem supplyAcross_idle {es : List Edge} {cs : List LayoutCell}
    (hlaw : ∀ e, ∀ c ∈ cs, UnitLaw w type e c)
    (h : ∃ p ∈ es.zip cs, inFlow p.2 ∧ takes w false type p = false) :
    supplyAcross w type es cs = some ⟨0, false⟩ := by
  induction es generalizing cs with
  | nil => simp at h
  | cons e es ih =>
      cases cs with
      | nil => simp at h
      | cons c cs =>
          have hlaw' : ∀ e, ∀ c ∈ cs, UnitLaw w type e c :=
            fun e c hc => hlaw e c (List.mem_cons_of_mem _ hc)
          rw [supplyAcross]
          rw [List.zip_cons_cons, List.exists_mem_cons_iff] at h
          rcases h with ⟨hf, ht⟩ | h
          · rw [if_pos hf, (hlaw e c List.mem_cons_self).1 ht, Supply.meet_idle]
          · rw [ih hlaw' h]
            split
            · rw [Supply.meet_idle_right]
            · rfl

/-- Children in the flow that all have something. -/
theorem supplyAcross_taken {es : List Edge} {cs : List LayoutCell}
    (hlaw : ∀ e, ∀ c ∈ cs, UnitLaw w type e c)
    (h : ∀ p ∈ es.zip cs, inFlow p.2 → takes w false type p) :
    (∀ cs', unitAll w false type es cs = some cs' →
      supplyAcross w type es cs = (supplyAcross w type es cs').map Supply.succ ∧
        spanMax type cs' ≤ spanMax type cs) ∧
      (unitAll w false type es cs = none → supplyAcross w type es cs = some ⟨0, true⟩) := by
  induction es generalizing cs with
  | nil =>
      rw [show unitAll w false type [] cs = some [] by cases cs <;> rfl]
      refine ⟨?_, by simp⟩
      rintro _ ⟨⟩
      cases cs <;> simp [supplyAcross, spanMax]
  | cons e es ih =>
      cases cs with
      | nil =>
          refine ⟨?_, by simp [unitAll]⟩
          rintro _ ⟨⟩
          simp [supplyAcross]
      | cons c cs =>
          obtain ⟨-, htake⟩ := hlaw e c List.mem_cons_self
          rw [List.zip_cons_cons, List.forall_mem_cons] at h
          obtain ⟨hsome, hnone⟩ := ih (fun e c hc => hlaw e c (List.mem_cons_of_mem _ hc)) h.2
          cases hf : inFlow c with
          | false =>
              simp only [unitAll, supplyAcross, hf, Bool.false_eq_true, if_false,
                Option.bind_eq_bind, Option.bind_some, Option.bind_eq_some_iff,
                Option.bind_eq_none_iff, Option.some.injEq, reduceCtorEq]
              refine ⟨?_, fun hu => hnone ?_⟩
              · rintro _ ⟨cs', hcs, rfl⟩
                rw [supplyAcross, hf, if_neg (by simp), spanMax, spanMax]
                exact ⟨(hsome cs' hcs).1, max_le_max_left _ (hsome cs' hcs).2⟩
              · exact Option.eq_none_iff_forall_ne_some.mpr fun cs' hcs => hu cs' hcs
          | true =>
              obtain ⟨hsomec, hnonec⟩ := htake (h.1 hf)
              rw [unitAll, supplyAcross, hf, if_pos rfl, if_pos rfl]
              cases hu : adjustUnit w false type e c with
              | none =>
                  refine ⟨by simp, fun _ => ?_⟩
                  rw [hnonec hu, Supply.meet_stuck_left]
                  cases hcs : unitAll w false type es cs with
                  | none => rw [hnone hcs]; simp
                  | some cs' =>
                      rw [(hsome cs' hcs).1]
                      cases supplyAcross w type es cs' <;> simp [Supply.succ]
              | some c' =>
                  have hf' : inFlow c' := by
                    rw [(adjustBy_resized hf (adjustUnit_eq e c ▸ hu)).inFlow, hf]
                  rw [(hsomec c' hu).1]
                  cases hcs : unitAll w false type es cs with
                  | none =>
                      refine ⟨by simp, fun _ => ?_⟩
                      rw [hnone hcs, Supply.meet_stuck_right]
                  | some cs' =>
                      refine ⟨?_, by simp⟩
                      rintro _ ⟨⟩
                      rw [supplyAcross, hf', if_pos rfl, (hsome cs' hcs).1, Supply.meet_succ,
                        spanMax, spanMax]
                      exact ⟨rfl, max_le_max (hsomec c' hu).2 (hsome cs' hcs).2⟩

theorem zip_resized {es : List Edge} {cells cells' : List LayoutCell}
    {f : Edge × LayoutCell → Bool} (h : List.Forall₂ (Resized type) cells cells') :
    ((es.zip cells').any fun p => !inFlow p.2 && f p) =
      (es.zip cells).any fun p => !inFlow p.2 && f p := by
  induction h generalizing es with
  | nil => rfl
  | cons hc _ ih =>
      cases es with
      | nil => rfl
      | cons e es =>
          rw [List.zip_cons_cons, List.zip_cons_cons, List.any_cons, List.any_cons, ih, hc.inFlow]
          cases hf : inFlow _ with
          | true => rfl
          | false => rw [hc.eq_of_not_inFlow hf]

theorem spare_eq {e : Edge} {t type' : LayoutType} {cells cells' : List LayoutCell}
    (h : List.Forall₂ (Resized type) cells cells') :
    spare w type' (withEdges e t cells') = spare w type' (withEdges e t cells) := by
  rw [spare, spare, withEdges, withEdges, children_eq h, zip_resized h]

theorem blocked_eq {e : Edge} {t type' : LayoutType} {cells cells' : List LayoutCell}
    (h : List.Forall₂ (Resized type) cells cells') :
    blocked w type' (withEdges e t cells') = blocked w type' (withEdges e t cells) := by
  rw [blocked, blocked, withEdges, withEdges, children_eq h, zip_resized h]

theorem unitLaw_windowpane (e : Edge) (floating : Bool) (wp : Option Nat) (g : Geometry) :
    UnitLaw w type e (.windowpane floating wp g) := by
  cases floating with
  | true => exact ⟨fun _ => rfl, fun h => by simp [takes] at h⟩
  | false =>
      have htakes : takes w false type (e, .windowpane false wp g) ↔
          0 < (layoutResizeCheck w e (.windowpane false wp g) type).toNat := by
        simp [takes, available, UInt32.lt_iff_toNat_lt]
      refine ⟨fun h => ?_, fun h => ⟨?_, ?_⟩⟩
      · rw [supply]
        have : ¬0 < (layoutResizeCheck w e (.windowpane false wp g) type).toNat := by
          rw [← htakes, h]
          simp
        rw [Nat.eq_zero_of_not_pos this]
      · intro c' hu
        have hpos := htakes.mp h
        rw [layoutResizeCheck_windowpane] at hpos
        have hlt := (g.size type).toNat_lt
        have hsize : (((g.addSize type (-1)).size type).toNat : Int) =
            (g.size type).toNat + -1 := by
          rw [Geometry.size_addSize]
          exact toNat_addSize (by omega) (by omega)
        rw [adjustUnit, Option.some.injEq] at hu
        subst hu
        rw [supply, supply, Supply.succ, layoutResizeCheck_windowpane,
          layoutResizeCheck_windowpane, span, span, signed_false, Nat.cast_one]
        refine ⟨?_, by omega⟩
        simp only [Supply.mk.injEq, and_true]
        omega
      · simp [adjustUnit]

theorem unitLaw_along {e : Edge} {g : Geometry} {cells : List LayoutCell}
    (hpop : Populated (.node type g cells)) (hspan : span type (.node type g cells) < 2 ^ 32)
    (hlaw : ∀ e, ∀ c ∈ cells, UnitLaw w type e c) : UnitLaw w type e (.node type g cells) := by
  have hany : cells.any inFlow := by cases hpop; assumption
  have hflow : inFlow (.node type g cells) := by rwa [inFlow_node]
  have hcheck := layoutResizeCheck_along_pos (w := w) (e := e) hpop hspan
  have hsupply : ∀ g cs, cs.any inFlow → supply w type e (.node type g cs) =
      supplyAlong w type (spare w type (withEdges e type cs)) (e.children type cs) cs := by
    intro g cs hcs
    rw [supply, anyInFlow_eq_any, hcs, if_neg (by simp), if_pos rfl]
  have hunit : adjustUnit w false type e (.node type g cells) =
      (unitFirst w false type (e.children type cells) cells).map
        (.node type (g.addSize type (signed false 1))) := by
    rw [adjustUnit, if_neg (by simp), anyInFlow_eq_any, hany, if_neg (by simp)]
  rw [UnitLaw, hsupply g cells hany]
  by_cases htaker : ∃ p ∈ withEdges e type cells, takes w false type p
  · obtain ⟨hsome, hnone⟩ := supplyAlong_taken
      (spare w type (withEdges e type cells)) hlaw htaker
    refine ⟨fun h => ?_, fun _ => ⟨fun c' hu => ?_, fun hu => hnone (by simpa [hunit] using hu)⟩⟩
    · obtain ⟨p, hp, ht⟩ := htaker
      have : 0 < layoutResizeCheck w e (.node type g cells) type :=
        hcheck.mpr ⟨p, hp, of_decide_eq_true (Bool.and_eq_true_iff.mp ht).2⟩
      simp [takes, hany, available, this] at h
    · have hR := adjustBy_resized hflow (adjustUnit_eq e _ ▸ hu)
      rw [hunit] at hu
      obtain ⟨cs', hcs, rfl⟩ := Option.map_eq_some_iff.mp hu
      have hany' : cs'.any inFlow := by
        have := hR.inFlow
        rwa [inFlow_node, inFlow_node, hany] at this
      rw [hsupply _ cs' hany', children_eq hR.cells, spare_eq hR.cells]
      obtain ⟨hs, hle⟩ := hsome cs' hcs
      exact ⟨hs, by rwa [span, span, if_pos rfl, if_pos rfl]⟩
  · have hno : ∀ p ∈ withEdges e type cells, takes w false type p = false := fun p hp => by
      simpa using fun h => htaker ⟨p, hp, h⟩
    obtain ⟨hs, hu⟩ := supplyAlong_idle (spare w type (withEdges e type cells)) hlaw hno
    have hspare : takes w false type (e, .node type g cells) =
        spare w type (withEdges e type cells) := by
      rw [Bool.eq_iff_iff, takes, hflow, Bool.true_and, Bool.false_or, decide_eq_true_iff,
        available, hcheck, spare, List.any_eq_true]
      refine exists_congr fun p => and_congr_right fun hp => ?_
      have := hno p hp
      cases hf : inFlow p.2 <;> simp_all [takes]
    rw [hs, hspare]
    refine ⟨fun h => by rw [h], fun h => ⟨?_, fun _ => by rw [h]⟩⟩
    rw [hunit, hu]
    simp

theorem unitLaw_across {e : Edge} {t : LayoutType} (ht : t ≠ type) {g : Geometry}
    {cells : List LayoutCell} (hany : cells.any inFlow)
    (hlaw : ∀ e, ∀ c ∈ cells, UnitLaw w type e c) : UnitLaw w type e (.node t g cells) := by
  have hflow : inFlow (.node t g cells) := by rwa [inFlow_node]
  have htakes : takes w false type (e, .node t g cells) ↔
      ∀ p ∈ withEdges e t cells, 0 < available w type p := by
    rw [takes, hflow, Bool.true_and, Bool.false_or, decide_eq_true_iff]
    exact le_layoutResizeCheck_across ht (x := 1) (by decide)
  have hsupply : ∀ g cs, cs.any inFlow → supply w type e (.node t g cs) =
      if blocked w type (withEdges e t cs) then ⟨0, false⟩
      else (supplyAcross w type (e.children t cs) cs).getD ⟨0, false⟩ := by
    intro g cs hcs
    rw [supply, anyInFlow_eq_any, hcs, if_neg (by simp), if_neg ht]
  have hunit : adjustUnit w false type e (.node t g cells) =
      (unitAll w false type (e.children t cells) cells).map
        (.node t (g.addSize type (signed false 1))) := by
    rw [adjustUnit, if_pos ht]
  rw [UnitLaw, hsupply g cells hany]
  by_cases hblocked : blocked w type (withEdges e t cells)
  · rw [if_pos hblocked]
    refine ⟨fun _ => rfl, fun h => ?_⟩
    obtain ⟨p, hp, hpf⟩ := List.any_eq_true.mp hblocked
    have := htakes.mp h p hp
    simp [this] at hpf
  · rw [if_neg hblocked]
    by_cases hidle : ∃ p ∈ withEdges e t cells, inFlow p.2 ∧ takes w false type p = false
    · rw [supplyAcross_idle hlaw hidle]
      refine ⟨fun _ => rfl, fun h => ?_⟩
      obtain ⟨p, hp, hpf, hpt⟩ := hidle
      have := htakes.mp h p hp
      simp [takes, hpf, this] at hpt
    · have hall : ∀ p ∈ withEdges e t cells, inFlow p.2 → takes w false type p := by
        intro p hp hpf
        by_contra h
        exact hidle ⟨p, hp, hpf, by simpa using h⟩
      obtain ⟨hsome, hnone⟩ := supplyAcross_taken hlaw hall
      refine ⟨fun h => ?_, fun _ => ⟨fun c' hu => ?_, fun hu => ?_⟩⟩
      · refine absurd (htakes.mpr fun p hp => ?_) (by simp [h])
        cases hpf : inFlow p.2 with
        | true => exact of_decide_eq_true (Bool.and_eq_true_iff.mp (hall p hp hpf)).2
        | false =>
            by_contra h0
            exact hblocked (List.any_eq_true.mpr ⟨p, hp, by simp [hpf, h0]⟩)
      · have hR := adjustBy_resized hflow (adjustUnit_eq e _ ▸ hu)
        rw [hunit] at hu
        obtain ⟨cs', hcs, rfl⟩ := Option.map_eq_some_iff.mp hu
        have hany' : cs'.any inFlow := by
          have := hR.inFlow
          rwa [inFlow_node, inFlow_node, hany] at this
        obtain ⟨hs, hle⟩ := hsome cs' hcs
        obtain ⟨s, hs'⟩ := Option.isSome_iff_exists.mp (@supplyAcross_isSome w type _ _
          (length_children e t cs') hany')
        rw [hsupply _ cs' hany', blocked_eq hR.cells, if_neg hblocked, hs]
        rw [children_eq hR.cells] at hs' ⊢
        rw [hs', span, span, if_neg ht, if_neg ht]
        exact ⟨rfl, hle⟩
      · rw [hnone (by simpa [hunit] using hu)]
        rfl

/-- The law holds in every layout whose sums do not wrap. -/
theorem unitLaw {c : LayoutCell} (hpop : Populated c) (hspan : span type c < 2 ^ 32) (e : Edge) :
    UnitLaw w type e c := by
  induction c generalizing e with
  | windowpane floating wp g => exact unitLaw_windowpane e floating wp g
  | node t g cells ih =>
      have hlaw : ∀ e, ∀ c ∈ cells, UnitLaw w type e c := fun e c hc => by
        cases hpop with
        | node hany hcells =>
            exact ih c hc (hcells c hc) ((span_le_of_mem hc).trans_lt hspan) e
      by_cases ht : t = type
      · subst ht
        exact unitLaw_along hpop hspan hlaw
      · cases hpop with
        | node hany _ => exact unitLaw_across ht hany hlaw

/-! ### Any number of units -/

theorem Populated.resized {c c' : LayoutCell} (h : Populated c) (hR : Resized type c c') :
    Populated c' := by
  revert h
  refine hR.induct (P := fun c c' => Populated c → Populated c') (fun _ h => h)
    (fun _ _ _ _ => .windowpane) fun t g change cells cells' hany hcells h => ?_
  have hmap := Lists.map_eq_of_forall₂ (g := inFlow) hcells fun _ _ _ hcc => hcc.1.inFlow
  cases h with
  | node _ hpop =>
      refine .node ?_ fun c' hc' => ?_
      · rwa [Lists.any_eq_any_map, hmap, ← Lists.any_eq_any_map]
      · obtain ⟨c, hc, -, hcc⟩ := Lists.exists_of_mem_right hcells hc'
        exact hcc (hpop c hc)

theorem reply_metered : Metered (reply w false type)
    (fun p => Populated p.2 ∧ span type p.2 < 2 ^ 32)
    (fun p => (supply w type p.1 p.2).units) (fun p => (supply w type p.1 p.2).trap) where
  pass := by
    intro p ⟨hpop, hspan⟩ hreply
    have ht : takes w false type p = false := by
      by_contra h
      rw [reply, if_pos (by simpa using h)] at hreply
      split at hreply <;> cases hreply
    rw [(unitLaw hpop hspan p.1).1 ht]
    simp
  took := by
    intro p q ⟨hpop, hspan⟩ hreply
    obtain ⟨ht, hq, he⟩ := reply_eq_took.mp hreply
    have hR := adjustBy_resized (Bool.and_eq_true_iff.mp ht).1 hq
    obtain ⟨hs, hle⟩ := ((unitLaw hpop hspan p.1).2 ht).1 q.2 (by rw [adjustUnit_eq, hq])
    rw [hs, he]
    exact ⟨⟨hpop.resized hR, hle.trans_lt hspan⟩, rfl, Iff.rfl⟩
  stuck := by
    intro p ⟨hpop, hspan⟩ hreply
    cases ht : takes w false type p with
    | false => rw [reply_pass ht] at hreply; cases hreply
    | true =>
        cases hu : adjustUnit w false type p.1 p.2 with
        | some c => rw [reply_took ht hu] at hreply; cases hreply
        | none =>
            rw [((unitLaw hpop hspan p.1).2 ht).2 hu]
            simp

theorem adjustBy_isSome_iff {k : Nat} {e : Edge} {c : LayoutCell} (hpop : Populated c)
    (hspan : span type c < 2 ^ 32) :
    (adjustBy w false type k e c).isSome ↔ CanGive w type k e c := by
  induction c generalizing e with
  | windowpane floating wp g => exact ⟨fun _ => .windowpane, fun _ => rfl⟩
  | node t g cells ih =>
      cases hpop with
      | node hany hcells =>
          have hmem : ∀ p ∈ withEdges e t cells, Populated p.2 ∧ span type p.2 < 2 ^ 32 :=
            fun p hp => ⟨hcells _ (mem_of_mem_withEdges hp),
              (span_le_of_mem (mem_of_mem_withEdges hp)).trans_lt hspan⟩
          by_cases ht : t = type
          · subst ht
            have hdeal := deal_isSome_iff (k := k) (reply_metered (w := w)) hmem
            rw [adjustBy, if_neg (by simp), anyInFlow_eq_any, hany, if_neg (by simp),
              Option.isSome_map, hdeal]
            refine ⟨.along, fun h => ?_⟩
            cases h with
            | across hne => exact absurd rfl hne
            | along h => exact h
          · have hchild : ∀ p ∈ withEdges e t cells,
                (adjustBy w false type k p.1 p.2).isSome ↔ CanGive w type k p.1 p.2 :=
              fun p hp => ih _ (mem_of_mem_withEdges hp) (hmem p hp).1 (hmem p hp).2
            rw [adjustBy, if_pos ht, Option.isSome_map, byAll_isSome_iff, ← withEdges]
            constructor
            · intro h
              exact .across ht fun p hp hpf => (hchild p hp).mp (h p hp hpf)
            · intro h p hp hpf
              cases h with
              | across _ h => exact (hchild p hp).mpr (h p hp hpf)
              | along => exact absurd rfl ht

/-! ### Without floating cells -/

/-- No floating cell and no empty node. -/
inductive Solid : LayoutCell → Prop
  | windowpane {wp : Option Nat} {g : Geometry} : Solid (.windowpane false wp g)
  | node {t : LayoutType} {g : Geometry} {cells : List LayoutCell} : cells ≠ [] →
      (∀ c ∈ cells, Solid c) → Solid (.node t g cells)

theorem Solid.inFlow {c : LayoutCell} (h : Solid c) : Layout.inFlow c := by
  induction c with
  | windowpane floating wp g => cases h; simp
  | node t g cells ih =>
      cases h with
      | node hne hcells =>
          obtain ⟨c, hc⟩ := List.exists_mem_of_ne_nil cells hne
          rw [inFlow_node]
          exact List.any_eq_true.mpr ⟨c, hc, ih c hc (hcells c hc)⟩

theorem Solid.populated {c : LayoutCell} (h : Solid c) : Populated c := by
  induction c with
  | windowpane floating wp g => exact .windowpane
  | node t g cells ih =>
      have hany := h.inFlow
      rw [inFlow_node] at hany
      cases h with
      | node _ hcells => exact .node hany fun c hc => ih c hc (hcells c hc)

theorem Solid.resized {c c' : LayoutCell} (h : Solid c) (hR : Resized type c c') : Solid c' := by
  revert h
  refine hR.induct (P := fun c c' => Solid c → Solid c') (fun _ h => h) (fun _ _ _ _ => .windowpane)
    fun t g change cells cells' _ hcells h => ?_
  cases h with
  | node hne hsolid =>
      refine .node ?_ fun c' hc' => ?_
      · rintro rfl
        exact hne (List.forall₂_nil_right_iff.mp hcells)
      · obtain ⟨c, hc, -, hcc⟩ := Lists.exists_of_mem_right hcells hc'
        exact hcc (hsolid c hc)

theorem supplyAlong_solid {es : List Edge} {cs : List LayoutCell}
    (h : ∀ e, ∀ c ∈ cs, supply w type e c = ⟨(layoutResizeCheck w e c type).toNat, false⟩) :
    supplyAlong w type false es cs =
      ⟨((es.zip cs).map fun p => (available w type p).toNat).sum, false⟩ := by
  induction es generalizing cs with
  | nil => cases cs <;> rfl
  | cons e es ih =>
      cases cs with
      | nil => rfl
      | cons c cs =>
          rw [supplyAlong, h e c List.mem_cons_self,
            ih fun e c hc => h e c (List.mem_cons_of_mem _ hc), List.zip_cons_cons,
            List.map_cons, List.sum_cons]
          rfl

theorem supplyAcross_solid {es : List Edge} {cs : List LayoutCell} (hlen : es.length = cs.length)
    (hne : cs ≠ []) (hflow : ∀ c ∈ cs, inFlow c)
    (h : ∀ e, ∀ c ∈ cs, supply w type e c = ⟨(layoutResizeCheck w e c type).toNat, false⟩) :
    ∃ n, supplyAcross w type es cs = some ⟨n, false⟩ ∧
      ∀ x, x ≤ n ↔ ∀ p ∈ es.zip cs, x ≤ (available w type p).toNat := by
  induction es generalizing cs with
  | nil =>
      obtain rfl : cs = [] := by simpa using hlen.symm
      exact absurd rfl hne
  | cons e es ih =>
      cases cs with
      | nil => exact absurd rfl hne
      | cons c cs =>
          rw [supplyAcross, if_pos (hflow c List.mem_cons_self), h e c List.mem_cons_self,
            List.zip_cons_cons]
          simp only [List.forall_mem_cons, available]
          by_cases hcs : cs = []
          · subst hcs
            exact ⟨_, by cases es <;> rfl, by simp⟩
          · obtain ⟨n, hn, hx⟩ := ih (by simpa using hlen) hcs
              (fun c hc => hflow c (List.mem_cons_of_mem _ hc))
              fun e c hc => h e c (List.mem_cons_of_mem _ hc)
            refine ⟨min (layoutResizeCheck w e c type).toNat n, ?_, fun x => ?_⟩
            · rw [hn, Supply.meet_passing]
            · rw [le_min_iff, hx]
              simp only [available]

/-- Where every cell is in the flow, what `layoutResizeCheck` says is what there is. -/
theorem Solid.supply_eq {c : LayoutCell} (h : Solid c) (hspan : span type c < 2 ^ 32) (e : Edge) :
    supply w type e c = ⟨(layoutResizeCheck w e c type).toNat, false⟩ := by
  induction c generalizing e with
  | windowpane floating wp g =>
      cases h
      rfl
  | node t g cells ih =>
      have hpop := h.populated
      have hany := h.inFlow
      rw [inFlow_node] at hany
      cases h with
      | node hne hcells =>
          have hchild : ∀ e, ∀ c ∈ cells,
              supply w type e c = ⟨(layoutResizeCheck w e c type).toNat, false⟩ :=
            fun e c hc => ih c hc (hcells c hc) ((span_le_of_mem hc).trans_lt hspan) e
          have hflow : ∀ p ∈ withEdges e t cells, Layout.inFlow p.2 := fun p hp =>
            (hcells _ (mem_of_mem_withEdges hp)).inFlow
          rw [supply, anyInFlow_eq_any, hany, if_neg (by simp)]
          by_cases ht : t = type
          · subst ht
            have hspare : spare w t (withEdges e t cells) = false :=
              List.any_eq_false.mpr fun p hp => by simp [hflow p hp]
            rw [if_pos rfl, hspare, supplyAlong_solid hchild,
              toNat_layoutResizeCheck_along hpop hspan, withEdges]
          · have hblocked : blocked w type (withEdges e t cells) = false :=
              List.any_eq_false.mpr fun p hp => by simp [hflow p hp]
            obtain ⟨n, hn, hx⟩ := supplyAcross_solid (length_children e t cells) hne
              (fun c hc => (hcells c hc).inFlow) hchild
            have hle := fun x (hlt : x < 2 ^ 32) =>
              @le_layoutResizeCheck_across w e t type ht g cells x hlt
            have hn32 : n < 2 ^ 32 := by
              obtain ⟨c, hc⟩ := List.exists_mem_of_ne_nil cells hne
              obtain ⟨p, hp, -⟩ := exists_mem_withEdges (e := e) (t := t) hc
              exact ((hx n).mp le_rfl p hp).trans_lt (UInt32.toNat_lt _)
            rw [if_neg ht, hblocked, if_neg (by simp), hn, Option.getD_some, Supply.mk.injEq]
            refine ⟨le_antisymm ?_ ?_, rfl⟩
            · exact (hle n hn32).mpr ((hx n).mp le_rfl)
            · exact (hx _).mpr ((hle _ (UInt32.toNat_lt _)).mp le_rfl)

theorem Solid.canGive {k : Nat} {e : Edge} {c : LayoutCell} (h : Solid c)
    (hspan : span type c < 2 ^ 32) (hk : k ≤ (layoutResizeCheck w e c type).toNat) :
    CanGive w type k e c := by
  induction c generalizing e with
  | windowpane floating wp g => exact .windowpane
  | node t g cells ih =>
      have hpop := h.populated
      cases h with
      | node hne hcells =>
          by_cases ht : t = type
          · subst ht
            have hsupply : ∀ p ∈ withEdges e t cells, supply w t p.1 p.2 =
                ⟨(available w t p).toNat, false⟩ := fun p hp =>
              have hc := mem_of_mem_withEdges hp
              (hcells _ hc).supply_eq ((span_le_of_mem hc).trans_lt hspan) p.1
            refine .along ⟨?_, fun xs p ys hps htrap => ?_⟩
            · rw [toNat_layoutResizeCheck_along hpop hspan] at hk
              rwa [List.map_congr_left fun p hp => by rw [hsupply p hp]]
            · have hp := hsupply p (by simp [hps])
              simp [hp] at htrap
          · refine .across ht fun p hp _ => ?_
            have hc := mem_of_mem_withEdges hp
            exact ih _ hc (hcells _ hc) ((span_le_of_mem hc).trans_lt hspan)
              ((le_layoutResizeCheck_across ht (hk.trans_lt (UInt32.toNat_lt _))).mp hk p hp)

theorem spanMax_le {n : Nat} {cells : List LayoutCell} (h : ∀ c ∈ cells, span type c ≤ n) :
    spanMax type cells ≤ n := by
  induction cells with
  | nil => exact Nat.zero_le n
  | cons c cs ih =>
      rw [List.forall_mem_cons] at h
      exact max_le h.1 (ih h.2)

theorem spanSum_add_length_le {cells : List LayoutCell}
    (h : ∀ c ∈ cells, Layout.inFlow c ∧ span type c ≤ (c.size type).toNat) :
    spanSum type cells + cells.length ≤ extent type cells := by
  induction cells with
  | nil => exact le_rfl
  | cons c cs ih =>
      rw [List.forall_mem_cons] at h
      have := ih h.2
      rw [spanSum, extent_cons, if_pos h.1.1, List.length_cons]
      omega

/-- A filled layout has room for all that is counted in it. -/
theorem Solid.span_le_size {m : Nat} {c : LayoutCell} (h : Solid c) (hexact : FlowExact m c) :
    span type c ≤ (c.size type).toNat := by
  induction c with
  | windowpane floating wp g => rw [span, size_windowpane]
  | node t g cells ih =>
      have hany := h.inFlow
      rw [inFlow_node] at hany
      cases h with
      | node hne hcells =>
          cases hexact with
          | node hchild hfill =>
              have hF := hfill hany
              have hle : ∀ c ∈ cells, Layout.inFlow c ∧ span type c ≤ (c.size type).toNat :=
                fun c hc => ⟨(hcells c hc).inFlow, ih c hc (hcells c hc) (hchild c hc)⟩
              rw [span, size_node]
              split
              · rename_i ht
                subst ht
                have hsum := spanSum_add_length_le hle
                have hlen := List.length_pos_of_ne_nil hne
                rw [hF.along] at hsum
                omega
              · rename_i ht
                obtain rfl := LayoutType.eq_across_of_ne ht
                refine spanMax_le fun c hc => ?_
                rw [← hF.across c hc (hle c hc).1]
                exact (hle c hc).2

/-- What is counted in a filled layout can be taken. -/
theorem Solid.adjustBy_isSome {m k : Nat} {e : Edge} {c : LayoutCell} (h : Solid c)
    (hexact : FlowExact m c) (hk : k ≤ (layoutResizeCheck w e c type).toNat) :
    (adjustBy w false type k e c).isSome := by
  have hspan := (@Solid.span_le_size type _ _ h hexact).trans_lt (UInt32.toNat_lt _)
  exact (adjustBy_isSome_iff h.populated hspan).mpr (h.canGive hspan hk)

end Ztmux.Layout
