import Ztmux.Sessions.Winlink

/-!
Moving the current winlink of a session.

Every call that only moves it is a call of `session_set_current` on one of the session's
winlinks, and that keeps the flags, the stack and the current winlink in step.
-/

namespace Ztmux.Sessions

def Session.ptrs (x : Session) : List Nat := x.windows.map (·.ptr)

/-- The stack holds each of some winlinks at most once, and those that are on it have the flag. -/
structure Stacked (ptrs lastw : List Nat) (visited : Nat → Bool) : Prop where
  nodup : lastw.Nodup
  mem : ∀ p ∈ lastw, p ∈ ptrs
  visited : ∀ p ∈ ptrs, visited p = true ↔ p ∈ lastw

/-- The winlinks of a session, without the current one. -/
structure World.Linked (σ : World) (s : SessionId) : Prop where
  sorted : (σ.sessions s).windows.Pairwise fun a b => a.idx < b.idx
  range : ∀ wl ∈ (σ.sessions s).windows, 0 ≤ wl.idx ∧ wl.idx ≤ i32Max
  nodup : (σ.sessions s).ptrs.Nodup
  fresh : ∀ p ∈ (σ.sessions s).ptrs, p < σ.fresh
  stacked : Stacked (σ.sessions s).ptrs (σ.sessions s).lastw σ.visited

structure World.Valid (σ : World) (s : SessionId) : Prop extends σ.Linked s where
  current : ∃ p ∈ (σ.sessions s).ptrs, (σ.sessions s).curw = some p

/-- The current winlink is not on the stack. -/
def World.Apart (σ : World) (s : SessionId) : Prop :=
  ∀ p ∈ (σ.sessions s).lastw, (σ.sessions s).curw ≠ some p

/-- Only the stack, the current winlink and the flags of a session differ. -/
structure Moves (s : SessionId) (σ σ' : World) : Prop where
  windows : (σ'.sessions s).windows = (σ.sessions s).windows
  baseIndex : (σ'.sessions s).baseIndex = (σ.sessions s).baseIndex
  others : ∀ t, t ≠ s → σ'.sessions t = σ.sessions t
  visited : ∀ p, p ∉ (σ.sessions s).ptrs → σ'.visited p = σ.visited p
  winlinks : σ'.winlinks = σ.winlinks
  references : σ'.references = σ.references
  fresh : σ'.fresh = σ.fresh
  group : σ'.group = σ.group

theorem Moves.refl (s : SessionId) (σ : World) : Moves s σ σ :=
  ⟨rfl, rfl, fun _ _ => rfl, fun _ _ => rfl, rfl, rfl, rfl, rfl⟩

theorem Moves.ptrs {s : SessionId} {σ σ' : World} (h : Moves s σ σ') :
    (σ'.sessions s).ptrs = (σ.sessions s).ptrs := by
  rw [Session.ptrs, h.windows, Session.ptrs]

theorem Moves.trans {s : SessionId} {σ₁ σ₂ σ₃ : World} (h₁ : Moves s σ₁ σ₂) (h₂ : Moves s σ₂ σ₃) :
    Moves s σ₁ σ₃ where
  windows := h₂.windows.trans h₁.windows
  baseIndex := h₂.baseIndex.trans h₁.baseIndex
  others t ht := (h₂.others t ht).trans (h₁.others t ht)
  visited p hp := (h₂.visited p (by rwa [h₁.ptrs])).trans (h₁.visited p hp)
  winlinks := h₂.winlinks.trans h₁.winlinks
  references := h₂.references.trans h₁.references
  fresh := h₂.fresh.trans h₁.fresh
  group := h₂.group.trans h₁.group

@[simp] theorem modify_sessions_self (σ : World) (s : SessionId) (f : Session → Session) :
    (σ.modify s f).sessions s = f (σ.sessions s) := Function.update_self _ _ _

theorem modify_sessions_of_ne (σ : World) {s t : SessionId} (h : t ≠ s) (f : Session → Session) :
    (σ.modify s f).sessions t = σ.sessions t := Function.update_of_ne h _ _

variable {σ : World} {s : SessionId}

/-! ### The stack -/

theorem Stacked.erase {ptrs lastw : List Nat} {visited : Nat → Bool}
    (h : Stacked ptrs lastw visited) (p : Nat) :
    Stacked ptrs (lastw.erase p) (Function.update visited p false) where
  nodup := h.nodup.erase p
  mem q hq := h.mem q (List.mem_of_mem_erase hq)
  visited q hq := by
    rw [h.nodup.mem_erase_iff, Function.update_apply]
    split_ifs with heq
    · simp [heq]
    · simp [heq, h.visited q hq]

theorem Stacked.cons {ptrs lastw : List Nat} {visited : Nat → Bool}
    (h : Stacked ptrs lastw visited) {p : Nat} (hp : p ∈ ptrs) (hnew : p ∉ lastw) :
    Stacked ptrs (p :: lastw) (Function.update visited p true) where
  nodup := List.nodup_cons.mpr ⟨hnew, h.nodup⟩
  mem := List.forall_mem_cons.mpr ⟨hp, h.mem⟩
  visited q hq := by
    rw [List.mem_cons, Function.update_apply]
    split_ifs with heq
    · simp [heq]
    · simp [heq, h.visited q hq]

/-- A winlink without the flag is not on the stack, so nothing is lost by taking it off. -/
theorem winlinkStackRemove_eq (h : σ.Linked s) {p : Nat} (hp : p ∈ (σ.sessions s).ptrs) :
    winlinkStackRemove σ s p =
      { σ.modify s fun x => { x with lastw := x.lastw.erase p } with
        visited := Function.update σ.visited p false } := by
  rw [winlinkStackRemove]
  split_ifs with hvisited
  · rfl
  · have hnot : p ∉ (σ.sessions s).lastw := fun hmem =>
      hvisited ((h.stacked.visited p hp).mpr hmem)
    have hsame : Function.update σ.visited p false = σ.visited :=
      Function.update_eq_self_iff.mpr (by simpa using hvisited)
    rw [hsame, World.modify, List.erase_of_not_mem hnot]
    simp

theorem winlinkStackRemove_moves (h : σ.Linked s) {p : Nat} (hp : p ∈ (σ.sessions s).ptrs) :
    Moves s σ (winlinkStackRemove σ s p) ∧ (winlinkStackRemove σ s p).Linked s ∧
      ((winlinkStackRemove σ s p).sessions s).lastw = (σ.sessions s).lastw.erase p ∧
      ((winlinkStackRemove σ s p).sessions s).curw = (σ.sessions s).curw := by
  rw [winlinkStackRemove_eq h hp]
  have hsession : ({ σ.modify s fun x => { x with lastw := x.lastw.erase p } with
      visited := Function.update σ.visited p false } : World).sessions s =
        { σ.sessions s with lastw := (σ.sessions s).lastw.erase p } := Function.update_self _ _ _
  refine ⟨⟨by rw [hsession], by rw [hsession], fun t ht => Function.update_of_ne ht _ _,
    fun q hq => Function.update_of_ne (fun heq : q = p => hq (heq ▸ hp)) _ _, rfl, rfl, rfl, rfl⟩,
    ⟨?_, ?_, ?_, ?_, ?_⟩, by rw [hsession], by rw [hsession]⟩
  · rw [hsession]; exact h.sorted
  · rw [hsession]; exact h.range
  · rw [hsession]; exact h.nodup
  · rw [hsession]; exact h.fresh
  · rw [hsession]; exact h.stacked.erase p

theorem winlinkStackPush_moves (h : σ.Linked s) {p : Nat} (hp : p ∈ (σ.sessions s).ptrs) :
    Moves s σ (winlinkStackPush σ s (some p)) ∧ (winlinkStackPush σ s (some p)).Linked s ∧
      ((winlinkStackPush σ s (some p)).sessions s).lastw = p :: (σ.sessions s).lastw.erase p ∧
      ((winlinkStackPush σ s (some p)).sessions s).curw = (σ.sessions s).curw := by
  obtain ⟨hmoves, hlinked, hlastw, hcurw⟩ := winlinkStackRemove_moves h hp
  rw [winlinkStackPush]
  let σ₁ := winlinkStackRemove σ s p
  have hp₁ : p ∈ (σ₁.sessions s).ptrs := by rwa [hmoves.ptrs]
  have hsession : ({ σ₁.modify s fun x => { x with lastw := p :: x.lastw } with
      visited := Function.update σ₁.visited p true } : World).sessions s =
        { σ₁.sessions s with lastw := p :: (σ₁.sessions s).lastw } := Function.update_self _ _ _
  have hnew : p ∉ (σ₁.sessions s).lastw := by
    rw [hlastw]
    exact fun hmem => (h.stacked.nodup.mem_erase_iff.mp hmem).1 rfl
  refine ⟨hmoves.trans
    ⟨by rw [hsession], by rw [hsession], fun t ht => Function.update_of_ne ht _ _,
    fun q hq => Function.update_of_ne (fun heq : q = p => absurd hp₁ (by rwa [heq] at hq)) _ _, rfl,
    rfl, rfl, rfl⟩,
    ⟨?_, ?_, ?_, ?_, ?_⟩, by rw [hsession, hlastw], by rw [hsession]; exact hcurw⟩
  · rw [hsession]; exact hlinked.sorted
  · rw [hsession]; exact hlinked.range
  · rw [hsession]; exact hlinked.nodup
  · rw [hsession]; exact hlinked.fresh
  · rw [hsession]; exact hlinked.stacked.cons hp₁ hnew

/-! ### Setting it -/

theorem deref_of_mem {windows : List Winlink} {p : Nat} (hp : p ∈ windows.map (·.ptr)) :
    ∃ wl ∈ windows, wl.ptr = p ∧ deref windows p = .ok wl := by
  rw [deref]
  cases hfind : windows.find? fun wl => wl.ptr = p with
  | none =>
      obtain ⟨wl, hwl, hptr⟩ := List.mem_map.mp hp
      exact absurd hptr (by simpa using List.find?_eq_none.mp hfind wl hwl)
  | some wl =>
      exact ⟨wl, List.mem_of_find?_eq_some hfind, by simpa using List.find?_some hfind, rfl⟩

/-- What a call that moves the current winlink of a session leaves. -/
structure Moved (s : SessionId) (σ σ' : World) : Prop extends Moves s σ σ' where
  valid : σ'.Valid s
  apart : σ.Apart s → σ'.Apart s

theorem World.Valid.moved (h : σ.Valid s) : Moved s σ σ := ⟨Moves.refl s σ, h, id⟩

theorem sessionSetCurrent_ok (h : σ.Valid s) {p : Nat} (hp : p ∈ (σ.sessions s).ptrs) :
    ∃ σ', sessionSetCurrent σ s (some p) =
        .ok (σ', if (σ.sessions s).curw = some p then 1 else 0) ∧
      Moved s σ σ' ∧ (σ'.sessions s).curw = some p := by
  obtain ⟨c, hc, hcurw⟩ := h.current
  rw [sessionSetCurrent]
  split_ifs with hsame
  · exact ⟨σ, rfl, h.moved, hsame⟩
  · obtain ⟨wl, -, -, hderef⟩ := deref_of_mem hp
    obtain ⟨hmoves₁, hlinked₁, hlastw₁, hcurw₁⟩ := winlinkStackRemove_moves h.toLinked hp
    let σ₁ := winlinkStackRemove σ s p
    obtain ⟨hmoves₂, hlinked₂, hlastw₂, hcurw₂⟩ :=
      @winlinkStackPush_moves σ₁ s hlinked₁ c (by rwa [hmoves₁.ptrs])
    let σ₂ := winlinkStackPush σ₁ s (some c)
    have hsession :
        (winlinkClearFlags (σ₂.modify s fun x => { x with curw := some p }) wl.window).sessions s =
        { σ₂.sessions s with curw := some p } := Function.update_self _ _ _
    have hptrs : (σ₂.sessions s).ptrs = (σ.sessions s).ptrs := hmoves₂.ptrs.trans hmoves₁.ptrs
    rw [hderef, hcurw]
    refine ⟨winlinkClearFlags (σ₂.modify s fun x => { x with curw := some p }) wl.window, rfl,
      ⟨(hmoves₁.trans hmoves₂).trans ⟨by rw [hsession], by rw [hsession],
        fun t ht => Function.update_of_ne ht _ _, fun _ _ => rfl, rfl, rfl, rfl, rfl⟩,
        ⟨⟨?_, ?_, ?_, ?_, ?_⟩, ⟨p, ?_, ?_⟩⟩, fun _ => ?_⟩, by rw [hsession]⟩
    · rw [hsession]; exact hlinked₂.sorted
    · rw [hsession]; exact hlinked₂.range
    · rw [hsession]; exact hlinked₂.nodup
    · rw [hsession]; exact hlinked₂.fresh
    · rw [hsession]; exact hlinked₂.stacked
    · rw [hsession]
      change p ∈ (σ₂.sessions s).ptrs
      rwa [hptrs]
    · rw [hsession]
    · -- What is on the stack now is the old winlink and those that were there but the new one.
      intro q hq heq
      rw [hsession] at hq heq
      obtain rfl : p = q := Option.some.inj heq
      change p ∈ (σ₂.sessions s).lastw at hq
      rw [hlastw₂, hlastw₁] at hq
      rcases List.mem_cons.mp hq with hpc | hq
      · exact hsame (by rw [hcurw, hpc])
      · exact (h.stacked.nodup.mem_erase_iff.mp (List.mem_of_mem_erase hq)).1 rfl

/-! ### Walking -/

theorem sessionSetCurrent_moved (h : σ.Valid s) {p : Option Nat}
    (hp : ∀ q, p = some q → q ∈ (σ.sessions s).ptrs) :
    ∃ σ' r, sessionSetCurrent σ s p = .ok (σ', r) ∧ Moved s σ σ' := by
  cases p with
  | none => exact ⟨σ, -1, rfl, h.moved⟩
  | some q =>
      obtain ⟨σ', hset, hmoved, -⟩ := sessionSetCurrent_ok h (hp q rfl)
      exact ⟨σ', _, hset, hmoved⟩

theorem sessionAlert_mem {alert : Bool} {walk : List Winlink} {wl : Winlink}
    (h : sessionAlert σ alert walk = some wl) : wl ∈ walk := by
  rw [sessionAlert] at h
  split_ifs at h with halert
  · exact List.mem_of_find?_eq_some h
  · exact List.mem_of_mem_head? h

theorem following_subset (windows : List Winlink) (p : Nat) : following windows p ⊆ windows :=
  fun _ hwl => (List.dropWhile_suffix _).subset (List.mem_of_mem_tail hwl)

theorem preceding_subset (windows : List Winlink) (p : Nat) : preceding windows p ⊆ windows :=
  fun _ hwl => (List.takeWhile_prefix _).subset (List.mem_reverse.mp hwl)

theorem sessionStep_moved (h : σ.Valid s) (alert : Bool) {walk : Nat → List Winlink}
    {all : List Winlink} (hwalk : ∀ c, walk c ⊆ (σ.sessions s).windows)
    (hall : all ⊆ (σ.sessions s).windows) :
    ∃ σ' r, sessionStep σ s alert walk all = .ok (σ', r) ∧ Moved s σ σ' := by
  obtain ⟨c, hc, hcurw⟩ := h.current
  obtain ⟨wl, -, -, hderef⟩ := deref_of_mem hc
  rw [sessionStep, hcurw]
  simp only [hderef]
  refine sessionSetCurrent_moved h fun q hq => ?_
  obtain ⟨found, hfound, rfl⟩ := Option.map_eq_some_iff.mp hq
  apply List.mem_map_of_mem
  rcases Option.or_eq_some_iff.mp hfound with hfound | ⟨-, hfound⟩
  · exact hwalk c (sessionAlert_mem hfound)
  · exact hall (sessionAlert_mem hfound)

theorem sessionNext_moved (h : σ.Valid s) (alert : Bool) :
    ∃ σ' r, sessionNext σ s alert = .ok (σ', r) ∧ Moved s σ σ' :=
  sessionStep_moved h alert (following_subset _) fun _ h => h

theorem sessionPrevious_moved (h : σ.Valid s) (alert : Bool) :
    ∃ σ' r, sessionPrevious σ s alert = .ok (σ', r) ∧ Moved s σ σ' :=
  sessionStep_moved h alert (preceding_subset _) fun _ h => List.mem_reverse.mp h

theorem sessionSelect_moved (h : σ.Valid s) {idx : Int} (hidx : 0 ≤ idx) :
    ∃ σ' r, sessionSelect σ s idx = .ok (σ', r) ∧ Moved s σ σ' := by
  rw [sessionSelect, winlinkFindByIndex, if_neg (by omega)]
  refine sessionSetCurrent_moved h fun q hq => ?_
  obtain ⟨found, hfound, rfl⟩ := Option.map_eq_some_iff.mp hq
  exact List.mem_map_of_mem (List.mem_of_find?_eq_some hfound)

theorem sessionLast_moved (h : σ.Valid s) :
    ∃ σ' r, sessionLast σ s = .ok (σ', r) ∧ Moved s σ σ' := by
  rw [sessionLast]
  cases hlast : (σ.sessions s).lastw.head? with
  | none => exact ⟨σ, -1, rfl, h.moved⟩
  | some p =>
      dsimp only
      split_ifs with hsame
      · exact ⟨σ, 1, rfl, h.moved⟩
      · refine sessionSetCurrent_moved h fun q hq => ?_
        obtain rfl := Option.some.inj hq
        exact h.stacked.mem _ (List.mem_of_mem_head? hlast)

/-! ### Leaving the current winlink -/

/-- The winlink before one, the last one for the first. -/
def before (windows : List Winlink) (c : Nat) : Option Winlink :=
  (preceding windows c).head?.or windows.reverse.head?

/-- Where a session goes from its current winlink: the top of the stack, or else the winlink
before. -/
def replacement (x : Session) (c : Nat) : Option Nat :=
  match x.lastw.head? with
  | none => (before x.windows c).map (·.ptr)
  | some p => if p = c then (before x.windows c).map (·.ptr) else some p

theorem before_eq_self {windows : List Winlink} (hnodup : (windows.map (·.ptr)).Nodup) {c : Nat}
    {wl : Winlink} (h : before windows c = some wl) (hc : wl.ptr = c) : windows = [wl] := by
  have hmem : c ∈ windows.map (·.ptr) := by
    rcases Option.or_eq_some_iff.mp h with h | ⟨-, h⟩
    · exact List.mem_map.mpr ⟨wl, preceding_subset _ _ (List.mem_of_mem_head? h), hc⟩
    · exact List.mem_map.mpr ⟨wl, List.mem_reverse.mp (List.mem_of_mem_head? h), hc⟩
  rcases Option.or_eq_some_iff.mp h with h | ⟨hnone, h⟩
  · have htake := List.mem_takeWhile_imp (List.mem_reverse.mp (List.mem_of_mem_head? h))
    simp [hc] at htake
  · -- Nothing stands before the winlink, and it is the last.
    cases windows with
    | nil => simp at h
    | cons first rest =>
        have hfirst : first.ptr = c := by
          by_contra hne
          rw [preceding, List.takeWhile_cons_of_pos (by simpa using hne)] at hnone
          simp at hnone
        have hlast : wl ∈ first :: rest := List.mem_reverse.mp (List.mem_of_mem_head? h)
        rw [List.head?_reverse] at h
        cases rest with
        | nil => simpa using h
        | cons second rest =>
            rw [List.getLast?_cons_cons] at h
            have hrest := List.mem_map_of_mem (f := Winlink.ptr) (List.mem_of_getLast? h)
            rw [hc, ← hfirst] at hrest
            exact absurd hrest (List.nodup_cons.mp hnodup).1

theorem sessionPrevious_ok (h : σ.Valid s) {c : Nat} (hcurw : (σ.sessions s).curw = some c) :
    ∃ σ' wl, before (σ.sessions s).windows c = some wl ∧
      sessionPrevious σ s false = .ok (σ', if c = wl.ptr then 1 else 0) ∧ Moved s σ σ' ∧
      (σ'.sessions s).curw = some wl.ptr := by
  obtain ⟨c', hc, hcurw'⟩ := h.current
  obtain rfl : c = c' := Option.some.inj (hcurw.symm.trans hcurw')
  obtain ⟨cur, hcur, -, hderef⟩ := deref_of_mem hc
  obtain ⟨wl, hbefore⟩ : ∃ wl, before (σ.sessions s).windows c = some wl := by
    apply Option.isSome_iff_exists.mp
    rw [before, Option.isSome_or, Bool.or_eq_true]
    exact .inr (List.isSome_head?.mpr (List.reverse_ne_nil_iff.mpr (List.ne_nil_of_mem hcur)))
  have hmem : wl ∈ (σ.sessions s).windows := by
    rcases Option.or_eq_some_iff.mp hbefore with hwl | ⟨-, hwl⟩
    · exact preceding_subset _ _ (List.mem_of_mem_head? hwl)
    · exact List.mem_reverse.mp (List.mem_of_mem_head? hwl)
  obtain ⟨σ', hset, hmoved, hnew⟩ := sessionSetCurrent_ok h (List.mem_map_of_mem hmem)
  refine ⟨σ', wl, hbefore, ?_, hmoved, hnew⟩
  rw [sessionPrevious, sessionStep, hcurw]
  simp only [hderef, sessionAlert]
  rw [before] at hbefore
  simp only [Bool.false_eq_true, if_false, hbefore]
  rw [hcurw] at hset
  simpa [bind, Except.bind] using hset

/-- With one window there is nowhere to go. -/
theorem sessionNext_alone {wl : Winlink} (hwindows : (σ.sessions s).windows = [wl])
    (hcurw : (σ.sessions s).curw = some wl.ptr) : sessionNext σ s false = .ok (σ, 1) := by
  simp [sessionNext, sessionStep, sessionAlert, sessionSetCurrent, following, deref, hwindows,
    hcurw, bind, Except.bind, pure, Except.pure]

theorem leaveBack_ok (h : σ.Valid s) {c : Nat} (hcurw : (σ.sessions s).curw = some c) :
    ∃ σ' wl, before (σ.sessions s).windows c = some wl ∧ (do
        let previous ← sessionPrevious σ s false
        if previous.2 = 0 then pure previous.1 else pure (← sessionNext previous.1 s false).1) =
          Except.ok σ' ∧ Moved s σ σ' ∧ (σ'.sessions s).curw = some wl.ptr := by
  obtain ⟨σ', wl, hbefore, hprevious, hmoved, hnew⟩ := sessionPrevious_ok h hcurw
  refine ⟨σ', wl, hbefore, ?_, hmoved, hnew⟩
  rw [hprevious]
  split_ifs with hsame
  · have hwindows := before_eq_self h.nodup hbefore hsame.symm
    have hnext : sessionNext σ' s false = .ok (σ', 1) :=
      sessionNext_alone (by rw [hmoved.windows, hwindows]) hnew
    simp [bind, Except.bind, hnext, pure, Except.pure]
  · simp [bind, Except.bind, pure, Except.pure]

theorem leaveCurrent_ok (h : σ.Valid s) {c : Nat} (hcurw : (σ.sessions s).curw = some c) :
    ∃ σ' p, replacement (σ.sessions s) c = some p ∧ leaveCurrent σ s = .ok σ' ∧ Moved s σ σ' ∧
      (σ'.sessions s).curw = some p := by
  obtain ⟨σ₁, wl, hbefore, hback, hmoved, hnew⟩ := leaveBack_ok h hcurw
  rw [leaveCurrent, sessionLast, replacement]
  cases hlast : (σ.sessions s).lastw.head? with
  | none => exact ⟨σ₁, wl.ptr, by rw [hbefore]; rfl, hback, hmoved, hnew⟩
  | some p =>
      have hp := h.stacked.mem p (List.mem_of_mem_head? hlast)
      obtain ⟨σ₂, hset, hmoved₂, hnew₂⟩ := sessionSetCurrent_ok h hp
      simp only [hcurw, Option.some.injEq, eq_comm (a := p)] at hset ⊢
      split_ifs at hset ⊢ with hsame
      · exact ⟨σ₁, wl.ptr, by rw [hbefore]; rfl, hback, hmoved, hnew⟩
      · exact ⟨σ₂, p, rfl, by rw [hset]; rfl, hmoved₂, hnew₂⟩

/-- A session with two windows does leave its current one. -/
theorem replacement_ne (h : σ.Valid s) {c : Nat} (hlength : 2 ≤ (σ.sessions s).windows.length) :
    replacement (σ.sessions s) c ≠ some c := by
  intro heq
  have hback : (before (σ.sessions s).windows c).map (·.ptr) ≠ some c := by
    intro hbefore
    obtain ⟨wl, hbefore, hc⟩ := Option.map_eq_some_iff.mp hbefore
    have hwindows := before_eq_self h.nodup hbefore hc
    rw [hwindows] at hlength
    simp at hlength
  rw [replacement] at heq
  cases hlast : (σ.sessions s).lastw.head? with
  | none => exact hback (by simpa [hlast] using heq)
  | some p =>
      simp only [hlast] at heq
      split_ifs at heq with hp
      · exact hback heq
      · exact hp (Option.some.inj heq)

end Ztmux.Sessions
