import Ztmux.EventLoop.Kept

/-!
The loop delivers what is due and nothing else: every callback runs for an activation made
under the registration its event has, a registration that is not persistent delivers once, and
one that is stays until it is deleted.
-/

namespace Ztmux.EventLoop

variable {κ : Type}

/-- The calls of the program, a wait of the loop and a turn of its dispatch, in any order: a
callback's own calls are the steps after its dispatch. `P` says which events may be configured.
The program's events are not the loop's, and a wait comes when nothing is due. -/
inductive Step (P : Base κ → Nat → Prop) (s : Recorded κ) : Recorded κ → Prop
  | set {ev : Nat} (fd : Int) (events : EventBits) (callback : Option κ) (arg : Nat)
      (hown : s.onces ev = none) (hset : P s.toBase ev) :
      Step P s (s.setEvent ev fd events (callback.map .user) arg)
  | add {ev : Nat} (timeout : Option Timeval) (now : Nat) (hown : s.onces ev = none) :
      Step P s (s.addEvent ev timeout now)
  | del {ev : Nat} (hown : s.onces ev = none) : Step P s (s.delEvent ev)
  | active {ev : Nat} (res : EventBits) (hown : s.onces ev = none) :
      Step P s (s.activateEvent ev res)
  | once {ev : Nat} (fd : Int) (events : EventBits) (callback : Option κ) (arg : Nat)
      (tv : Option Timeval) (now : Nat) (hfree : Free s.toBase ev) :
      Step P s (s.onceEvent ev fd events callback arg tv now)
  | reuse {ev : Nat} (hfree : Free s.toBase ev) :
      Step P s (s.next (s.write ev fun _ => zeroed κ) [])
  | wait (report : Report) {order : List Nat} (hdue : s.active = [])
      (horder : Keys s.toBase order) : Step P s (s.wait report order)
  | dispatch : Step P s s.dispatch

/-- What is configured is registered, or has nothing queued. -/
def Settled (s : Base κ) (ev : Nat) : Prop := s.isPending ev ∨ s.queued ev = []

inductive Run (P : Base κ → Nat → Prop) : Recorded κ → Prop
  | init : Run P ⟨eventInit κ, []⟩
  | step {s s'} (h : Run P s) (hstep : Step P s s') : Run P s'

variable {s s' : Recorded κ}

theorem Kept.step (h : Kept s) (hstep : Step Settled s s') : Kept s' := by
  cases hstep with
  | set fd events callback arg hown hset => exact h.setEvent hset fd events _ arg
  | add timeout now hown => exact h.addEvent _ timeout now
  | del hown => exact h.delEvent _
  | active res hown => exact h.activateEvent _ res
  | once fd events callback arg tv now hfree =>
      exact h.onceEvent hfree fd events callback arg tv now
  | reuse hfree => exact h.zeroed hfree.pending
  | wait report hdue horder => exact h.wait report hdue horder
  | dispatch => exact h.dispatch

theorem Run.kept (h : Run Settled s) : Kept s := by
  induction h with
  | init => exact kept_eventInit
  | step _ hstep ih => exact ih.step hstep

/-! ## The log, read back -/

/-- A call comes after its activation, with nothing between the two that ends the registration. -/
theorem CallsCurrent.activated {later earlier : List (Note κ)} {a : Active} {call : Call κ}
    {pending : Bool} (h : CallsCurrent (later ++ .called a call pending :: earlier)) :
    ∃ between before, earlier = between ++ .activated a :: before ∧
      ∀ n ∈ between, n.changes a.ev = false ∧ n.calls a = false := by
  induction later with
  | nil =>
    obtain ⟨l₁, l₂, hsplit⟩ := List.append_of_mem (h.1 a call pending rfl)
    have hwhole := List.takeWhile_append_dropWhile
      (p := fun n : Note κ => !(n.changes a.ev || n.calls a)) (l := earlier)
    rw [hsplit, List.append_assoc, List.cons_append] at hwhole
    refine ⟨l₁, _, hwhole.symm, fun n hn => ?_⟩
    have hkeep := List.mem_takeWhile_imp (hsplit ▸ List.mem_append_left _ hn)
    rwa [Bool.not_eq_true', Bool.or_eq_false_iff] at hkeep
  | cons n later ih => exact ih h.2

theorem find?_changes {later earlier : List (Note κ)} {ev : Nat} {n : Note κ}
    (hn : n.changes ev) (h : ∀ m ∈ later, m.changes ev = false) :
    (later ++ n :: earlier).find? (Note.changes ev) = some n := by
  rw [List.find?_append,
    List.find?_eq_none.mpr fun m hm => by rw [h m hm]; exact Bool.false_ne_true,
    Option.none_or, List.find?_cons_of_pos hn]

theorem sinceAdded_eq {later : List (Note κ)} (earlier : List (Note κ)) {ev : Nat} (persist : Bool)
    (h : ∀ m ∈ later, m.adds ev = false) :
    sinceAdded ev (later ++ .added ev persist :: earlier) = later ∧
      (later ++ .added ev persist :: earlier).find? (Note.adds ev) = some (.added ev persist) := by
  have hadds : (Note.added ev persist : Note κ).adds ev = true := beq_self_eq_true ev
  constructor
  · rw [sinceAdded, List.takeWhile_append_of_pos fun m hm => by rw [h m hm]; rfl,
      List.takeWhile_cons_of_neg (by rw [hadds]; exact Bool.false_ne_true), List.append_nil]
  · rw [List.find?_append,
      List.find?_eq_none.mpr fun m hm => by rw [h m hm]; exact Bool.false_ne_true,
      Option.none_or, List.find?_cons_of_pos hadds]

/-- What was deleted or configured afresh runs no callback until it is added or activated
again. -/
theorem quiet_until {between earlier : List (Note κ)} {a : Active} {n : Note κ}
    (hn : n.changes a.ev) {l₁ l₂ : List (Note κ)}
    (hsplit : between ++ n :: earlier = l₁ ++ .activated a :: l₂)
    (h : ∀ m ∈ l₁, m.changes a.ev = false) : .activated a ∈ between := by
  have hne : Note.activated a ≠ n := by
    rintro rfl
    cases hn
  rcases List.append_eq_append_iff.mp hsplit with ⟨t, rfl, heq⟩ | ⟨t, rfl, heq⟩
  · cases t with
    | nil => exact absurd (List.cons.inj heq).1.symm hne
    | cons m t =>
      obtain ⟨rfl, -⟩ := List.cons.inj heq
      rw [h n (List.mem_append_right _ List.mem_cons_self)] at hn
      cases hn
  · cases t with
    | nil => exact absurd (List.cons.inj heq).1 hne
    | cons m t =>
      obtain ⟨rfl, -⟩ := List.cons.inj heq
      exact List.mem_append_right _ List.mem_cons_self

/-- In a run that configures only what is registered or has nothing queued. -/
theorem event_loop_run {s : Recorded κ} (h : Run Settled s) :
    (∀ ev, s.isPending ev = (s.pending ev).isSome) ∧
      (∀ (later earlier : List (Note κ)) (a : Active) (call : Call κ) (pending : Bool),
        s.log = later ++ Note.called a call pending :: earlier →
          ∃ between before : List (Note κ), earlier = between ++ Note.activated a :: before ∧
            ∀ n ∈ between, n.changes a.ev = false ∧ n.calls a = false) ∧
      (∀ (later between earlier : List (Note κ)) (a : Active) (call : Call κ) (pending : Bool)
        (n : Note κ), s.log = later ++ Note.called a call pending :: (between ++ n :: earlier) →
          n = Note.deleted a.ev ∨ n = Note.initialised a.ev → Note.activated a ∈ between) ∧
      (∀ (later earlier : List (Note κ)) (ev : Nat), s.log = later ++ Note.added ev false ::
        earlier →
        (∀ n ∈ later, n.adds ev = false) → later.countP (Note.reports ev) ≤ 1 ∧
          ∀ (a : Active) (call : Call κ) (pending : Bool), Note.called a call pending ∈ later →
            a.ev = ev → a.reported → pending = false) ∧
      ∀ (later earlier : List (Note κ)) (ev : Nat), s.log = later ++ Note.added ev true :: earlier →
        (∀ n ∈ later, n.changes ev = false) → (s.pending ev).isSome := by
  have hkept := h.kept
  refine ⟨fun ev => (hkept.event ev).flag, ?_, ?_, ?_, ?_⟩
  · intro later earlier a call pending hlog
    exact CallsCurrent.activated (hlog ▸ hkept.calls)
  · intro later between earlier a call pending n hlog hn
    obtain ⟨l₁, l₂, hsplit, hkeep⟩ := CallsCurrent.activated (hlog ▸ hkept.calls)
    have hchanges : n.changes a.ev := by
      rcases hn with rfl | rfl
      · exact beq_self_eq_true _
      · exact beq_self_eq_true _
    exact quiet_until hchanges hsplit fun m hm => (hkeep m hm).1
  · intro later earlier ev hlog hlater
    obtain ⟨hsince, hlast⟩ := sinceAdded_eq earlier false hlater
    rw [← hlog] at hsince hlast
    have hsingle := (hkept.event ev).single hlast
    rw [deliveries, hsince] at hsingle
    refine ⟨by omega, fun a call pending hmem => ?_⟩
    exact (hkept.event ev).gone hlast a call pending (hsince ▸ hmem)
  · intro later earlier ev hlog hlater
    refine (hkept.event ev).stays ?_
    rw [hlog]
    exact find?_changes (beq_self_eq_true ev) hlater

/-- A timer that is activated by hand. -/
def activatedTimer (registered : Bool) : Recorded Nat :=
  let s := Recorded.setEvent ⟨eventInit Nat, []⟩ 1 (-1) 0 (some (.user 10)) 0
  (if registered then s.addEvent 1 none 0 else s).activateEvent 1 evTimeout

theorem activatedTimer_run (registered : Bool) : Run Settled (activatedTimer registered) := by
  have hset : Run Settled (.setEvent ⟨eventInit Nat, []⟩ 1 (-1) 0 (some (.user 10)) 0) :=
    .step .init (.set (-1) 0 (some 10) 0 rfl (Or.inr rfl))
  cases registered with
  | false => exact .step hset (.active evTimeout rfl)
  | true => exact .step (.step hset (.add none 0 rfl)) (.active evTimeout rfl)

def timerActivation (generation : UInt64) : Active := ⟨1, generation, evTimeout, 0, false⟩

theorem event_loop_run_timer :
    ∃ s : Recorded Nat, Run Settled s ∧ ∃ earlier call pending,
      s.log = .called (timerActivation 1) call pending :: earlier ∧
        ∃ between before, earlier = between ++ .activated (timerActivation 1) :: before ∧
          ∀ n ∈ between, n.changes 1 = false ∧ n.calls (timerActivation 1) = false := by
  have hrun : Run Settled (activatedTimer true).dispatch :=
    .step (activatedTimer_run true) .dispatch
  have hlog : (activatedTimer true).dispatch.log =
      .called (timerActivation 1) ⟨10, -1, evTimeout, 0⟩ true :: (activatedTimer true).log := by
    decide +kernel
  exact ⟨_, hrun, _, _, _, hlog, (event_loop_run hrun).2.1 [] _ _ _ _ hlog⟩

/-- The timer is configured afresh while its activation is queued, and the callback it is given
then runs although it was never added or activated. -/
theorem stale_activation_runs :
    ∃ s : Recorded Nat, Run (fun _ _ => True) s ∧ ∃ earlier call pending,
      s.log = .called (timerActivation 0) call pending :: .initialised 1 :: earlier ∧
        call.callback = 20 := by
  have hset : Run (fun _ _ => True)
      (.setEvent ⟨eventInit Nat, []⟩ 1 (-1) 0 (some (.user 10)) 0) :=
    .step .init (.set (-1) 0 (some 10) 0 rfl trivial)
  have hactive : Run (fun _ _ => True) (activatedTimer false) := .step hset (.active evTimeout rfl)
  have hagain : Run (fun _ _ => True)
      ((activatedTimer false).setEvent 1 (-1) 0 (some (.user 20)) 0) :=
    .step hactive (.set (-1) 0 (some 20) 0 rfl trivial)
  have hlog : ((activatedTimer false).setEvent 1 (-1) 0 (some (.user 20)) 0).dispatch.log =
      .called (timerActivation 0) ⟨20, -1, evTimeout, 0⟩ false :: .initialised 1 ::
        (activatedTimer false).log := by decide +kernel
  exact ⟨_, .step hagain .dispatch, _, _, _, hlog, rfl⟩

end Ztmux.EventLoop
