import Ztmux.EventLoop.Base

/-!
What holds of an event at every step of the loop: its flag says whether the base has it, and
what is queued for it was activated under the registration it has.

What has happened is written down beside the base, from the calls that a run makes on it.
-/

namespace Ztmux.EventLoop

/-- What has happened to an event. A call says whether the event was pending when it ran. -/
inductive Note (κ : Type)
  | initialised (ev : Nat)
  | added (ev : Nat) (persist : Bool)
  | deleted (ev : Nat)
  | activated (a : Active)
  | called (a : Active) (call : Call κ) (pending : Bool)
  deriving DecidableEq

/-- A base, and what has happened to it, newest first. -/
structure Recorded (κ : Type) extends Base κ where
  log : List (Note κ)

variable {κ : Type}

namespace Recorded

/-- A step that leaves `base` behind, and what is written of it. -/
def next (s : Recorded κ) (base : Base κ) (notes : List (Note κ)) : Recorded κ :=
  ⟨base, notes ++ s.log⟩

def setEvent (s : Recorded κ) (ev : Nat) (fd : Int) (events : EventBits)
    (callback : Option (Handler κ)) (arg : Nat) : Recorded κ :=
  s.next (eventSet s.toBase ev fd events callback arg)
    (.initialised ev :: if s.isPending ev then [.deleted ev] else [])

def addEvent (s : Recorded κ) (ev : Nat) (timeout : Option Timeval) (now : Nat) : Recorded κ :=
  s.next (eventAdd s.toBase ev timeout now) [.added ev ((s.events ev).events.has evPersist)]

def delEvent (s : Recorded κ) (ev : Nat) : Recorded κ :=
  s.next (eventDel s.toBase ev) [.deleted ev]

def activateEvent (s : Recorded κ) (ev : Nat) (res : EventBits) : Recorded κ :=
  s.next (eventActive s.toBase ev res)
    [.activated ⟨ev, (s.events ev).gen, res, s.activations, false⟩]

/-- What the memory at `ev` held before is none of the new event's. -/
def onceEvent (s : Recorded κ) (ev : Nat) (fd : Int) (events : EventBits) (callback : Option κ)
    (arg : Nat) (tv : Option Timeval) (now : Nat) : Recorded κ :=
  s.next (eventOnce s.toBase ev fd events callback arg tv now)
    ((if events &&& (evRead ||| evWrite ||| evSignal) = 0 ∧ tv.all isZero then
        [.activated ⟨ev, s.nextGen, evTimeout, s.activations, false⟩] else []) ++
      [.added ev false, .initialised ev])

/-- A wait comes when nothing is due, and queues what it activates. -/
def wait (s : Recorded κ) (report : Report) (order : List Nat) : Recorded κ :=
  s.next (activateReady s.toBase report order)
    ((activateReady s.toBase report order).active.reverse.map .activated)

/-- The callback that is run is that of the entry which was the first. -/
def dispatch (s : Recorded κ) : Recorded κ :=
  s.next (dispatchOne s.toBase).base
    (((dispatchOne s.toBase).freed.map .deleted).toList ++
      (s.active.head?.bind fun a => (dispatchOne s.toBase).call.map fun call =>
        .called a call (s.isPending a.ev)).toList)

end Recorded

variable {s s' : Recorded κ} {ev : Nat}

namespace Note

/-- The registration of `ev` ends, or another one begins. -/
def changes (ev : Nat) : Note κ → Bool
  | initialised e => e == ev
  | added e _ => e == ev
  | deleted e => e == ev
  | activated _ => false
  | called _ _ _ => false

def adds (ev : Nat) : Note κ → Bool
  | added e _ => e == ev
  | initialised _ => false
  | deleted _ => false
  | activated _ => false
  | called _ _ _ => false

/-- A callback of `ev` runs because a wait has found it ready. -/
def reports (ev : Nat) : Note κ → Bool
  | called a _ _ => a.ev == ev && a.reported
  | initialised _ => false
  | added _ _ => false
  | deleted _ => false
  | activated _ => false

def calls (a : Active) : Note κ → Bool
  | called a' _ _ => a' == a
  | initialised _ => false
  | added _ _ => false
  | deleted _ => false
  | activated _ => false

/-- The event the note is about. -/
def subject : Note κ → Nat
  | initialised e => e
  | added e _ => e
  | deleted e => e
  | activated a => a.ev
  | called a _ _ => a.ev

end Note

/-- `a` was activated under the registration its event has, and its callback has not run. -/
def Current (log : List (Note κ)) (a : Active) : Prop :=
  Note.activated a ∈ log.takeWhile fun n => !(n.changes a.ev || n.calls a)

/-- What has happened since `ev` was last added. -/
def sinceAdded (ev : Nat) (log : List (Note κ)) : List (Note κ) :=
  log.takeWhile fun n => !n.adds ev

/-- What is queued for `ev`. -/
def Base.queued (s : Base κ) (ev : Nat) : List Active := s.active.filter fun a => a.ev == ev

/-- How many callbacks a registration that is not persistent has had or can still have. -/
def deliveries (s : Recorded κ) (ev : Nat) : Nat :=
  (sinceAdded ev s.log).countP (Note.reports ev) + (s.queued ev).countP Active.reported +
    if s.isPending ev then 1 else 0

/-- The event at `ev`, in a base that keeps its books. -/
structure KeptAt (s : Recorded κ) (ev : Nat) : Prop where
  flag : s.isPending ev = (s.pending ev).isSome
  registered : ∀ p, s.pending ev = some p →
    s.log.find? (Note.changes ev) = some (.added ev (p.events.has evPersist))
  stays : s.log.find? (Note.changes ev) = some (.added ev true) → (s.pending ev).isSome
  single : s.log.find? (Note.adds ev) = some (.added ev false) → deliveries s ev ≤ 1
  gone : s.log.find? (Note.adds ev) = some (.added ev false) →
    ∀ a call pending, .called a call pending ∈ sinceAdded ev s.log → a.ev = ev → a.reported →
      pending = false
  current : ∀ a ∈ s.queued ev, Current s.log a

/-- Every callback that ran was due under the registration its event had. -/
def CallsCurrent : List (Note κ) → Prop
  | [] => True
  | n :: log => (∀ a call pending, n = .called a call pending → Current log a) ∧ CallsCurrent log

structure Kept (s : Recorded κ) : Prop where
  event : ∀ ev, KeptAt s ev
  calls : CallsCurrent s.log
  once : s.active.Nodup
  fresh : ∀ a ∈ s.active, a.id < s.activations

theorem kept_eventInit : Kept ⟨eventInit κ, []⟩ where
  event ev := by
    refine ⟨?_, ?_, ?_, ?_, ?_, ?_⟩
    · exact (by decide : (0 : EventBits).has evlistPending = false)
    · intro p hp
      cases hp
    · intro h
      cases h
    · intro h
      cases h
    · intro h
      cases h
    · intro a ha
      cases ha
  calls := trivial
  once := .nil
  fresh _ ha := absurd ha List.not_mem_nil

/-! ## Bits -/

theorem EventBits.has_evlistPending (flags : EventBits) :
    flags.has evlistPending = flags.getLsbD 0 := by
  have hbit : evlistPending = BitVec.twoPow 16 0 := by decide
  rw [has, hbit, BitVec.and_twoPow]
  cases flags.getLsbD 0 <;> decide

theorem has_set (flags : EventBits) : (flags ||| evlistPending).has evlistPending = true := by
  rw [EventBits.has_evlistPending, BitVec.getLsbD_or]
  simp [evlistPending]

theorem has_cleared (flags : EventBits) :
    (flags &&& ~~~evlistPending).has evlistPending = false := by
  rw [EventBits.has_evlistPending, BitVec.getLsbD_and]
  simp [evlistPending]

/-! ## What is left alone -/

namespace Note

variable {n : Note κ}

theorem changes_of_ne (h : n.subject ≠ ev) : n.changes ev = false := by
  cases n with
  | initialised e => exact beq_false_of_ne h
  | added e persist => exact beq_false_of_ne h
  | deleted e => exact beq_false_of_ne h
  | activated a => rfl
  | called a call pending => rfl

theorem adds_of_ne (h : n.subject ≠ ev) : n.adds ev = false := by
  cases n with
  | initialised e => rfl
  | added e persist => exact beq_false_of_ne h
  | deleted e => rfl
  | activated a => rfl
  | called a call pending => rfl

theorem reports_of_ne (h : n.subject ≠ ev) : n.reports ev = false := by
  cases n with
  | initialised e => rfl
  | added e persist => rfl
  | deleted e => rfl
  | activated a => rfl
  | called a call pending =>
    rw [reports, show (a.ev == ev) = false from beq_false_of_ne h, Bool.false_and]

theorem calls_of_ne {a : Active} (h : n.subject ≠ a.ev) : n.calls a = false := by
  cases n with
  | initialised e => rfl
  | added e persist => rfl
  | deleted e => rfl
  | activated a => rfl
  | called a' call pending => exact beq_false_of_ne fun heq => h (congrArg Active.ev heq)

theorem changes_of_adds (h : n.adds ev) : n.changes ev := by
  cases n with
  | added e persist => exact h
  | initialised e => cases h
  | deleted e => cases h
  | activated a => cases h
  | called a call pending => cases h

end Note

theorem Current.cons {log : List (Note κ)} {a : Active} {n : Note κ} (h : Current log a)
    (hchanges : n.changes a.ev = false) (hcalls : n.calls a = false) : Current (n :: log) a := by
  rw [Current, List.takeWhile_cons_of_pos (by rw [hchanges, hcalls]; rfl)]
  exact List.mem_cons_of_mem _ h

theorem find?_cons_of_false {n : Note κ} {p : Note κ → Bool} {log : List (Note κ)}
    (h : p n = false) : (n :: log).find? p = log.find? p := by
  rw [List.find?_cons, h]

theorem sinceAdded_cons {n : Note κ} {log : List (Note κ)} (h : n.adds ev = false) :
    sinceAdded ev (n :: log) = n :: sinceAdded ev log := by
  rw [sinceAdded, List.takeWhile_cons_of_pos (by rw [h]; rfl)]
  rfl

/-- Only these parts of the base are about one event. -/
theorem KeptAt.congr (h : KeptAt s ev) (hpending : s'.pending ev = s.pending ev)
    (hflag : s'.isPending ev = s.isPending ev) (hqueued : s'.queued ev = s.queued ev)
    (hlog : s'.log = s.log) : KeptAt s' ev := by
  refine ⟨?_, ?_, ?_, ?_, ?_, ?_⟩
  · rw [hflag, hpending]
    exact h.flag
  · rw [hpending, hlog]
    exact h.registered
  · rw [hpending, hlog]
    exact h.stays
  · rw [deliveries, hlog, hflag, hqueued]
    exact h.single
  · rw [hlog]
    exact h.gone
  · rw [hqueued, hlog]
    exact h.current

/-- What is written about another event, and done to it, leaves this one as it is. -/
theorem KeptAt.frame (h : KeptAt s ev) (hpending : s'.pending ev = s.pending ev)
    (hflag : s'.isPending ev = s.isPending ev) (hqueued : s'.queued ev = s.queued ev)
    {n : Note κ} (hlog : s'.log = n :: s.log) (hn : n.subject ≠ ev) : KeptAt s' ev := by
  have hsince : sinceAdded ev s'.log = n :: sinceAdded ev s.log := by
    rw [hlog, sinceAdded_cons (Note.adds_of_ne hn)]
  have hchanges : s'.log.find? (Note.changes ev) = s.log.find? (Note.changes ev) := by
    rw [hlog, find?_cons_of_false (Note.changes_of_ne hn)]
  have hadds : s'.log.find? (Note.adds ev) = s.log.find? (Note.adds ev) := by
    rw [hlog, find?_cons_of_false (Note.adds_of_ne hn)]
  refine ⟨?_, ?_, ?_, ?_, ?_, ?_⟩
  · rw [hflag, hpending]
    exact h.flag
  · rw [hpending, hchanges]
    exact h.registered
  · rw [hpending, hchanges]
    exact h.stays
  · intro hlast
    rw [hadds] at hlast
    have hle := h.single hlast
    rw [deliveries] at hle ⊢
    rwa [hsince, hflag, hqueued, List.countP_cons_of_neg (by rw [Note.reports_of_ne hn]; decide)]
  · intro hlast a call pending hmem hev
    rw [hadds] at hlast
    rw [hsince] at hmem
    rcases List.mem_cons.mp hmem with rfl | hmem
    · exact absurd hev hn
    · exact h.gone hlast a call pending hmem hev
  · intro a ha
    rw [hqueued] at ha
    obtain rfl : a.ev = ev := beq_iff_eq.mp (List.mem_filter.mp ha).2
    rw [hlog]
    exact (h.current a ha).cons (Note.changes_of_ne hn) (Note.calls_of_ne hn)

/-- An event that nothing is registered or queued for, once its registration has ended. -/
theorem KeptAt.idle (h : KeptAt s ev) (hpending : s'.pending ev = none)
    (hflag : s'.isPending ev = false) (hqueued : s'.queued ev = []) {n : Note κ}
    (hlog : s'.log = n :: s.log) (hn : n = .deleted ev ∨ n = .initialised ev) : KeptAt s' ev := by
  have hadds : n.adds ev = false := by
    rcases hn with rfl | rfl
    · rfl
    · rfl
  have hreports : n.reports ev = false := by
    rcases hn with rfl | rfl
    · rfl
    · rfl
  have hchanges : s'.log.find? (Note.changes ev) = some n := by
    rw [hlog, List.find?_cons]
    rcases hn with rfl | rfl
    · rw [Note.changes, beq_self_eq_true]
    · rw [Note.changes, beq_self_eq_true]
  have hsince : sinceAdded ev s'.log = n :: sinceAdded ev s.log := by
    rw [hlog, sinceAdded_cons hadds]
  refine ⟨?_, ?_, ?_, ?_, ?_, ?_⟩
  · rw [hflag, hpending]
    rfl
  · intro p hp
    rw [hpending] at hp
    cases hp
  · intro hlast
    rw [hchanges] at hlast
    rcases hn with rfl | rfl
    · cases hlast
    · cases hlast
  · intro hlast
    rw [hlog, find?_cons_of_false hadds] at hlast
    have hle := h.single hlast
    rw [deliveries] at hle ⊢
    rw [hsince, hflag, hqueued, List.countP_cons_of_neg (by rw [hreports]; decide)]
    exact le_trans (by simp [Nat.add_assoc]) hle
  · intro hlast a call pending hmem hev
    rw [hlog, find?_cons_of_false hadds] at hlast
    rw [hsince] at hmem
    rcases List.mem_cons.mp hmem with rfl | hmem
    · rcases hn with hn | hn
      · cases hn
      · cases hn
    · exact h.gone hlast a call pending hmem hev
  · intro a ha
    rw [hqueued] at ha
    cases ha

/-- An event that has just been added, with nothing queued for it. -/
theorem KeptAt.added (s : Recorded κ) {p : Pending} {log : List (Note κ)}
    (hpending : s.pending ev = some p) (hflag : s.isPending ev = true) (hqueued : s.queued ev = [])
    (hlog : s.log = .added ev (p.events.has evPersist) :: log) : KeptAt s ev := by
  have hsince : sinceAdded ev s.log = [] := by
    rw [hlog, sinceAdded, List.takeWhile_cons_of_neg]
    rw [Note.adds, beq_self_eq_true]
    decide
  have hchanges : s.log.find? (Note.changes ev) = some (.added ev (p.events.has evPersist)) := by
    rw [hlog, List.find?_cons_of_pos]
    exact beq_self_eq_true _
  refine ⟨?_, ?_, ?_, ?_, ?_, ?_⟩
  · rw [hflag, hpending]
    rfl
  · intro q hq
    rw [hpending] at hq
    obtain rfl := Option.some.inj hq
    exact hchanges
  · intro _
    rw [hpending]
    rfl
  · intro _
    rw [deliveries, hsince, hqueued, hflag]
    exact le_rfl
  · intro _ a call pending hmem
    rw [hsince] at hmem
    cases hmem
  · intro a ha
    rw [hqueued] at ha
    cases ha

theorem Current.activated (log : List (Note κ)) (a : Active) : Current (.activated a :: log) a := by
  rw [Current, List.takeWhile_cons_of_pos (by rfl)]
  exact List.mem_cons_self

/-- An activation behind those queued for the event: a registration that is not persistent pays
for it with itself where a wait has made it. -/
theorem KeptAt.queue (h : KeptAt s ev) {a : Active}
    (hflag : s'.isPending ev = (s'.pending ev).isSome)
    (hregistered : ∀ p', s'.pending ev = some p' → ∃ p, s.pending ev = some p ∧
      p.events = p'.events)
    (hstays : s.log.find? (Note.changes ev) = some (.added ev true) → (s'.pending ev).isSome)
    (hpaid : s.log.find? (Note.adds ev) = some (.added ev false) →
      (if a.reported then 1 else 0) + (if s'.isPending ev then 1 else 0) ≤
        if s.isPending ev then 1 else 0)
    (hqueued : s'.queued ev = s.queued ev ++ [a]) (hlog : s'.log = .activated a :: s.log) :
    KeptAt s' ev := by
  have hsince : sinceAdded ev s'.log = .activated a :: sinceAdded ev s.log := by
    rw [hlog, sinceAdded_cons rfl]
  have hchanges : s'.log.find? (Note.changes ev) = s.log.find? (Note.changes ev) := by
    rw [hlog, find?_cons_of_false rfl]
  have hadds : s'.log.find? (Note.adds ev) = s.log.find? (Note.adds ev) := by
    rw [hlog, find?_cons_of_false rfl]
  refine ⟨hflag, ?_, ?_, ?_, ?_, ?_⟩
  · intro p' hp'
    obtain ⟨p, hp, hevents⟩ := hregistered p' hp'
    rw [hchanges, ← hevents]
    exact h.registered p hp
  · rw [hchanges]
    exact hstays
  · intro hlast
    rw [hadds] at hlast
    have hle := h.single hlast
    have hpaid := hpaid hlast
    rw [deliveries] at hle ⊢
    rw [hsince, hqueued, List.countP_cons_of_neg Bool.false_ne_true, List.countP_append,
      List.countP_singleton]
    omega
  · intro hlast b call pending hmem
    rw [hadds] at hlast
    rw [hsince] at hmem
    rcases List.mem_cons.mp hmem with hmem | hmem
    · cases hmem
    · exact h.gone hlast b call pending hmem
  · intro b hb
    rw [hqueued] at hb
    rw [hlog]
    rcases List.mem_append.mp hb with hb | hb
    · exact (h.current b hb).cons rfl rfl
    · rw [List.mem_singleton.mp hb]
      exact .activated s.log a

/-- The first activation queued for the event is taken off, and its callback may run. -/
theorem KeptAt.taken (h : KeptAt s ev) {a : Active} (hqueued : s.queued ev = a :: s'.queued ev)
    (hpending : s'.pending ev = s.pending ev) (hflag : s'.isPending ev = s.isPending ev)
    (hfirst : a ∉ s'.queued ev)
    (hlog : s'.log = s.log ∨ ∃ call, s'.log = .called a call (s.isPending ev) :: s.log) :
    KeptAt s' ev := by
  have hev : a.ev = ev := by
    have hmem : a ∈ s.queued ev := hqueued ▸ List.mem_cons_self
    exact beq_iff_eq.mp (List.mem_filter.mp hmem).2
  have hchanges : s'.log.find? (Note.changes ev) = s.log.find? (Note.changes ev) := by
    rcases hlog with hlog | ⟨call, hlog⟩
    · rw [hlog]
    · rw [hlog, find?_cons_of_false rfl]
  have hadds : s'.log.find? (Note.adds ev) = s.log.find? (Note.adds ev) := by
    rcases hlog with hlog | ⟨call, hlog⟩
    · rw [hlog]
    · rw [hlog, find?_cons_of_false rfl]
  refine ⟨?_, ?_, ?_, ?_, ?_, ?_⟩
  · rw [hflag, hpending]
    exact h.flag
  · rw [hpending, hchanges]
    exact h.registered
  · rw [hpending, hchanges]
    exact h.stays
  · intro hlast
    rw [hadds] at hlast
    have hle := h.single hlast
    rw [deliveries, hqueued, List.countP_cons] at hle
    rw [deliveries, hflag]
    rcases hlog with hlog | ⟨call, hlog⟩
    · rw [hlog]
      omega
    · rw [hlog, sinceAdded_cons rfl, List.countP_cons, Note.reports, hev, beq_self_eq_true,
        Bool.true_and]
      omega
  · intro hlast b call pending hmem hbev hreported
    rw [hadds] at hlast
    have hle := h.single hlast
    rcases hlog with hlog | ⟨call', hlog⟩
    · rw [hlog] at hmem
      exact h.gone hlast b call pending hmem hbev hreported
    · rw [hlog, sinceAdded_cons rfl] at hmem
      rcases List.mem_cons.mp hmem with heq | hmem
      -- the callback runs now: its registration has gone with the activation
      · obtain ⟨rfl, -, rfl⟩ := Note.called.inj heq
        rw [deliveries, hqueued, List.countP_cons, if_pos hreported] at hle
        by_contra hpend
        rw [Bool.not_eq_false] at hpend
        rw [if_pos hpend] at hle
        omega
      · exact h.gone hlast b call pending hmem hbev hreported
  · intro b hb
    have hbev : b.ev = ev := beq_iff_eq.mp (List.mem_filter.mp hb).2
    have hcurrent := h.current b (hqueued ▸ List.mem_cons_of_mem _ hb)
    rcases hlog with hlog | ⟨call, hlog⟩
    · rw [hlog]
      exact hcurrent
    · rw [hlog]
      exact hcurrent.cons rfl (beq_false_of_ne fun heq => hfirst (heq ▸ hb))

end Ztmux.EventLoop
