import Ztmux.EventLoop.Bufferevent

/-!
The event base: registrations, activations and the dispatch of callbacks
(`extensions/event_loop/base.rs`). An event is known by its address. Memory that nobody has
written to is all zero, and reads as an event that is not configured.

The loop runs callbacks one at a time, and what a callback does to the base it does between
two turns of `dispatch`'s loop. The model's step is one call, one wait, or one entry taken off
the queue.
-/

namespace Ztmux.EventLoop

def evTimeout : EventBits := 0x01

def evSignal : EventBits := 0x08

def evPersist : EventBits := 0x10

def evlistInit : EventBits := 0x80

def evlistPending : EventBits := 0x01

/-- The callbacks of the program, and the loop's own for `event_once`. -/
inductive Handler (κ : Type)
  | user (callback : κ)
  | eventOnceTrampoline
  deriving DecidableEq

structure Event (κ : Type) where
  fd : Int
  events : EventBits
  res : EventBits
  flags : EventBits
  callback : Option (Handler κ)
  arg : Nat
  gen : UInt64

def zeroed (κ : Type) : Event κ := ⟨0, 0, 0, 0, none, 0, 0⟩

structure Pending where
  generation : UInt64
  fd : Int
  events : EventBits
  deadline : Option Nat
  interval : Option Nat

/-- An event whose callback is due to run. The last two fields are not in the source: the number
of the activation, and whether it was a wait that made it. -/
structure Active where
  ev : Nat
  generation : UInt64
  res : EventBits
  id : Nat
  reported : Bool
  deriving DecidableEq

/-- What `event_once` keeps beside its event. -/
structure OnceEvent (κ : Type) where
  callback : Option κ
  arg : Nat

/-- A callback as it is run. -/
structure Call (κ : Type) where
  callback : κ
  fd : Int
  res : EventBits
  arg : Nat
  deriving DecidableEq

/-- The base, and the events and once events in memory. The last field is not in the source: how
many activations there have been. -/
structure Base (κ : Type) where
  pending : Nat → Option Pending
  active : List Active
  nextGen : UInt64
  events : Nat → Event κ
  onces : Nat → Option (OnceEvent κ)
  activations : Nat

def eventInit (κ : Type) : Base κ where
  pending _ := none
  active := []
  nextGen := 1
  events _ := zeroed κ
  onces _ := none
  activations := 0

variable {κ : Type}

namespace Base

/-- The event at `ev`, changed. -/
def write (s : Base κ) (ev : Nat) (f : Event κ → Event κ) : Base κ :=
  { s with events := Function.update s.events ev (f (s.events ev)) }

def isPending (s : Base κ) (ev : Nat) : Bool := (s.events ev).flags.has evlistPending

/-- The queue without what there is in it for `ev`. -/
def scrub (s : Base κ) (ev : Nat) : Base κ :=
  { s with active := s.active.filter fun a => a.ev != ev }

def queue (s : Base κ) (ev : Nat) (generation : UInt64) (res : EventBits) (reported : Bool) :
    Base κ :=
  { s with
    active := s.active ++ [⟨ev, generation, res, s.activations, reported⟩]
    activations := s.activations + 1 }

end Base

def eventDel (s : Base κ) (ev : Nat) : Base κ :=
  let s := { s with pending := Function.update s.pending ev none }
  let s := s.scrub ev
  s.write ev fun e => { e with flags := e.flags &&& ~~~evlistPending }

/-- The fields `event_set` writes. -/
def configured (fd : Int) (events : EventBits) (callback : Option (Handler κ)) (arg : Nat)
    (e : Event κ) : Event κ :=
  { e with
    fd := fd
    events := events
    res := 0
    callback := callback
    arg := arg
    flags := evlistInit }

/-- A registered event is deleted first. -/
def eventSet (s : Base κ) (ev : Nat) (fd : Int) (events : EventBits)
    (callback : Option (Handler κ)) (arg : Nat) : Base κ :=
  let s := if s.isPending ev then eventDel s ev else s
  s.write ev (configured fd events callback arg)

structure Timeval where
  sec : Int
  usec : Int

/-- The timeout in nanoseconds. -/
def Timeval.interval (tv : Timeval) : Nat :=
  (max tv.sec 0).toNat * 1000000000 + min ((max tv.usec 0).toNat % 2 ^ 32) 999999 * 1000

/-- At the time `now`, a registration that replaces any earlier one. -/
def eventAdd (s : Base κ) (ev : Nat) (timeout : Option Timeval) (now : Nat) : Base κ :=
  let interval := timeout.map Timeval.interval
  let generation := s.nextGen
  let s := { s with nextGen := s.nextGen + 1 }
  let s := s.scrub ev
  let e := s.events ev
  let s := { s with
    pending := Function.update s.pending ev
      (some ⟨generation, e.fd, e.events, interval.map (now + ·), interval⟩) }
  s.write ev fun e => { e with gen := generation, flags := e.flags ||| evlistPending }

def eventActive (s : Base κ) (ev : Nat) (res : EventBits) : Base κ :=
  s.queue ev (s.events ev).gen res false

def isZero (tv : Timeval) : Bool := tv.sec == 0 && tv.usec == 0

/-- The allocator puts the event at `ev`. -/
def eventOnce (s : Base κ) (ev : Nat) (fd : Int) (events : EventBits) (callback : Option κ)
    (arg : Nat) (tv : Option Timeval) (now : Nat) : Base κ :=
  let s := { s with onces := Function.update s.onces ev (some ⟨callback, arg⟩) }
  let s := s.write ev fun _ => zeroed κ
  let s := eventSet s ev fd (events &&& ~~~evPersist) (some .eventOnceTrampoline) ev
  if events &&& (evRead ||| evWrite ||| evSignal) = 0 ∧ tv.all isZero then
    eventActive (eventAdd s ev none now) ev evTimeout
  else eventAdd s ev tv now

/-- What a wait has to say: what each event's descriptor reported, the signals that were raised,
and the time. -/
structure Report where
  got : Nat → EventBits
  raised : Int → Bool
  now : Nat

/-- Why a registration is ready, where it is. -/
def Report.res (report : Report) (ev : Nat) (p : Pending) : EventBits :=
  (if p.events &&& (evRead ||| evWrite) ≠ 0 ∧ 0 ≤ p.fd then
    report.got ev &&& (evRead ||| evWrite) else 0) |||
  (if p.events.has evSignal ∧ 0 ≤ p.fd ∧ p.fd < 64 ∧ report.raised p.fd then evSignal else 0) |||
  (if p.deadline.any (· ≤ report.now) then evTimeout else 0)

/-- The registrations that are ready, as the map hands them out in `order`. -/
def readyIn (s : Base κ) (report : Report) (order : List Nat) : List (Nat × UInt64 × EventBits) :=
  order.filterMap fun ev => (s.pending ev).bind fun p =>
    if report.res ev p ≠ 0 then some (ev, p.generation, report.res ev p) else none

/-- A persistent timer starts again from now. -/
def rearm (now : Nat) (p : Pending) : Pending :=
  { p with deadline := p.interval.elim p.deadline fun interval => some (now + interval) }

/-- A registration that is not persistent goes before its callback runs. -/
def activateOne (now : Nat) (s : Base κ) (r : Nat × UInt64 × EventBits) : Base κ :=
  let s :=
    if (s.pending r.1).any (·.events.has evPersist) then
      { s with pending := Function.update s.pending r.1 ((s.pending r.1).map (rearm now)) }
    else
      { s with pending := Function.update s.pending r.1 none }.write r.1 fun e =>
        { e with flags := e.flags &&& ~~~evlistPending }
  s.queue r.1 r.2.1 r.2.2 true

/-- In the order of registration, whatever order the map has. -/
def activateReady (s : Base κ) (report : Report) (order : List Nat) : Base κ :=
  ((readyIn s report order).mergeSort fun r r' => r.2.1 ≤ r'.2.1).foldl (activateOne report.now) s

/-- The program's callback that is run for `a`, and what it is given. -/
def callOf (s : Base κ) (a : Active) : Option (Call κ) :=
  let e := s.events a.ev
  match e.callback with
  | none => none
  | some (.user callback) => some ⟨callback, e.fd, a.res, e.arg⟩
  | some .eventOnceTrampoline => (s.onces e.arg).bind fun once =>
      once.callback.map fun callback => ⟨callback, e.fd, a.res, once.arg⟩

/-- The event of an `event_once` is deleted and its memory freed. -/
def eventOnceFree (s : Base κ) (ev : Nat) : Base κ :=
  let s := eventDel s ev
  { s with onces := Function.update s.onces ev none }.write ev fun _ => zeroed κ

/-- What a turn of the loop comes to: the base it leaves, the callback of the program's that it
runs, and the once event that it frees. -/
structure Turn (κ : Type) where
  base : Base κ
  call : Option (Call κ)
  freed : Option Nat

/-- The loop's own callback deletes its event before it runs the one it was given. -/
def runCallback (s : Base κ) (a : Active) : Turn κ :=
  let e := s.events a.ev
  match e.callback with
  | none => ⟨s, none, none⟩
  | some (.user _) => ⟨s, callOf s a, none⟩
  | some .eventOnceTrampoline => ⟨eventOnceFree s e.arg, callOf s a, some e.arg⟩

/-- One turn of `dispatch`'s loop. -/
def dispatchOne (s : Base κ) : Turn κ :=
  match s.active with
  | [] => ⟨s, none, none⟩
  | a :: active =>
    let s := { s with active := active }
    -- left over from a registration that has been replaced
    if (s.events a.ev).gen ≠ a.generation then ⟨s, none, none⟩
    else runCallback (s.write a.ev fun e => { e with res := a.res }) a

end Ztmux.EventLoop
