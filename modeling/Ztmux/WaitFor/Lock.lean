import Ztmux.WaitFor.Channel

/-!
Locks handed over in turn.

A run is watched from outside: who has been given the lock of a channel and has not
unlocked it, which items have blocked, and which have been continued. The channels the server
keeps agree with that at every point of every run in which a locked channel is unlocked by
a client that holds it.
-/

namespace Ztmux.WaitFor

variable {Name : Type} [DecidableEq Name]

/-- What has been seen of one channel. -/
structure Record where
  /-- The clients that have been given the lock and have not unlocked it. -/
  holders : List (Option Nat)
  /-- The items that have blocked for the lock, and those continued with it, in order. -/
  asked : List Item
  granted : List Item
  /-- The items that have blocked for a signal, and those continued by one, in order. -/
  parked : List Item
  signalled : List Item

/-- Nothing has happened. -/
def Record.empty : Record := ⟨[], [], [], [], []⟩

/-- What a call shows of the channel it names. An unlock by a client ends its hold, and every
item it continues holds the lock from then on. -/
def Record.see (r : Record) (call : Call Name) (continued : List Item) (retval : Retval Name) :
    Record :=
  match call.action, retval with
  | .signal, .normal => { r with signalled := r.signalled ++ continued }
  | .lock, .normal => { r with holders := r.holders ++ [call.item.client] }
  | .lock, .wait => { r with asked := r.asked ++ [call.item] }
  | .unlock, .normal =>
      { r with
        holders := r.holders.erase call.item.client ++ continued.map Item.client
        granted := r.granted ++ continued }
  | .wait, .wait => { r with parked := r.parked ++ [call.item] }
  | _, _ => r

/-- The channels, what has been seen of each, and the channels freed so far as they were. -/
structure World (Name : Type) where
  channels : WaitChannels Name
  seen : Name → Record
  freed : List WaitChannel

def World.start : World Name := ⟨noChannels, fun _ => Record.empty, []⟩

def World.exec (σ : World Name) (call : Call Name) : World Name :=
  let o := cmdWaitForExec σ.channels call
  ⟨o.channels,
    Function.update σ.seen call.name ((σ.seen call.name).see call o.continued o.retval),
    σ.freed ++ o.freed⟩

/-- Only a client that holds the lock of a locked channel unlocks it. -/
def World.Allows (σ : World Name) (call : Call Name) : Prop :=
  call.action = .unlock → (channel σ.channels call.name).locked →
    call.item.client ∈ (σ.seen call.name).holders

/-- One command by any client. -/
inductive Step : World Name → World Name → Prop
  | exec (σ : World Name) (call : Call Name) : σ.Allows call → Step σ (σ.exec call)

/-- What the channel says and what has been seen of it agree. -/
structure Agrees (wc : WaitChannel) (r : Record) : Prop where
  holders : r.holders.length = if wc.locked then 1 else 0
  lockers : wc.locked = false → wc.lockers = []
  asked : r.asked = r.granted ++ wc.lockers
  parked : r.parked = r.signalled ++ wc.waiters
  fresh : wc.woken → wc.waiters = []

theorem agrees_empty : Agrees cmdWaitForAdd Record.empty :=
  ⟨rfl, fun _ => rfl, rfl, rfl, fun _ => rfl⟩

/-- Nothing that is freed is locked or has anyone on its lists. -/
def Idle (wc : WaitChannel) : Prop := wc.locked = false ∧ wc.waiters = [] ∧ wc.lockers = []

omit [DecidableEq Name] in
/-- One command keeps the agreement, and what it frees is idle. -/
theorem Effect.agrees {wc wc' : WaitChannel} {call : Call Name} {continued : List Item}
    {freed : List WaitChannel} {retval : Retval Name} {r : Record}
    (h : Effect wc call.item call.action continued freed retval wc') (hr : Agrees wc r)
    (hallows : call.action = .unlock → wc.locked → call.item.client ∈ r.holders) :
    Agrees wc' (r.see call continued retval) ∧ ∀ x ∈ freed, Idle x := by
  obtain ⟨action, name, item⟩ := call
  obtain ⟨hholders, hlockers, hasked, hparked, hfresh⟩ := hr
  simp only at h hallows
  -- An unlock takes the one holder out.
  have herase : action = .unlock → wc.locked → r.holders.erase item.client = [] := by
    intro haction hlocked
    rw [hlocked] at hholders
    have hmem := hallows haction hlocked
    refine List.length_eq_zero_iff.mp ?_
    rw [List.length_erase_of_mem hmem, hholders]
    rfl
  cases h with
  | mark hwaiters =>
      exact ⟨⟨hholders, hlockers, hasked, by simpa [Record.see] using hparked,
        fun _ => hwaiters⟩, by simp⟩
  | wake =>
      exact ⟨⟨hholders, hlockers, hasked, by simpa [Record.see] using hparked, fun _ => rfl⟩,
        by simp⟩
  | signalLocked =>
      exact ⟨⟨hholders, hlockers, hasked, by simpa [Record.see] using hparked, fun _ => rfl⟩,
        by simp⟩
  | signalFree hwoken hlocked =>
      rw [hlockers hlocked] at hasked
      refine ⟨⟨by simpa [Record.see, hlocked, cmdWaitForAdd] using hholders, fun _ => rfl, hasked,
        by simpa [Record.see, cmdWaitForAdd] using hparked, fun _ => rfl⟩, ?_⟩
      simp [Idle, hlocked, hlockers hlocked]
  | lock hlocked =>
      refine ⟨⟨?_, fun h => absurd h (by simp), hasked, hparked, hfresh⟩, by simp⟩
      simpa [Record.see, hlocked] using hholders
  | lockWait hlocked =>
      refine ⟨⟨hholders, fun h => absurd h (by simp [hlocked]), ?_, hparked, hfresh⟩, by simp⟩
      simp [Record.see, hasked]
  | handOver wi rest hlocked hrest =>
      refine ⟨⟨?_, fun h => absurd h (by simp [hlocked]), ?_, hparked, hfresh⟩, by simp⟩
      · simp [Record.see, herase rfl hlocked, hlocked]
      · simp [Record.see, hasked, hrest]
  | release hlocked hnone =>
      refine ⟨⟨?_, fun _ => hnone, ?_, hparked, hfresh⟩, by simp⟩
      · simp [Record.see, herase rfl hlocked]
      · simpa [Record.see] using hasked
  | releaseFree hlocked hnone hwaiters =>
      rw [hnone] at hasked
      rw [hwaiters] at hparked
      refine ⟨⟨?_, fun _ => rfl, ?_, hparked, fun _ => rfl⟩, by simp [Idle, hnone, hwaiters]⟩
      · simp [Record.see, herase rfl hlocked, cmdWaitForAdd]
      · simpa [Record.see, cmdWaitForAdd] using hasked
  | pass => exact ⟨⟨hholders, hlockers, hasked, hparked, hfresh⟩, by simp⟩
  | passFree hwoken _ hlocked hwaiters =>
      have hnone := hlockers hlocked
      rw [hnone] at hasked
      rw [hwaiters] at hparked
      refine ⟨⟨by simpa [Record.see, hlocked, cmdWaitForAdd] using hholders, fun _ => rfl, hasked,
        hparked, fun _ => rfl⟩, by simp [Idle, hlocked, hwaiters, hnone]⟩
  | wait hwoken =>
      refine ⟨⟨hholders, hlockers, hasked, ?_, fun h => absurd h (by simp [hwoken])⟩, by simp⟩
      simp [Record.see, hparked]
  | noClient _ cause _ haction =>
      rcases haction with rfl | rfl
      · exact ⟨⟨hholders, hlockers, hasked, hparked, hfresh⟩, by simp⟩
      · exact ⟨⟨hholders, hlockers, hasked, hparked, hfresh⟩, by simp⟩
  | notLocked => exact ⟨⟨hholders, hlockers, hasked, hparked, hfresh⟩, by simp⟩

/-- At every point every channel agrees with what has been seen of it. -/
structure World.Sound (σ : World Name) : Prop where
  agrees : ∀ name, Agrees (channel σ.channels name) (σ.seen name)
  idle : ∀ wc ∈ σ.freed, Idle wc

omit [DecidableEq Name] in
theorem World.start_sound : (World.start : World Name).Sound :=
  ⟨fun _ => agrees_empty, fun _ h => by cases h⟩

theorem Step.sound {σ σ' : World Name} (h : Step σ σ') (hσ : σ.Sound) : σ'.Sound := by
  cases h with
  | exec call hallows =>
      obtain ⟨hagrees, hidle⟩ :=
        (cmdWaitForExec_on σ.channels call).agrees (hσ.agrees call.name) hallows
      refine ⟨fun name => ?_, fun wc hwc => ?_⟩
      · by_cases hname : name = call.name
        · subst hname
          simpa [World.exec] using hagrees
        · simp only [World.exec, cmdWaitForExec_channel_other σ.channels call hname,
            Function.update_of_ne hname]
          exact hσ.agrees name
      · rcases List.mem_append.mp hwc with hwc | hwc
        · exact hσ.idle wc hwc
        · exact hidle wc hwc

theorem World.run_sound {σ : World Name} (h : Relation.ReflTransGen Step World.start σ) :
    σ.Sound := by
  induction h with
  | refl => exact World.start_sound
  | tail _ hstep ih => exact hstep.sound ih

/-- Whom a command continues: a signal everyone that waits for one, an unlock the first that
waits for the lock, and no other command anyone. -/
def WaitChannel.next (wc : WaitChannel) : Action → List Item
  | .signal => wc.waiters
  | .unlock => wc.lockers.take 1
  | .lock => []
  | .wait => []

omit [DecidableEq Name] in
theorem Effect.continued_eq {wc wc' : WaitChannel} {item : Item} {action : Action}
    {continued : List Item} {freed : List WaitChannel} {retval : Retval Name}
    (h : Effect wc item action continued freed retval wc')
    (hlockers : wc.locked = false → wc.lockers = []) : continued = wc.next action := by
  cases h with
  | mark hwaiters => exact hwaiters.symm
  | handOver wi rest _ hrest =>
    rw [WaitChannel.next, hrest]
    rfl
  | release _ hnone => rw [WaitChannel.next, hnone, List.take_nil]
  | releaseFree _ hnone => rw [WaitChannel.next, hnone, List.take_nil]
  | noClient action cause _ haction => rcases haction with rfl | rfl <;> rfl
  | notLocked _ hlocked => rw [WaitChannel.next, hlockers hlocked, List.take_nil]
  | _ => rfl

omit [DecidableEq Name] in
/-- A signal does not fail, and neither does an unlock of a locked channel. -/
theorem Effect.retval_normal {wc wc' : WaitChannel} {item : Item} {action : Action}
    {continued : List Item} {freed : List WaitChannel} {retval : Retval Name}
    (h : Effect wc item action continued freed retval wc')
    (haction : action = .signal ∨ action = .unlock ∧ wc.locked) : retval = .normal := by
  cases h with
  | lockWait | wait => simp at haction
  | noClient action cause _ hblocks => rcases hblocks with rfl | rfl <;> simp at haction
  | notLocked cause hlocked => simp [hlocked] at haction
  | _ => rfl

theorem World.exec_seen (σ : World Name) (call : Call Name) :
    (σ.exec call).seen call.name = (σ.seen call.name).see call
      (cmdWaitForExec σ.channels call).continued (cmdWaitForExec σ.channels call).retval :=
  Function.update_self ..

theorem World.Sound.continued {σ : World Name} (hσ : σ.Sound) (call : Call Name) :
    (cmdWaitForExec σ.channels call).continued =
      (channel σ.channels call.name).next call.action :=
  (cmdWaitForExec_on σ.channels call).continued_eq (hσ.agrees call.name).lockers

/-- A signal continues everyone that has blocked for one and has not been continued. -/
theorem World.Sound.signalled {σ : World Name} (hσ : σ.Sound) {call : Call Name}
    (hsignal : call.action = .signal) :
    ((σ.exec call).seen call.name).signalled = (σ.seen call.name).parked := by
  have hretval := (cmdWaitForExec_on σ.channels call).retval_normal (.inl hsignal)
  rw [σ.exec_seen, hσ.continued, hretval, (hσ.agrees call.name).parked]
  simp [Record.see, hsignal, WaitChannel.next]

/-- An unlock continues the first that has blocked for the lock and has not been continued. -/
theorem World.Sound.granted {σ : World Name} (hσ : σ.Sound) {call : Call Name}
    (hunlock : call.action = .unlock) (hlocked : (channel σ.channels call.name).locked) :
    ((σ.exec call).seen call.name).granted =
      (σ.seen call.name).asked.take ((σ.seen call.name).granted.length + 1) := by
  have hretval := (cmdWaitForExec_on σ.channels call).retval_normal (.inr ⟨hunlock, hlocked⟩)
  rw [σ.exec_seen, hσ.continued, hretval, (hσ.agrees call.name).asked,
    List.take_length_add_append]
  simp [Record.see, hunlock, WaitChannel.next]

/-- In every run in which locked channels are unlocked by clients that hold them: a channel has
a holder exactly while it is locked, and then one; the items that blocked for the lock
have been continued in the order they asked, each once, but for those still queued; so have
the items that blocked for a signal; no channel was freed while it was locked or had anyone on
its lists; and whatever command comes next, a signal continues everyone that is still queued for
one, an unlock the first that is still queued for the lock, and nothing else continues anyone. -/
theorem lock_run {σ : World Name} (h : Relation.ReflTransGen Step World.start σ) :
    (∀ name, (σ.seen name).holders.length =
        (if (channel σ.channels name).locked then 1 else 0) ∧
      (σ.seen name).asked = (σ.seen name).granted ++ (channel σ.channels name).lockers ∧
      (σ.seen name).parked = (σ.seen name).signalled ++ (channel σ.channels name).waiters) ∧
      (∀ wc ∈ σ.freed, wc.locked = false ∧ wc.waiters = [] ∧ wc.lockers = []) ∧
      ∀ call, σ.Allows call →
        (cmdWaitForExec σ.channels call).continued =
            (channel σ.channels call.name).next call.action ∧
          (call.action = .signal →
            ((σ.exec call).seen call.name).signalled = (σ.seen call.name).parked) ∧
          (call.action = .unlock → (channel σ.channels call.name).locked →
            ((σ.exec call).seen call.name).granted =
              (σ.seen call.name).asked.take ((σ.seen call.name).granted.length + 1)) := by
  have hσ := World.run_sound h
  refine ⟨fun name => ?_, hσ.idle, fun call _ => ?_⟩
  · exact ⟨(hσ.agrees name).holders, (hσ.agrees name).asked, (hσ.agrees name).parked⟩
  · exact ⟨hσ.continued call, hσ.signalled, hσ.granted⟩

def firstLock : Call Nat := ⟨.lock, 0, ⟨0, some 0⟩⟩
def secondLock : Call Nat := ⟨.lock, 0, ⟨1, some 1⟩⟩
def thirdLock : Call Nat := ⟨.lock, 0, ⟨2, some 2⟩⟩
def firstWait : Call Nat := ⟨.wait, 0, ⟨3, some 3⟩⟩
def secondWait : Call Nat := ⟨.wait, 0, ⟨4, some 4⟩⟩
def signalBoth : Call Nat := ⟨.signal, 0, ⟨5, some 5⟩⟩
def firstUnlock : Call Nat := ⟨.unlock, 0, ⟨6, some 0⟩⟩

/-- One client holds the lock of a channel, two more have asked for it and two wait. -/
def crowded : World Nat :=
  [firstLock, secondLock, thirdLock, firstWait, secondWait].foldl World.exec World.start

theorem crowded_run : Relation.ReflTransGen Step World.start crowded := by
  have hstep (σ : World Nat) {call : Call Nat} (h : call.action ≠ .unlock) :
      Step σ (σ.exec call) := .exec σ call fun hunlock => absurd hunlock h
  refine .tail (.tail (.tail (.tail (.single (hstep _ ?_)) (hstep _ ?_)) (hstep _ ?_))
    (hstep _ ?_)) (hstep _ ?_)
  all_goals decide

/-- A signal continues both that wait, and then an unlock the first that has asked, who holds the
lock from then on. -/
theorem lock_run_crowded :
    (cmdWaitForExec crowded.channels signalBoth).continued = [firstWait.item, secondWait.item] ∧
      ((crowded.exec signalBoth).seen 0).signalled = [firstWait.item, secondWait.item] ∧
      (((crowded.exec signalBoth).exec firstUnlock).seen 0).granted = [secondLock.item] ∧
      (((crowded.exec signalBoth).exec firstUnlock).seen 0).holders.length = 1 := by
  have hcrowded := crowded_run
  have hsignal : Step crowded (crowded.exec signalBoth) := .exec _ _ fun h => by cases h
  have hunlock : Step (crowded.exec signalBoth) ((crowded.exec signalBoth).exec firstUnlock) :=
    .exec _ _ fun _ _ => by decide
  obtain ⟨hcontinued, hsignalled, -⟩ := (lock_run hcrowded).2.2 signalBoth (fun h => by cases h)
  obtain ⟨-, -, hgranted⟩ := (lock_run (hcrowded.tail hsignal)).2.2 firstUnlock
    (fun _ _ => by decide)
  have hholders := ((lock_run ((hcrowded.tail hsignal).tail hunlock)).1 0).1
  exact ⟨hcontinued, hsignalled rfl, hgranted rfl rfl, hholders⟩

end Ztmux.WaitFor
