import Ztmux.WaitFor.Channel

/-!
What becomes of a wakeup that finds nobody waiting.

The flag that keeps it lives in the channel, and the channel is freed by a second signal
and by the unlock that gives up its lock; while the lock is held, a wait passes without
taking the flag. Until one of these happens the next wait passes, and it is the
only one.
-/

namespace Ztmux.WaitFor

variable {Name : Type} [DecidableEq Name]

/-- The channels after some commands, whoever runs them. -/
def runCalls (chs : WaitChannels Name) (calls : List (Call Name)) : WaitChannels Name :=
  calls.foldl (fun chs call => (cmdWaitForExec chs call).channels) chs

/-- The channels some run from the start can reach. -/
def Reachable (chs : WaitChannels Name) : Prop := ∃ calls, chs = runCalls noChannels calls

/-- Nobody waits on a channel that keeps a wakeup. -/
def WaitChannel.Fresh (wc : WaitChannel) : Prop := wc.woken → wc.waiters = []

omit [DecidableEq Name] in
theorem Effect.fresh {wc wc' : WaitChannel} {item : Item} {action : Action}
    {continued : List Item} {freed : List WaitChannel} {retval : Retval Name}
    (h : Effect wc item action continued freed retval wc') (hwc : wc.Fresh) : wc'.Fresh := by
  cases h with
  | mark hwaiters => exact fun _ => hwaiters
  | wake => exact fun _ => rfl
  | signalLocked => exact fun _ => rfl
  | signalFree => exact fun _ => rfl
  | lock => exact hwc
  | lockWait => exact hwc
  | handOver => exact hwc
  | release => exact hwc
  | releaseFree => exact fun _ => rfl
  | pass => exact hwc
  | passFree => exact fun _ => rfl
  | wait hwoken =>
      intro h
      rw [hwoken] at h
      cases h
  | noClient => exact hwc
  | notLocked => exact hwc

theorem fresh_runCalls {chs : WaitChannels Name} (h : ∀ name, (channel chs name).Fresh)
    (calls : List (Call Name)) (name : Name) : (channel (runCalls chs calls) name).Fresh := by
  induction calls generalizing chs with
  | nil => exact h name
  | cons call calls ih =>
      refine ih fun other => ?_
      by_cases hother : other = call.name
      · subst hother
        exact (cmdWaitForExec_on chs call).fresh (h call.name)
      · rw [cmdWaitForExec_channel_other chs call hother]
        exact h other

/-- The actions that leave a wakeup alone: no wait, no signal while the channel is unlocked,
and no unlock that gives the lock up. -/
def WaitChannel.Keeps (wc : WaitChannel) : Action → Prop
  | .lock => True
  | .wait => False
  | .signal => wc.locked
  | .unlock => wc.locked → wc.lockers ≠ []

omit [DecidableEq Name] in
theorem Effect.woken {wc wc' : WaitChannel} {item : Item} {action : Action}
    {continued : List Item} {freed : List WaitChannel} {retval : Retval Name}
    (h : Effect wc item action continued freed retval wc') (hwc : wc.woken)
    (hkeep : wc.Keeps action) : wc'.woken := by
  cases h with
  | mark => rfl
  | wake => exact hwc
  | signalLocked => exact hwc
  | signalFree _ hfree =>
      have hlocked : wc.locked := hkeep
      rw [hfree] at hlocked
      cases hlocked
  | lock => exact hwc
  | lockWait => exact hwc
  | handOver => exact hwc
  | release hlocked hlockers => exact absurd hlockers (hkeep hlocked)
  | releaseFree hlocked hlockers => exact absurd hlockers (hkeep hlocked)
  | pass => exact hwc
  | passFree => exact hkeep.elim
  | wait => exact hkeep.elim
  | noClient => exact hwc
  | notLocked => exact hwc

omit [DecidableEq Name] in
theorem Effect.not_woken {wc wc' : WaitChannel} {item : Item} {action : Action}
    {continued : List Item} {freed : List WaitChannel} {retval : Retval Name}
    (h : Effect wc item action continued freed retval wc') (hwc : wc.woken = false)
    (hsignal : action ≠ .signal) : wc'.woken = false := by
  cases h with
  | mark => exact absurd rfl hsignal
  | signalFree => rfl
  | releaseFree => rfl
  | passFree => rfl
  | _ => exact hwc

/-- Commands that leave a wakeup of `name` alone. -/
def KeepsWakeup (name : Name) : WaitChannels Name → List (Call Name) → Prop
  | _, [] => True
  | chs, call :: calls =>
      (call.name = name → (channel chs name).Keeps call.action) ∧
        KeepsWakeup name (cmdWaitForExec chs call).channels calls

theorem woken_runCalls {chs : WaitChannels Name} {name : Name} (h : (channel chs name).woken)
    {calls : List (Call Name)} (hkeep : KeepsWakeup name chs calls) :
    (channel (runCalls chs calls) name).woken := by
  induction calls generalizing chs with
  | nil => exact h
  | cons call calls ih =>
      obtain ⟨hcall, hcalls⟩ := hkeep
      refine ih ?_ hcalls
      by_cases hname : call.name = name
      · subst hname
        exact (cmdWaitForExec_on chs call).woken h (hcall rfl)
      · rw [cmdWaitForExec_channel_other chs call (Ne.symm hname)]
        exact h

/-- Commands without a signal to `name`. -/
def NoSignal (name : Name) (calls : List (Call Name)) : Prop :=
  ∀ call ∈ calls, call.name = name → call.action ≠ .signal

theorem not_woken_runCalls {chs : WaitChannels Name} {name : Name}
    (h : (channel chs name).woken = false) {calls : List (Call Name)}
    (hcalls : NoSignal name calls) : (channel (runCalls chs calls) name).woken = false := by
  induction calls generalizing chs with
  | nil => exact h
  | cons call calls ih =>
      refine ih ?_ fun x hx => hcalls x (List.mem_cons_of_mem _ hx)
      by_cases hname : call.name = name
      · have hsignal := hcalls call List.mem_cons_self hname
        subst hname
        exact (cmdWaitForExec_on chs call).not_woken h hsignal
      · rw [cmdWaitForExec_channel_other chs call (Ne.symm hname)]
        exact h

/-- A wait blocks exactly when no wakeup is kept. -/
theorem cmdWaitForWait_retval (chs : WaitChannels Name) (name : Name) {item : Item}
    (h : item.client.isSome) :
    (cmdWaitForWait chs name item).retval = if (channel chs name).woken then .normal
      else .wait := by
  have hclient : item.client ≠ none := Option.isSome_iff_ne_none.mp h
  rw [cmdWaitForWait, if_neg hclient]
  change (if (channel chs name).woken then _ else _ : Outcome Name).retval = _
  split_ifs
  · exact cmdWaitForRemove_retval _ _ _ _ _
  · rfl

theorem cmdWaitForWait_channel (chs : WaitChannels Name) (name : Name) {item : Item}
    (h : item.client.isSome) (hfresh : (channel chs name).Fresh)
    (hlocked : (channel chs name).locked = false) (hwoken : (channel chs name).woken) :
    channel (cmdWaitForWait chs name item).channels name = cmdWaitForAdd := by
  have hclient : item.client ≠ none := Option.isSome_iff_ne_none.mp h
  have hdone : (channel chs name).done := by
    simp [WaitChannel.done, hlocked, hwoken, hfresh hwoken]
  rw [cmdWaitForWait, if_neg hclient]
  change channel (if (channel chs name).woken then
    cmdWaitForRemove chs name (channel chs name) [] .normal else _).channels name = _
  rw [if_pos hwoken, cmdWaitForRemove_channel, if_pos hdone]

/-- A signal that finds neither a waiter nor a wakeup is kept for the next wait, and if the
channel is not locked by then, for that wait alone. -/
theorem wakeup_kept {chs : WaitChannels Name} {name : Name} {signaller waiter : Item}
    (hreach : Reachable chs) (hwaiters : (channel chs name).waiters = [])
    (hwoken : (channel chs name).woken = false) (hclient : waiter.client.isSome)
    {calls : List (Call Name)}
    (hkeep : KeepsWakeup name (cmdWaitForExec chs ⟨.signal, name, signaller⟩).channels calls) :
    let chs₁ := runCalls (cmdWaitForExec chs ⟨.signal, name, signaller⟩).channels calls
    let passed := cmdWaitForExec chs₁ ⟨.wait, name, waiter⟩
    passed.retval = .normal ∧ ((channel chs₁ name).locked = false →
      ∀ calls' item, NoSignal name calls' → item.client.isSome →
        (cmdWaitForExec (runCalls passed.channels calls') ⟨.wait, name, item⟩).retval = .wait) := by
  intro chs₁ passed
  have hsignal : (channel (cmdWaitForExec chs ⟨.signal, name, signaller⟩).channels name).woken := by
    have hmark : (channel chs name).waiters.isEmpty && !(channel chs name).woken := by
      simp [hwaiters, hwoken]
    simp only [channel] at hmark
    simp [cmdWaitForExec, cmdWaitForSignal, hmark]
  have hkept : (channel chs₁ name).woken := woken_runCalls hsignal hkeep
  have hfresh : (channel chs₁ name).Fresh := by
    obtain ⟨before, rfl⟩ := hreach
    have hrun : chs₁ = runCalls noChannels (before ++ ⟨.signal, name, signaller⟩ :: calls) := by
      simp [chs₁, runCalls]
    rw [hrun]
    exact fresh_runCalls (fun _ _ => rfl) _ name
  refine ⟨?_, fun hlocked calls' item hcalls' hitem => ?_⟩
  · change (cmdWaitForWait chs₁ name waiter).retval = _
    rw [cmdWaitForWait_retval chs₁ name hclient, if_pos hkept]
  · have hgone : (channel passed.channels name).woken = false := by
      change (channel (cmdWaitForWait chs₁ name waiter).channels name).woken = false
      rw [cmdWaitForWait_channel chs₁ name hclient hfresh hlocked hkept]
      rfl
    change (cmdWaitForWait (runCalls passed.channels calls') name item).retval = _
    rw [cmdWaitForWait_retval _ name hitem, not_woken_runCalls hgone hcalls']
    rfl

/-- A client that waits, one that signals and two that lock. -/
def waiterItem : Item := ⟨0, some 0⟩
def signalItem : Item := ⟨1, some 1⟩
def lockItem : Item := ⟨2, some 2⟩
def lockerItem : Item := ⟨3, some 3⟩

/-- What the next wait on channel 0 returns after some commands. -/
def nextWait (calls : List (Call Nat)) : Retval Nat :=
  (cmdWaitForExec (runCalls noChannels calls) ⟨.wait, 0, waiterItem⟩).retval

/-- Someone has waited and been woken, and perhaps the channel is locked since. -/
def wokenBefore : List (Call Nat) := [⟨.wait, 0, waiterItem⟩, ⟨.signal, 0, signalItem⟩]
def lockedBefore : List (Call Nat) := wokenBefore ++ [⟨.lock, 0, lockItem⟩]

/-- A second signal under the lock, and the lock handed over to another client. -/
def handedOver : List (Call Nat) :=
  [⟨.signal, 0, signalItem⟩, ⟨.lock, 0, lockerItem⟩, ⟨.unlock, 0, lockItem⟩]

/-- An unlock that fails, and commands on another channel. -/
def elsewhere : List (Call Nat) :=
  [⟨.unlock, 0, lockItem⟩, ⟨.lock, 1, lockItem⟩, ⟨.signal, 1, signalItem⟩]

theorem handedOver_keeps : KeepsWakeup 0
    (cmdWaitForExec (runCalls noChannels lockedBefore) ⟨.signal, 0, signalItem⟩).channels
    handedOver :=
  ⟨fun _ => rfl, fun _ => trivial, fun _ _ => by decide, trivial⟩

theorem elsewhere_keeps : KeepsWakeup 0
    (cmdWaitForExec (runCalls noChannels wokenBefore) ⟨.signal, 0, signalItem⟩).channels
    elsewhere :=
  ⟨fun _ h => (by cases h), fun h => (by cases h), fun h => (by cases h), trivial⟩

/-- A wakeup outlives a second signal under the lock and the lock's change of hands. On a channel
that is not locked it lets one wait through, and the one after that blocks whoever locks the
channel in between. -/
theorem wakeup_kept_twice :
    nextWait (lockedBefore ++ ⟨.signal, 0, signalItem⟩ :: handedOver) = .normal ∧
      nextWait (wokenBefore ++ ⟨.signal, 0, signalItem⟩ :: elsewhere) = .normal ∧
      nextWait (wokenBefore ++ ⟨.signal, 0, signalItem⟩ :: elsewhere ++
        [⟨.wait, 0, waiterItem⟩, ⟨.lock, 0, lockItem⟩, ⟨.unlock, 0, lockItem⟩]) = .wait := by
  have hlocked := @wakeup_kept Nat _ (runCalls noChannels lockedBefore) 0 signalItem waiterItem
    ⟨_, rfl⟩ rfl rfl rfl _ handedOver_keeps
  have hfree := @wakeup_kept Nat _ (runCalls noChannels wokenBefore) 0 signalItem waiterItem
    ⟨_, rfl⟩ rfl rfl rfl _ elsewhere_keeps
  refine ⟨hlocked.1, hfree.1, hfree.2 rfl [⟨.lock, 0, lockItem⟩, ⟨.unlock, 0, lockItem⟩]
    waiterItem ?_ rfl⟩
  intro call hcall _ haction
  simp only [List.mem_cons, List.not_mem_nil, or_false] at hcall
  obtain rfl | rfl := hcall
  · cases haction
  · cases haction

/-- A wait after a signal that has woken a waiter blocks, and so does one after a second
signal and one after a lock that was held over the signal is given up; while the lock is held
more than one wait passes. -/
theorem nextWait_blocks :
    nextWait [⟨.wait, 0, waiterItem⟩, ⟨.signal, 0, signalItem⟩] = .wait ∧
      nextWait [⟨.signal, 0, signalItem⟩, ⟨.signal, 0, signalItem⟩] = .wait ∧
      nextWait [⟨.lock, 0, lockItem⟩, ⟨.signal, 0, signalItem⟩, ⟨.unlock, 0, lockItem⟩] = .wait ∧
      nextWait [⟨.lock, 0, lockItem⟩, ⟨.signal, 0, signalItem⟩, ⟨.wait, 0, waiterItem⟩] =
        .normal := by
  decide

end Ztmux.WaitFor
