import Mathlib

/-!
The channels of `wait-for`.

A channel exists once a command has named it and until `cmd_wait_for_remove` frees it. It
has a lock with a queue of items that wait for it, and a wakeup flag with a queue of items
that wait to be signalled. The server keeps the channels in a tree by name; here that is
a map.
-/

namespace Ztmux.WaitFor

/-- An item of a command queue, with the client it runs for if there is one. -/
structure Item where
  id : Nat
  client : Option Nat
  deriving DecidableEq, Repr

structure WaitChannel where
  locked : Bool
  woken : Bool
  waiters : List Item
  lockers : List Item
  deriving DecidableEq, Repr

/-- What a command prints when it fails. -/
inductive WaitError (Name : Type)
  | notAbleToWait
  | notAbleToLock
  | notLocked (name : Name)
  deriving DecidableEq, Repr

def WaitError.message : WaitError String → String
  | .notAbleToWait => "not able to wait"
  | .notAbleToLock => "not able to lock"
  | .notLocked name => "channel " ++ name ++ " not locked"

/-- What a command returns. An item whose command waits is not run on before it is
continued. -/
inductive Retval (Name : Type)
  | normal
  | wait
  | error (cause : WaitError Name)
  deriving DecidableEq, Repr

variable {Name : Type} [DecidableEq Name]

abbrev WaitChannels (Name : Type) := Name → Option WaitChannel

/-- What a command does: the channels it leaves, the items it continues, in order, the
channels it frees, as they were, and what it returns. -/
structure Outcome (Name : Type) where
  channels : WaitChannels Name
  continued : List Item
  freed : List WaitChannel
  retval : Retval Name

/-- A new channel. -/
def cmdWaitForAdd : WaitChannel := ⟨false, false, [], []⟩

/-- Whether `cmd_wait_for_remove` frees a channel. -/
def WaitChannel.done (wc : WaitChannel) : Bool :=
  !wc.locked && wc.waiters.isEmpty && wc.woken

/-- Store a channel and try to remove it. -/
def cmdWaitForRemove (chs : WaitChannels Name) (name : Name) (wc : WaitChannel)
    (continued : List Item) (retval : Retval Name) : Outcome Name :=
  if wc.done then ⟨Function.update chs name none, continued, [wc], retval⟩
  else ⟨Function.update chs name (some wc), continued, [], retval⟩

def cmdWaitForSignal (chs : WaitChannels Name) (name : Name) : Outcome Name :=
  let wc := (chs name).getD cmdWaitForAdd
  if wc.waiters.isEmpty && !wc.woken then
    ⟨Function.update chs name (some { wc with woken := true }), [], [], .normal⟩
  else cmdWaitForRemove chs name { wc with waiters := [] } wc.waiters .normal

def cmdWaitForWait (chs : WaitChannels Name) (name : Name) (item : Item) : Outcome Name :=
  if item.client = none then ⟨chs, [], [], .error .notAbleToWait⟩
  else
    let wc := (chs name).getD cmdWaitForAdd
    if wc.woken then cmdWaitForRemove chs name wc [] .normal
    else
      ⟨Function.update chs name (some { wc with waiters := wc.waiters ++ [item] }), [], [], .wait⟩

def cmdWaitForLock (chs : WaitChannels Name) (name : Name) (item : Item) : Outcome Name :=
  if item.client = none then ⟨chs, [], [], .error .notAbleToLock⟩
  else
    let wc := (chs name).getD cmdWaitForAdd
    if wc.locked then
      ⟨Function.update chs name (some { wc with lockers := wc.lockers ++ [item] }), [], [], .wait⟩
    else ⟨Function.update chs name (some { wc with locked := true }), [], [], .normal⟩

def cmdWaitForUnlock (chs : WaitChannels Name) (name : Name) : Outcome Name :=
  match chs name with
  | none => ⟨chs, [], [], .error (.notLocked name)⟩
  | some wc =>
      if !wc.locked then ⟨chs, [], [], .error (.notLocked name)⟩
      else
        match wc.lockers with
        -- The lock is handed over without being released.
        | wi :: rest =>
            ⟨Function.update chs name (some { wc with lockers := rest }), [wi], [], .normal⟩
        | [] => cmdWaitForRemove chs name { wc with locked := false } [] .normal

/-- The flags `-S`, `-L` and `-U`, or none. -/
inductive Action
  | signal
  | lock
  | unlock
  | wait
  deriving DecidableEq, Repr

/-- One execution of the command. -/
structure Call (Name : Type) where
  action : Action
  name : Name
  item : Item
  deriving DecidableEq, Repr

def cmdWaitForExec (chs : WaitChannels Name) (call : Call Name) : Outcome Name :=
  match call.action with
  | .signal => cmdWaitForSignal chs call.name
  | .lock => cmdWaitForLock chs call.name call.item
  | .unlock => cmdWaitForUnlock chs call.name
  | .wait => cmdWaitForWait chs call.name call.item

/-- The server starts without channels. -/
def noChannels : WaitChannels Name := fun _ => none

/-- What a channel that does not exist counts as. -/
def channel (chs : WaitChannels Name) (name : Name) : WaitChannel :=
  (chs name).getD cmdWaitForAdd

/-! ### What one command does to a channel -/

omit [DecidableEq Name] in
@[simp] theorem channel_noChannels (name : Name) : channel noChannels name = cmdWaitForAdd := rfl

@[simp] theorem channel_update_self (chs : WaitChannels Name) (name : Name)
    (wc : Option WaitChannel) :
    channel (Function.update chs name wc) name = wc.getD cmdWaitForAdd := by
  simp [channel]

@[simp] theorem channel_update_of_ne (chs : WaitChannels Name) {name other : Name}
    (h : other ≠ name) (wc : Option WaitChannel) :
    channel (Function.update chs name wc) other = channel chs other := by
  simp [channel, Function.update_of_ne h]

theorem cmdWaitForRemove_channel (chs : WaitChannels Name) (name : Name) (wc : WaitChannel)
    (continued : List Item) (retval : Retval Name) :
    channel (cmdWaitForRemove chs name wc continued retval).channels name =
      if wc.done then cmdWaitForAdd else wc := by
  rw [cmdWaitForRemove]
  split_ifs <;> simp

theorem cmdWaitForRemove_other (chs : WaitChannels Name) {name other : Name} (h : other ≠ name)
    (wc : WaitChannel) (continued : List Item) (retval : Retval Name) :
    (cmdWaitForRemove chs name wc continued retval).channels other = chs other := by
  rw [cmdWaitForRemove]
  split_ifs <;> simp [Function.update_of_ne h]

@[simp] theorem cmdWaitForRemove_continued (chs : WaitChannels Name) (name : Name)
    (wc : WaitChannel) (continued : List Item) (retval : Retval Name) :
    (cmdWaitForRemove chs name wc continued retval).continued = continued := by
  rw [cmdWaitForRemove]
  split_ifs <;> rfl

@[simp] theorem cmdWaitForRemove_retval (chs : WaitChannels Name) (name : Name)
    (wc : WaitChannel) (continued : List Item) (retval : Retval Name) :
    (cmdWaitForRemove chs name wc continued retval).retval = retval := by
  rw [cmdWaitForRemove]
  split_ifs <;> rfl

theorem cmdWaitForExec_other (chs : WaitChannels Name) (call : Call Name) {other : Name}
    (h : other ≠ call.name) : (cmdWaitForExec chs call).channels other = chs other := by
  obtain ⟨action, name, item⟩ := call
  cases action with
  | signal =>
      simp only [cmdWaitForExec, cmdWaitForSignal]
      split_ifs
      · exact Function.update_of_ne h _ _
      · exact cmdWaitForRemove_other chs h _ _ _
  | lock =>
      simp only [cmdWaitForExec, cmdWaitForLock]
      split_ifs
      · rfl
      · exact Function.update_of_ne h _ _
      · exact Function.update_of_ne h _ _
  | unlock =>
      simp only [cmdWaitForExec, cmdWaitForUnlock]
      split
      · rfl
      · split_ifs
        · rfl
        · split
          · exact Function.update_of_ne h _ _
          · exact cmdWaitForRemove_other chs h _ _ _
  | wait =>
      simp only [cmdWaitForExec, cmdWaitForWait]
      split_ifs
      · rfl
      · exact cmdWaitForRemove_other chs h _ _ _
      · exact Function.update_of_ne h _ _

theorem cmdWaitForExec_channel_other (chs : WaitChannels Name) (call : Call Name) {other : Name}
    (h : other ≠ call.name) :
    channel (cmdWaitForExec chs call).channels other = channel chs other := by
  rw [channel, channel, cmdWaitForExec_other chs call h]

/-- What a command can do to the channel it names: what it continues and frees, what it
returns and how it leaves the channel. -/
inductive Effect (wc : WaitChannel) (item : Item) :
    Action → List Item → List WaitChannel → Retval Name → WaitChannel → Prop
  | mark : wc.waiters = [] → wc.woken = false →
      Effect wc item .signal [] [] .normal { wc with woken := true }
  | wake : wc.waiters ≠ [] → wc.woken = false →
      Effect wc item .signal wc.waiters [] .normal { wc with waiters := [] }
  | signalLocked : wc.woken → wc.locked →
      Effect wc item .signal wc.waiters [] .normal { wc with waiters := [] }
  | signalFree : wc.woken → wc.locked = false →
      Effect wc item .signal wc.waiters [{ wc with waiters := [] }] .normal cmdWaitForAdd
  | lock : wc.locked = false → item.client.isSome →
      Effect wc item .lock [] [] .normal { wc with locked := true }
  | lockWait : wc.locked → item.client.isSome →
      Effect wc item .lock [] [] .wait { wc with lockers := wc.lockers ++ [item] }
  | handOver (wi : Item) (rest : List Item) : wc.locked → wc.lockers = wi :: rest →
      Effect wc item .unlock [wi] [] .normal { wc with lockers := rest }
  | release : wc.locked → wc.lockers = [] → (wc.waiters = [] → wc.woken = false) →
      Effect wc item .unlock [] [] .normal { wc with locked := false }
  | releaseFree : wc.locked → wc.lockers = [] → wc.waiters = [] → wc.woken →
      Effect wc item .unlock [] [{ wc with locked := false }] .normal cmdWaitForAdd
  | pass : wc.woken → item.client.isSome → (wc.locked = false → wc.waiters ≠ []) →
      Effect wc item .wait [] [] .normal wc
  | passFree : wc.woken → item.client.isSome → wc.locked = false → wc.waiters = [] →
      Effect wc item .wait [] [wc] .normal cmdWaitForAdd
  | wait : wc.woken = false → item.client.isSome →
      Effect wc item .wait [] [] .wait { wc with waiters := wc.waiters ++ [item] }
  | noClient (action : Action) (cause : WaitError Name) : item.client = none →
      action = .lock ∨ action = .wait → Effect wc item action [] [] (.error cause) wc
  | notLocked (cause : WaitError Name) : wc.locked = false →
      Effect wc item .unlock [] [] (.error cause) wc

/-- The effect of a command on the channel it names. -/
def Outcome.On (o : Outcome Name) (wc : WaitChannel) (call : Call Name) : Prop :=
  Effect wc call.item call.action o.continued o.freed o.retval (channel o.channels call.name)

theorem cmdWaitForSignal_on (chs : WaitChannels Name) (name : Name) (item : Item) :
    (cmdWaitForSignal chs name).On (channel chs name) ⟨.signal, name, item⟩ := by
  rw [Outcome.On, cmdWaitForSignal, channel]
  generalize (chs name).getD cmdWaitForAdd = wc
  obtain ⟨locked, woken, waiters, lockers⟩ := wc
  cases woken with
  | false =>
      cases waiters with
      | nil => simpa using @Effect.mark Name ⟨locked, false, [], lockers⟩ item rfl rfl
      | cons wi rest =>
          have hwake := @Effect.wake Name ⟨locked, false, wi :: rest, lockers⟩ item (by simp) rfl
          simpa [cmdWaitForRemove, WaitChannel.done] using hwake
  | true =>
      cases locked with
      | true =>
          have hsignal := @Effect.signalLocked Name ⟨true, true, waiters, lockers⟩ item rfl rfl
          simpa [cmdWaitForRemove, WaitChannel.done] using hsignal
      | false =>
          have hsignal := @Effect.signalFree Name ⟨false, true, waiters, lockers⟩ item rfl rfl
          simpa [cmdWaitForRemove, WaitChannel.done] using hsignal

theorem cmdWaitForWait_on (chs : WaitChannels Name) (name : Name) (item : Item) :
    (cmdWaitForWait chs name item).On (channel chs name) ⟨.wait, name, item⟩ := by
  rw [Outcome.On, cmdWaitForWait]
  by_cases hclient : item.client = none
  · simpa [hclient] using Effect.noClient .wait .notAbleToWait hclient (.inr rfl)
  · have hsome : item.client.isSome := Option.isSome_iff_ne_none.mpr hclient
    rw [if_neg hclient, channel]
    generalize (chs name).getD cmdWaitForAdd = wc
    by_cases hwoken : wc.woken
    · by_cases hdone : wc.done
      · have hfree : wc.locked = false ∧ wc.waiters = [] := by
          simpa [WaitChannel.done, hwoken] using hdone
        simpa [hwoken, cmdWaitForRemove, hdone] using Effect.passFree hwoken hsome hfree.1 hfree.2
      · have hkeep : wc.locked = false → wc.waiters ≠ [] := by
          simpa [WaitChannel.done, hwoken] using hdone
        simpa [hwoken, cmdWaitForRemove, hdone] using Effect.pass hwoken hsome hkeep
    · rw [Bool.not_eq_true] at hwoken
      simpa [hwoken] using Effect.wait hwoken hsome

theorem cmdWaitForLock_on (chs : WaitChannels Name) (name : Name) (item : Item) :
    (cmdWaitForLock chs name item).On (channel chs name) ⟨.lock, name, item⟩ := by
  rw [Outcome.On, cmdWaitForLock]
  by_cases hclient : item.client = none
  · simpa [hclient] using Effect.noClient .lock .notAbleToLock hclient (.inl rfl)
  · have hsome : item.client.isSome := Option.isSome_iff_ne_none.mpr hclient
    rw [if_neg hclient, channel]
    generalize (chs name).getD cmdWaitForAdd = wc
    by_cases hlocked : wc.locked
    · simpa [hlocked] using Effect.lockWait hlocked hsome
    · rw [Bool.not_eq_true] at hlocked
      simpa [hlocked] using Effect.lock hlocked hsome

theorem cmdWaitForUnlock_on (chs : WaitChannels Name) (name : Name) (item : Item) :
    (cmdWaitForUnlock chs name).On (channel chs name) ⟨.unlock, name, item⟩ := by
  rw [Outcome.On, cmdWaitForUnlock, channel]
  cases hwc : chs name with
  | none => simpa [channel, hwc] using Effect.notLocked (.notLocked name) rfl
  | some wc =>
      obtain ⟨locked, woken, waiters, lockers⟩ := wc
      rw [Option.getD_some]
      cases locked with
      | false =>
          simpa [channel, hwc] using @Effect.notLocked Name
            ⟨false, woken, waiters, lockers⟩ item (.notLocked name) rfl
      | true =>
          cases lockers with
          | cons wi rest =>
              simpa using @Effect.handOver Name ⟨true, woken, waiters, wi :: rest⟩ item wi rest
                rfl rfl
          | nil =>
              by_cases hdone : waiters = [] ∧ woken
              · obtain ⟨rfl, rfl⟩ := hdone
                have hfree := @Effect.releaseFree Name ⟨true, true, [], []⟩ item rfl rfl rfl rfl
                simpa [cmdWaitForRemove, WaitChannel.done] using hfree
              · have hkeep : waiters = [] → woken = false := by simpa using hdone
                have hnot : WaitChannel.done ⟨false, woken, waiters, []⟩ = false := by
                  simpa [WaitChannel.done] using hkeep
                have hrelease := @Effect.release Name ⟨true, woken, waiters, []⟩ item rfl rfl hkeep
                simpa [cmdWaitForRemove, hnot] using hrelease

/-- Every command has one of the effects. -/
theorem cmdWaitForExec_on (chs : WaitChannels Name) (call : Call Name) :
    (cmdWaitForExec chs call).On (channel chs call.name) call := by
  obtain ⟨action, name, item⟩ := call
  cases action with
  | signal => exact cmdWaitForSignal_on chs name item
  | lock => exact cmdWaitForLock_on chs name item
  | unlock => exact cmdWaitForUnlock_on chs name item
  | wait => exact cmdWaitForWait_on chs name item

end Ztmux.WaitFor
