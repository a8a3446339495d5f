import Ztmux.EventLoop.Bufferevent

/-!
A bufferevent neither stalls nor reorders. Nothing that changes the output queue or what is
enabled leaves something queued with nobody watching, and both queues are byte queues.

What has gone through a bufferevent is written down beside it, by the calls of a run and by
what the descriptor takes and brings.
-/

namespace Ztmux.EventLoop

variable {bev bev' : Bufferevent}

theorem EventBits.has_evWrite (events : EventBits) : events.has evWrite = events.getLsbD 2 := by
  have hbit : evWrite = BitVec.twoPow 16 2 := by decide
  rw [has, hbit, BitVec.and_twoPow]
  cases events.getLsbD 2 <;> decide

theorem has_or (a b : EventBits) : (a ||| b).has evWrite = (a.has evWrite || b.has evWrite) := by
  simp only [EventBits.has_evWrite, BitVec.getLsbD_or]

theorem has_and_not (a b : EventBits) :
    (a &&& ~~~b).has evWrite = (a.has evWrite && !b.has evWrite) := by
  simp only [EventBits.has_evWrite, BitVec.getLsbD_and, BitVec.getLsbD_not]
  simp

/-- A bufferevent, and what has gone through it. -/
structure Flow where
  bev : Bufferevent
  /-- The bytes handed over for writing, and those the descriptor has taken. -/
  queued : List UInt8
  written : List UInt8
  /-- The bytes the descriptor has brought, and those the owner has drained. -/
  received : List UInt8
  consumed : List UInt8
  /-- Whether an error has been reported. -/
  failed : Bool

namespace Flow

def start : Flow := ⟨buffereventNew, [], [], [], [], false⟩

/-- The owner hands `data` over, which leaves `bev`. -/
def queue (σ : Flow) (data : List UInt8) (bev : Bufferevent) : Flow :=
  { σ with
    bev := bev
    queued := σ.queued ++ data }

/-- The owner takes `len` bytes off the input. -/
def drain (σ : Flow) (len : UInt64) : Flow :=
  { σ with
    bev := { σ.bev with input := evbufferDrain σ.bev.input len }
    consumed := σ.consumed ++ σ.bev.input.visible.take len.toNat }

def tell (σ : Flow) : Option Notice → Flow
  | some (.errorcb _) => { σ with failed := true }
  | _ => σ

/-- The descriptor brings bytes where it is asked for some, which leaves `bev`. -/
def bring (σ : Flow) (fd : Delivers) (bev : Bufferevent) : Flow :=
  { σ with
    bev := bev
    received :=
      σ.received ++ ((readLimit σ.bev).elim [] fun howmuch => gotBytes (fd (want howmuch))) }

/-- The descriptor takes what it accepts off the front of the output, which leaves `bev`. -/
def take (σ : Flow) (fd : Accepts) (bev : Bufferevent) : Flow :=
  { σ with
    bev := bev
    written := σ.written ++ σ.bev.output.visible.take (taken fd σ.bev.output.visible.length) }

end Flow

/-- No byte is lost, repeated or moved in either direction. -/
structure Whole (σ : Flow) : Prop where
  written : σ.written ++ σ.bev.output.visible = σ.queued
  received : σ.received = σ.consumed ++ σ.bev.input.visible

/-- Queued output is watched for until an error is reported. -/
structure Flowing (σ : Flow) : Prop extends Whole σ where
  armed : σ.failed = false → σ.bev.enabled.has evWrite → σ.bev.output.visible ≠ [] →
    σ.bev.writeAdded = true

variable {σ σ' : Flow}

theorem flowing_start : Flowing .start where
  armed _ _ hne := absurd rfl hne
  written := rfl
  received := rfl

theorem Flowing.enable (h : Flowing σ) (events : EventBits) :
    Flowing { σ with bev := buffereventEnable σ.bev events } where
  armed hok henabled hne := by
    rw [buffereventEnable, has_or, Bool.or_eq_true] at henabled
    rw [buffereventEnable, Bool.or_eq_true]
    exact henabled.imp (fun henabled => h.armed hok henabled hne) id
  written := h.written
  received := h.received

theorem Flowing.disable (h : Flowing σ) (events : EventBits) :
    Flowing { σ with bev := buffereventDisable σ.bev events } where
  armed hok henabled hne := by
    rw [buffereventDisable, has_and_not, Bool.and_eq_true] at henabled
    rw [buffereventDisable, h.armed hok henabled.1 hne, henabled.2]
    rfl
  written := h.written
  received := h.received

theorem Flowing.setwatermark (h : Flowing σ) (events : EventBits) (lowmark highmark : Nat) :
    Flowing { σ with bev := buffereventSetwatermark σ.bev events lowmark highmark } where
  armed := h.armed
  written := h.written
  received := h.received

/-- Once it is armed, what is queued is watched for whatever was before. -/
theorem Whole.armWrite (h : Whole σ) : Flowing { σ with bev := armWrite σ.bev } := by
  rw [EventLoop.armWrite]
  split_ifs with harm
  · exact ⟨⟨h.written, h.received⟩, fun _ _ _ => rfl⟩
  · refine ⟨h, fun _ henabled hne => ?_⟩
    exact absurd ⟨henabled, List.length_pos_iff.mpr hne⟩ harm

/-- What is put behind the output queue is what was handed over. -/
theorem Whole.queue (h : Whole σ) {data : List UInt8} {output : Evbuffer}
    (houtput : output.visible = σ.bev.output.visible ++ data) :
    Whole (σ.queue data { σ.bev with output := output }) where
  written := by
    show σ.written ++ output.visible = σ.queued ++ data
    rw [houtput, ← h.written, List.append_assoc]
  received := h.received

theorem Flowing.write (h : Flowing σ) {data : List UInt8}
    (hcall : buffereventWrite σ.bev data = some bev) : Flowing (σ.queue data bev) := by
  obtain ⟨output, houtput, rfl⟩ := Option.map_eq_some_iff.mp hcall
  exact (h.toWhole.queue (visible_add houtput)).armWrite

/-- A buffer goes onto the output queue whole, and is empty afterwards. -/
theorem writeBuffer_ok {buf buf' : Evbuffer}
    (hcall : buffereventWriteBuffer bev buf = some (bev', buf')) :
    buf'.visible = [] ∧ ∃ output : Evbuffer, output.visible = bev.output.visible ++ buf.visible ∧
      bev' = armWrite { bev with output := output } := by
  rw [buffereventWriteBuffer] at hcall
  split_ifs at hcall with hlen
  · obtain ⟨⟨sealed, p⟩, hpullup, hrest⟩ := Option.bind_eq_some_iff.mp hcall
    obtain ⟨output, houtput, heq⟩ := Option.bind_eq_some_iff.mp hrest
    obtain ⟨rfl, rfl⟩ := Prod.mk.inj (Option.some.inj heq)
    obtain ⟨hvisible, hnull⟩ := visible_pullup hpullup
    have hdata : (p.bind fun p => sealed.load p (evbufferGetLength buf)).getD [] = buf.visible := by
      cases p with
      | none => exact absurd (hnull.mp rfl).1 (by decide)
      | some p =>
        rw [Option.bind_some, evbufferGetLength, pullup_load hpullup]
        rfl
    refine ⟨?_, output, ?_, rfl⟩
    · have hle : evbufferGetLength buf ≤ sealed.visible.length := (congrArg List.length hvisible).ge
      rw [sealed.visible_drain_of_le hle, hvisible]
      exact List.drop_length
    · rw [visible_add houtput, hdata]
  · obtain ⟨rfl, rfl⟩ := Prod.mk.inj (Option.some.inj hcall)
    have hempty : buf.visible = [] := List.eq_nil_of_length_eq_zero (not_not.mp hlen)
    refine ⟨hempty, bev.output, ?_, rfl⟩
    rw [hempty, List.append_nil]

theorem Flowing.writeBuffer (h : Flowing σ) {buf buf' : Evbuffer}
    (hcall : buffereventWriteBuffer σ.bev buf = some (bev, buf')) :
    Flowing (σ.queue buf.visible bev) := by
  obtain ⟨-, output, houtput, rfl⟩ := writeBuffer_ok hcall
  exact (h.toWhole.queue houtput).armWrite

theorem Flowing.drain (h : Flowing σ) {len : UInt64}
    (hfits : σ.bev.input.off + len.toNat < usizeRange) : Flowing (σ.drain len) where
  armed := h.armed
  written := h.written
  received := by
    show σ.received = σ.consumed ++ σ.bev.input.visible.take len.toNat ++
      (evbufferDrain σ.bev.input len).visible
    rw [evbufferDrain, (σ.bev.input.visible_drain_iff len.toNat_lt).mpr hfits, List.append_assoc,
      List.take_append_drop]
    exact h.received

theorem Flowing.tell (h : Flowing σ) (notice : Option Notice) : Flowing (σ.tell notice) := by
  cases notice with
  | none => exact h
  | some notice =>
    cases notice with
    | readcb => exact h
    | writecb => exact h
    | errorcb what => exact ⟨⟨h.written, h.received⟩, fun hok => by cases hok⟩

/-- An error takes both watches away, and nothing is promised of them behind it. -/
theorem Whole.report (h : Whole σ) (what : EventBits) :
    Flowing (Flow.tell { σ with bev := (reportError σ.bev what).1 } (reportError σ.bev what).2) :=
  ⟨⟨h.written, h.received⟩, fun hok => by cases hok⟩

theorem Flowing.readReady (h : Flowing σ) {fd : Delivers} {wouldBlock : Bool}
    {notice : Option Notice} (hstep : readReady fd wouldBlock σ.bev = some (bev, notice)) :
    Flowing ((σ.bring fd bev).tell notice) := by
  rw [EventLoop.readReady] at hstep
  rw [Flow.bring]
  split at hstep
  · rename_i hlimit
    obtain ⟨rfl, rfl⟩ := Prod.mk.inj (Option.some.inj hstep)
    rw [hlimit]
    exact ⟨⟨h.written, (List.append_nil _).trans h.received⟩, h.armed⟩
  · rename_i howmuch hlimit
    obtain ⟨⟨input, n⟩, hread, hrest⟩ := Option.bind_eq_some_iff.mp hstep
    rw [hlimit]
    have hflows : Flowing { σ with
        bev := { σ.bev with input := input }
        received := σ.received ++ gotBytes (fd (want howmuch)) } := by
      refine ⟨⟨h.written, ?_⟩, h.armed⟩
      show σ.received ++ gotBytes _ = σ.consumed ++ input.visible
      rw [visible_read hread, h.received, List.append_assoc]
    dsimp only at hrest
    split_ifs at hrest
    · obtain ⟨rfl, rfl⟩ := Prod.mk.inj (Option.some.inj hrest)
      exact hflows.toWhole.report _
    · obtain ⟨rfl, rfl⟩ := Prod.mk.inj (Option.some.inj hrest)
      exact hflows.toWhole.report _
    · obtain ⟨rfl, rfl⟩ := Prod.mk.inj (Option.some.inj hrest)
      exact hflows
    · obtain ⟨rfl, rfl⟩ := Prod.mk.inj (Option.some.inj hrest)
      exact hflows
    · obtain ⟨rfl, rfl⟩ := Prod.mk.inj (Option.some.inj hrest)
      exact hflows

theorem Flowing.writeQueued (h : Flowing σ) (fd : Accepts) :
    Flowing (σ.take fd (writeQueued fd σ.bev).1) := by
  have hsplit : σ.written ++ σ.bev.output.visible.take (taken fd σ.bev.output.visible.length) ++
      σ.bev.output.visible.drop (taken fd σ.bev.output.visible.length) = σ.queued := by
    rw [List.append_assoc, List.take_append_drop]
    exact h.written
  rw [EventLoop.writeQueued, Flow.take]
  split_ifs with hlen
  · refine ⟨⟨?_, h.received⟩, fun hok henabled _ => ?_⟩
    · show _ ++ (evbufferWrite σ.bev.output fd).1.visible = _
      rw [visible_write]
      exact hsplit
    · exact h.armed hok henabled fun hempty => hlen (congrArg List.length hempty)
  · have hempty : σ.bev.output.visible = [] := List.eq_nil_of_length_eq_zero (not_not.mp hlen)
    refine ⟨⟨?_, h.received⟩, h.armed⟩
    rw [hempty, List.take_nil, List.append_nil, ← hempty]
    exact h.written

/-- With nothing queued the watch may go. -/
theorem Flowing.dropWatch (h : Flowing σ) : Flowing { σ with bev := dropWatch σ.bev } := by
  rw [EventLoop.dropWatch]
  split_ifs with hempty
  · refine ⟨⟨h.written, h.received⟩, fun _ _ hne => ?_⟩
    exact absurd (List.eq_nil_of_length_eq_zero hempty) hne
  · exact h

theorem Flowing.writeReady (h : Flowing σ) {fd : Accepts} {wouldBlock : Bool}
    {notice : Option Notice} (hstep : writeReady fd wouldBlock σ.bev = (bev, notice)) :
    Flowing ((σ.take fd bev).tell notice) := by
  have hflows := h.writeQueued fd
  rw [EventLoop.writeReady] at hstep
  dsimp only at hstep
  split_ifs at hstep
  · obtain ⟨rfl, rfl⟩ := Prod.mk.inj hstep
    exact hflows.toWhole.report _
  · obtain ⟨rfl, rfl⟩ := Prod.mk.inj hstep
    exact (hflows.dropWatch).tell _
  · obtain ⟨rfl, rfl⟩ := Prod.mk.inj hstep
    exact (hflows.dropWatch).tell _

/-- What calls on a bufferevent and turns of the loop make of it. What a callback does is made of
the same steps, turns of the loop included. -/
inductive Reaches : Flow → Flow → Prop
  | refl {s} : Reaches s s
  | write {s s₁ bev} (data : List UInt8) (h : Reaches s s₁)
      (hcall : buffereventWrite s₁.bev data = some bev) :
      Reaches s (s₁.queue data bev)
  | writeBuffer {s s₁ buf buf' bev} (h : Reaches s s₁)
      (hcall : buffereventWriteBuffer s₁.bev buf = some (bev, buf')) :
      Reaches s (s₁.queue buf.visible bev)
  | enable {s s₁} (events : EventBits) (h : Reaches s s₁) :
      Reaches s { s₁ with bev := buffereventEnable s₁.bev events }
  | disable {s s₁} (events : EventBits) (h : Reaches s s₁) :
      Reaches s { s₁ with bev := buffereventDisable s₁.bev events }
  | setwatermark {s s₁} (events : EventBits) (lowmark highmark : Nat) (h : Reaches s s₁) :
      Reaches s { s₁ with bev := buffereventSetwatermark s₁.bev events lowmark highmark }
  | drain {s s₁} (len : UInt64) (h : Reaches s s₁)
      (hfits : s₁.bev.input.off + len.toNat < usizeRange) : Reaches s (s₁.drain len)
  -- the callback is the last thing this handler does, and so are the steps behind it
  | readReady {s s₁ bev notice} (fd : Delivers) (wouldBlock : Bool) (h : Reaches s s₁)
      (hstep : readReady fd wouldBlock s₁.bev = some (bev, notice)) :
      Reaches s ((s₁.bring fd bev).tell notice)
  | writeQuiet {s s₁ bev} (fd : Accepts) (wouldBlock : Bool) (h : Reaches s s₁)
      (hstep : writeReady fd wouldBlock s₁.bev = (bev, none)) :
      Reaches s { s₁.take fd bev with bev := armWrite bev }
  -- `writecb` may queue more, and the watch that was dropped is put back behind it
  | writeTold {s s₁ s₂ bev} (fd : Accepts) (wouldBlock : Bool) (h : Reaches s s₁)
      (hstep : writeReady fd wouldBlock s₁.bev = (bev, some .writecb))
      (hcb : Reaches (s₁.take fd bev) s₂) : Reaches s { s₂ with bev := armWrite s₂.bev }
  | writeFailed {s s₁ bev what} (fd : Accepts) (wouldBlock : Bool) (h : Reaches s s₁)
      (hstep : writeReady fd wouldBlock s₁.bev = (bev, some (.errorcb what))) :
      Reaches s ((s₁.take fd bev).tell (some (.errorcb what)))

theorem Reaches.flowing (h : Reaches σ σ') (hσ : Flowing σ) : Flowing σ' := by
  induction h with
  | refl => exact hσ
  | write data _ hcall ih => exact (ih hσ).write hcall
  | writeBuffer _ hcall ih => exact (ih hσ).writeBuffer hcall
  | enable events _ ih => exact (ih hσ).enable events
  | disable events _ ih => exact (ih hσ).disable events
  | setwatermark events lowmark highmark _ ih => exact (ih hσ).setwatermark events lowmark highmark
  | drain len _ hfits ih => exact (ih hσ).drain hfits
  | readReady fd wouldBlock _ hstep ih => exact (ih hσ).readReady hstep
  | writeQuiet fd wouldBlock _ hstep ih => exact ((ih hσ).writeReady hstep).toWhole.armWrite
  | writeTold fd wouldBlock _ hstep _ ih ihcb =>
    exact (ihcb ((ih hσ).writeReady hstep)).toWhole.armWrite
  | writeFailed fd wouldBlock _ hstep ih => exact (ih hσ).writeReady hstep

/-- Whatever has been called and whatever the descriptor took and brought: until an error is
reported queued output is watched for where writing is enabled, and both directions keep every
byte in order. -/
theorem bufferevent_run (h : Reaches .start σ) :
    (σ.failed = false → σ.bev.enabled.has evWrite → σ.bev.output.visible ≠ [] →
        σ.bev.writeAdded = true) ∧
      σ.written ++ σ.bev.output.visible = σ.queued ∧
      σ.received = σ.consumed ++ σ.bev.input.visible := by
  have hflowing := h.flowing flowing_start
  exact ⟨hflowing.armed, hflowing.written, hflowing.received⟩

/-- Both directions are enabled, with the owner told at one byte left to write. -/
def enabledBoth : Flow :=
  { Flow.start with
    bev := buffereventSetwatermark (buffereventEnable buffereventNew (evRead ||| evWrite))
      (evRead ||| evWrite) 1 4 }

def takesOne : Accepts := fun len => some ⟨min 1 len, by omega⟩

def bringsTwo : Delivers := fun len => if h : 2 ≤ len then some ⟨[120, 121], h⟩ else none

/-- The descriptor takes one of two bytes; the owner, told so, queues a third. Then two bytes come
in, of which the owner takes one. -/
theorem bufferevent_run_short :
    ∃ σ, Reaches .start σ ∧ σ.queued = [97, 98, 99] ∧ σ.written = [97] ∧
      σ.bev.output.visible = [98, 99] ∧ σ.received = [120, 121] ∧ σ.consumed = [120] ∧
      σ.bev.input.visible = [121] ∧ σ.bev.writeAdded = true := by
  have hboth : Reaches .start enabledBoth :=
    .setwatermark (evRead ||| evWrite) 1 4 (.enable (evRead ||| evWrite) .refl)
  have hshort := Reaches.writeTold takesOne false (.write [97, 98] hboth rfl) rfl
    (.write [99] .refl rfl)
  have hread := Reaches.drain 1 (.readReady bringsTwo false hshort rfl) (by decide)
  refine ⟨_, hread, rfl, rfl, rfl, rfl, rfl, rfl, (bufferevent_run hread).1 rfl ?_ ?_⟩
  · decide
  · decide

end Ztmux.EventLoop
