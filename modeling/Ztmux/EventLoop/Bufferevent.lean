import Ztmux.EventLoop.Queue

/-!
`bufferevent`, a descriptor with an input and an output queue
(`extensions/event_loop/bufev.rs`). Its two events are persistent, so one that is registered
stays so until it is deleted.

A handler is modelled up to where it calls its owner back, with what the owner is told.
-/

namespace Ztmux.EventLoop

abbrev EventBits := BitVec 16

def evRead : EventBits := 0x02

def evWrite : EventBits := 0x04

/-- The source's `events & bit != 0`. -/
def EventBits.has (events bit : EventBits) : Bool := events &&& bit != 0

/-- What `errorcb` is told. -/
def evbufferReading : EventBits := 0x01

def evbufferWriting : EventBits := 0x02

def evbufferEof : EventBits := 0x10

def evbufferError : EventBits := 0x20

structure Watermark where
  low : Nat
  high : Nat

structure Bufferevent where
  /-- Whether the event is registered with the loop. -/
  readAdded : Bool
  writeAdded : Bool
  input : Evbuffer
  output : Evbuffer
  wmRead : Watermark
  wmWrite : Watermark
  enabled : EventBits

def buffereventNew : Bufferevent where
  readAdded := false
  writeAdded := false
  input := evbufferNew
  output := evbufferNew
  wmRead := ⟨0, 0⟩
  wmWrite := ⟨0, 0⟩
  enabled := 0

/-- The callback a handler makes. One that the owner has left out is not heard. -/
inductive Notice
  | readcb
  | writecb
  | errorcb (what : EventBits)
  deriving DecidableEq, Repr

def buffereventEnable (bev : Bufferevent) (events : EventBits) : Bufferevent :=
  { bev with
    enabled := bev.enabled ||| events
    readAdded := bev.readAdded || events.has evRead
    writeAdded := bev.writeAdded || events.has evWrite }

def buffereventDisable (bev : Bufferevent) (events : EventBits) : Bufferevent :=
  { bev with
    enabled := bev.enabled &&& ~~~events
    readAdded := bev.readAdded && !events.has evRead
    writeAdded := bev.writeAdded && !events.has evWrite }

def buffereventSetwatermark (bev : Bufferevent) (events : EventBits) (lowmark highmark : Nat) :
    Bufferevent :=
  { bev with
    wmRead := if events.has evRead then ⟨lowmark, highmark⟩ else bev.wmRead
    wmWrite := if events.has evWrite then ⟨lowmark, highmark⟩ else bev.wmWrite }

/-- Watch for writability where writing is enabled and something is queued. -/
def armWrite (bev : Bufferevent) : Bufferevent :=
  if bev.enabled.has evWrite ∧ 0 < evbufferGetLength bev.output then
    { bev with writeAdded := true }
  else bev

def buffereventWrite (bev : Bufferevent) (data : List UInt8) : Option Bufferevent :=
  (evbufferAdd bev.output data).map fun output => armWrite { bev with output := output }

/-- Everything in `buf` goes onto the output queue. -/
def buffereventWriteBuffer (bev : Bufferevent) (buf : Evbuffer) :
    Option (Bufferevent × Evbuffer) := do
  let len := evbufferGetLength buf
  if len ≠ 0 then
    let (buf, p) ← evbufferPullup buf (-1)
    let data := (p.bind fun p => buf.load p len).getD []
    let output ← evbufferAdd bev.output data
    some (armWrite { bev with output := output }, buf.drain len)
  else some (armWrite bev, buf)

/-- Stop watching the descriptor and report `what` to the owner. -/
def reportError (bev : Bufferevent) (what : EventBits) : Bufferevent × Option Notice :=
  ({ bev with
    readAdded := false
    writeAdded := false }, some (.errorcb what))

def cIntMax : Nat := 2 ^ 31 - 1

/-- How far a read may go below the high watermark; `none` at or above it. -/
def readLimit (bev : Bufferevent) : Option Int :=
  if bev.wmRead.high = 0 then some (-1)
  else
    let held := evbufferGetLength bev.input
    if bev.wmRead.high ≤ held then none
    else some (min (bev.wmRead.high - held) cIntMax : Nat)

/-- The descriptor has data. `wouldBlock` is what `errno` says of a read that failed. -/
def readReady (fd : Delivers) (wouldBlock : Bool) (bev : Bufferevent) :
    Option (Bufferevent × Option Notice) :=
  match readLimit bev with
  -- at the limit, the owner has to drain the queue and enable reading again
  | none => some ({ bev with readAdded := false }, none)
  | some howmuch => do
    let (input, n) ← evbufferRead bev.input fd howmuch
    let bev := { bev with input := input }
    if n ≤ 0 then
      if n = 0 then some (reportError bev (evbufferReading ||| evbufferEof))
      else if !wouldBlock then some (reportError bev (evbufferReading ||| evbufferError))
      else some (bev, none)
    else if bev.wmRead.low ≤ evbufferGetLength bev.input then some (bev, some .readcb)
    else some (bev, none)

/-- What is queued is written as far as the descriptor takes it, with the count. -/
def writeQueued (fd : Accepts) (bev : Bufferevent) : Bufferevent × Int :=
  if evbufferGetLength bev.output ≠ 0 then
    ({ bev with output := (evbufferWrite bev.output fd).1 }, (evbufferWrite bev.output fd).2)
  else (bev, 0)

/-- With nothing left to send, the loop would wake on every turn. -/
def dropWatch (bev : Bufferevent) : Bufferevent :=
  if evbufferGetLength bev.output = 0 then { bev with writeAdded := false } else bev

/-- The descriptor accepts more. `armWrite` comes after this and the callback, except after an
error. -/
def writeReady (fd : Accepts) (wouldBlock : Bool) (bev : Bufferevent) :
    Bufferevent × Option Notice :=
  let (bev, n) := writeQueued fd bev
  if n < 0 ∧ !wouldBlock then reportError bev (evbufferWriting ||| evbufferError)
  else
    let bev := dropWatch bev
    (bev, if evbufferGetLength bev.output ≤ bev.wmWrite.low then some .writecb else none)

end Ztmux.EventLoop
