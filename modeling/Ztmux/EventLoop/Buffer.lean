import Ztmux.Library.Endings

/-!
`evbuffer`, the byte queue the event loop hands to buffered events
(`extensions/event_loop/buffer.rs`): a vector with a moving head, compacted once enough of it
has been drained. A release build wraps sums of sizes.
-/

namespace Ztmux.EventLoop

/-- Sizes are `usize` and wrap here. -/
def usizeRange : Nat := 2 ^ 64

/-- A `Vec` holds no more than this; asking for more aborts. -/
def isizeMax : Nat := 2 ^ 63 - 1

/-- A `Vec<u8>`. Its bytes are in the block of storage `place`, and growing moves them to
another one. -/
structure Vec where
  bytes : List UInt8
  cap : Nat
  place : Nat
  /-- The byte of spare capacity after the last one, where it is known. -/
  spare : Option UInt8
  fits : bytes.length ≤ cap
  small : cap ≤ isizeMax

namespace Vec

def new : Vec := ⟨[], 0, 0, none, le_rfl, Nat.zero_le _⟩

/-- Room for `additional` more bytes; `none` where the allocation aborts. -/
def reserve (v : Vec) (additional : Nat) :
    Option {v' : Vec // v'.bytes = v.bytes ∧ v.bytes.length + additional ≤ v'.cap} :=
  if h : v.bytes.length + additional ≤ v.cap then some ⟨v, rfl, h⟩
  else
    let cap := max (max (2 * v.cap) (v.bytes.length + additional)) 8
    if hcap : cap ≤ isizeMax then
      some ⟨⟨v.bytes, cap, v.place + 1, none, by omega, hcap⟩, rfl, by dsimp only; omega⟩
    else none

/-- The bytes of `v` with `bs` behind them, for which there is room. -/
def push (v : Vec) (bs : List UInt8) (h : v.bytes.length + bs.length ≤ v.cap) : Vec :=
  ⟨v.bytes ++ bs, v.cap, v.place, none, by rwa [List.length_append], v.small⟩

@[simp] theorem push_bytes (v : Vec) (bs : List UInt8) (h) : (v.push bs h).bytes = v.bytes ++ bs :=
  rfl

def extendFromSlice (v : Vec) (bs : List UInt8) : Option {v' : Vec // v'.bytes = v.bytes ++ bs} :=
  (v.reserve bs.length).map fun v' =>
    ⟨v'.1.push bs (by rw [v'.2.1]; exact v'.2.2), by rw [push_bytes, v'.2.1]⟩

/-- `bs` in place of the bytes from `start` on. -/
def overwrite (v : Vec) (start : Nat) (bs : List UInt8) (h : start + bs.length ≤ v.bytes.length) :
    Vec :=
  ⟨v.bytes.take start ++ bs ++ v.bytes.drop (start + bs.length), v.cap, v.place, v.spare, by
    have hfits := v.fits
    simp only [List.length_append, List.length_take, List.length_drop]
    omega, v.small⟩

/-- The first `n` bytes. What is dropped stays in the spare capacity. -/
def truncate (v : Vec) (n : Nat) : Vec :=
  ⟨v.bytes.take n, v.cap, v.place, if n < v.bytes.length then v.bytes[n]? else v.spare,
    (List.length_take_le' ..).trans v.fits, v.small⟩

def clear (v : Vec) : Vec := v.truncate 0

/-- `drain(..n)`: the rest moves to the front. -/
def drainFront (v : Vec) (n : Nat) : Vec :=
  ⟨v.bytes.drop n, v.cap, v.place, none, by
    rw [List.length_drop]
    exact (Nat.sub_le ..).trans v.fits, v.small⟩

/-- What is written to the first byte of spare capacity. -/
def writeSpare (v : Vec) (b : UInt8) : Vec := { v with spare := some b }

end Vec

/-- Bytes of drained head tolerated before the buffer is compacted. -/
def compactThreshold : Nat := 4096

/-- How much `evbufferRead` takes for a negative `howmuch`. -/
def maxRead : Nat := 4096

structure Evbuffer where
  data : Vec
  /-- Bytes at the front of `data` that have been drained. -/
  off : Nat
  within : off ≤ data.bytes.length
  compact : off < compactThreshold

/-- The bytes not drained yet. -/
def Evbuffer.visible (b : Evbuffer) : List UInt8 := b.data.bytes.drop b.off

def evbufferNew : Evbuffer := ⟨Vec.new, 0, le_rfl, by decide⟩

def evbufferGetLength (b : Evbuffer) : Nat := b.visible.length

/-- A position in a block of storage. -/
structure Pointer where
  place : Nat
  index : Nat
  deriving DecidableEq, Repr

/-- The `n` bytes at `p`, where they are bytes of the buffer or the known byte after them. -/
def Evbuffer.load (b : Evbuffer) (p : Pointer) (n : Nat) : Option (List UInt8) :=
  let storage := b.data.bytes ++ b.data.spare.toList
  if p.place = b.data.place ∧ p.index + n ≤ storage.length then
    some ((storage.drop p.index).take n)
  else none

/-- Room for one more byte, and a NUL in it. -/
def Evbuffer.sealed (b : Evbuffer) : Option Evbuffer :=
  (b.data.reserve 1).map fun data =>
    ⟨data.1.writeSpare 0, b.off, by rw [Vec.writeSpare, data.2.1]; exact b.within, b.compact⟩

/-- Where the head stands after `n` bytes are dropped. -/
def Evbuffer.advanced (b : Evbuffer) (n : Nat) : Nat :=
  min ((b.off + n) % usizeRange) b.data.bytes.length

def Evbuffer.drain (b : Evbuffer) (n : Nat) : Evbuffer :=
  if b.advanced n = b.data.bytes.length then
    ⟨b.data.clear, 0, Nat.zero_le _, by decide⟩
  else if h : compactThreshold ≤ b.advanced n then
    ⟨b.data.drainFront (b.advanced n), 0, Nat.zero_le _, by decide⟩
  else
    ⟨b.data, b.advanced n, Nat.min_le_right .., not_le.mp h⟩

/-- The buffer with `data` for its vector, which still has the drained head. -/
def Evbuffer.grown (b : Evbuffer) (data : Vec) (h : b.data.bytes.length ≤ data.bytes.length) :
    Evbuffer :=
  ⟨data, b.off, b.within.trans h, b.compact⟩

def evbufferAdd (b : Evbuffer) (bs : List UInt8) : Option Evbuffer :=
  if bs ≠ [] then
    (b.data.extendFromSlice bs).map fun data => b.grown data.1 (by rw [data.2]; simp)
  else some b

/-- What the kernel answers to a write of `len` bytes: how many it takes, or `none` for -1. -/
abbrev Accepts := (len : Nat) → Option (Fin (len + 1))

/-- What the kernel answers to a read of `want` bytes: those it has, or `none` for -1. -/
abbrev Delivers := (want : Nat) → Option {bs : List UInt8 // bs.length ≤ want}

/-- The bytes of a read, where -1 brings none. -/
def gotBytes {want : Nat} (got : Option {bs : List UInt8 // bs.length ≤ want}) : List UInt8 :=
  match got with
  | none => []
  | some bs => bs.1

theorem gotBytes_length {want : Nat} (got : Option {bs : List UInt8 // bs.length ≤ want}) :
    (gotBytes got).length ≤ want := by
  cases got with
  | none => exact Nat.zero_le _
  | some bs => exact bs.2

/-- The source's `n as i32`, where -1 stands for a failed call. -/
def countI32 (n : Option Nat) : Int :=
  match n with
  | none => -1
  | some n => (n : Int).bmod (2 ^ 32)

/-- The buffer afterwards, and the count. -/
def evbufferWrite (b : Evbuffer) (fd : Accepts) : Evbuffer × Int :=
  let len := b.visible.length
  if len = 0 then (b, 0)
  else
    match fd len with
    | none => (b, -1)
    | some n => (if 0 < n.val then b.drain n else b, countI32 (some n.val))

/-- The bytes a read puts behind the first `start`, where `data` has room made for them. -/
def Vec.received (data : Vec) (start : Nat) (bs : List UInt8)
    (h : start + bs.length ≤ data.bytes.length) : Vec :=
  (data.overwrite start bs h).truncate (start + bs.length)

theorem Vec.received_bytes (data : Vec) (start : Nat) (bs : List UInt8)
    (h : start + bs.length ≤ data.bytes.length) :
    (data.received start bs h).bytes = data.bytes.take start ++ bs := by
  have hstart : (data.bytes.take start ++ bs).length = start + bs.length := by
    rw [List.length_append, List.length_take]
    omega
  change (data.bytes.take start ++ bs ++ data.bytes.drop _).take (start + bs.length) = _
  rw [← hstart, List.take_left]

/-- How many bytes a read asks for. -/
def want (howmuch : Int) : Nat := if howmuch < 0 then maxRead else howmuch.toNat

/-- The buffer afterwards, and the count. -/
def evbufferRead (b : Evbuffer) (fd : Delivers) (howmuch : Int) : Option (Evbuffer × Int) :=
  if want howmuch = 0 then some (b, 0)
  else
    let start := b.data.bytes.length
    let got := fd (want howmuch)
    (b.data.extendFromSlice (List.replicate (want howmuch) 0)).map fun data =>
      (b.grown (data.1.received start (gotBytes got) (by
          rw [data.2, List.length_append, List.length_replicate]
          exact Nat.add_le_add_left (gotBytes_length got) _)) (by
        rw [Vec.received_bytes, data.2, List.take_left, List.length_append]
        exact Nat.le_add_right ..),
        countI32 (got.map fun bs => bs.1.length))

def evbufferDrain (b : Evbuffer) (len : UInt64) : Evbuffer := b.drain len.toNat

/-- The pointer is null where the buffer holds fewer than `size` bytes. -/
def evbufferPullup (b : Evbuffer) (size : Int) : Option (Evbuffer × Option Pointer) :=
  if 0 < size ∧ b.visible.length < size.toNat then some (b, none)
  else b.sealed.map fun b => (b, some ⟨b.data.place, b.off⟩)

/-- Line ending to split on. -/
inductive EolStyle
  | any
  | crlf
  | crlfStrict
  | lf
  | nul
  deriving DecidableEq, Repr

def cr : UInt8 := 13

def lf : UInt8 := 10

def isEol (b : UInt8) : Bool := b == cr || b == lf

/-- `memchr::memchr`. -/
def memchr (b : UInt8) (data : List UInt8) : Option Nat := data.findIdx? (· == b)

/-- `memchr::memmem::find`. -/
def memmem (needle : List UInt8) : List UInt8 → Option Nat
  | [] => if needle = [] then some 0 else none
  | b :: data =>
    if needle.isPrefixOf (b :: data) then some 0 else (memmem needle data).map (· + 1)

/-- The length of the line and the length of its ending. -/
def findEol (data : List UInt8) (style : EolStyle) : Option (Nat × Nat) :=
  match style with
  | .any => (data.findIdx? isEol).map fun pos => (pos, ((data.drop pos).takeWhile isEol).length)
  | .crlf => (data.findIdx? (· == lf)).map fun pos =>
      if 0 < pos ∧ data[pos - 1]? = some cr then (pos - 1, 2) else (pos, 1)
  | .crlfStrict => (memmem [cr, lf] data).map fun pos => (pos, 2)
  | .lf => (memchr lf data).map fun pos => (pos, 1)
  | .nul => (memchr 0 data).map fun pos => (pos, 1)

/-- The line, where there is one; its copy ends with a NUL, which is not counted. -/
def evbufferReadln (b : Evbuffer) (style : EolStyle) : Evbuffer × Option (List UInt8) :=
  match findEol b.visible style with
  | none => (b, none)
  | some (lineLen, eolLen) => (b.drain (lineLen + eolLen), some (b.visible.take lineLen))

def evbufferReadline (b : Evbuffer) : Evbuffer × Option (List UInt8) := evbufferReadln b .any

end Ztmux.EventLoop
