import Ztmux.Machine

/-!
Base64 as bytes.

`ntop` writes three bytes as four characters and `pton` reads them back one character at a time:
each carries six bits, and what does not fill a byte is written ahead into the next one. A target is
a list of bytes, those that have not been written being `none`.
-/

namespace Ztmux.Base64

abbrev Text := List UInt8

/-- How a call stops: the input is refused, an index is outside the target, a byte is read that has
not been written, or an allocation of no bytes is asked for. -/
inductive Stop
  | invalid
  | outside
  | unwritten
  | zeroSize
  deriving DecidableEq, Repr

abbrev Code := Except Stop

abbrev Target := List (Option UInt8)

/-- Write a byte of the target. -/
def store (dst : Target) (i : Nat) (b : UInt8) : Code Target :=
  if i < dst.length then pure (dst.set i (some b)) else throw .outside

/-- Read a byte of the target. -/
def cur (dst : Target) (i : Nat) : Code UInt8 :=
  match dst[i]? with
  | none => throw .outside
  | some none => throw .unwritten
  | some (some b) => pure b

/-- The first bytes of the target, as the slice that is returned. -/
def slice (dst : Target) : Nat → Code Text
  | 0 => pure []
  | n + 1 => do
      let bs ← slice dst n
      let b ← cur dst n
      pure (bs ++ [b])

def ALPHABET : Text :=
  "ABCDEFGHIJKLMNOPQRSTUVWXYZabcdefghijklmnopqrstuvwxyz0123456789+/".toList.map fun c =>
    c.toNat.toUInt8

/-- Reverse map, one slot for each byte: the six bits of a character of the alphabet, 255 for the
others. -/
def REVERSE : Text :=
  (List.range 64).foldl (fun tmp i => tmp.set (ALPHABET.getD i 0).toNat i.toUInt8)
    (List.replicate 256 255)

def pad : UInt8 := 61

def isAsciiWhitespace (c : UInt8) : Bool := c == 32 || c == 9 || c == 10 || c == 12 || c == 13

/-! ### Encoding -/

/-- The character for the low six bits. -/
def enc (e : UInt8) : UInt8 := ALPHABET.getD (e &&& 63).toNat 0

/-- Write the characters of what is left of the source from index `i` on. -/
def encodeChunks : Text → Target → Nat → Code (Target × Nat)
  | a :: b :: c :: src, dst, i => do
      let dst ← store dst i (enc (a >>> 2))
      let dst ← store dst (i + 1) (enc (a <<< 4 ||| b >>> 4))
      let dst ← store dst (i + 2) (enc (b <<< 2 ||| c >>> 6))
      let dst ← store dst (i + 3) (enc c)
      encodeChunks src dst (i + 4)
  | [a, b], dst, i => do
      let dst ← store dst i (enc (a >>> 2))
      let dst ← store dst (i + 1) (enc (a <<< 4 ||| b >>> 4))
      let dst ← store dst (i + 2) (enc (b <<< 2))
      let dst ← store dst (i + 3) pad
      pure (dst, i + 4)
  | [a], dst, i => do
      let dst ← store dst i (enc (a >>> 2))
      let dst ← store dst (i + 1) (enc (a <<< 4))
      let dst ← store dst (i + 2) pad
      let dst ← store dst (i + 3) pad
      pure (dst, i + 4)
  | [], dst, i => pure (dst, i)

def divCeil (n d : Nat) : Nat := (n + d - 1) / d

/-- Encode. -/
def ntop (src : Text) (targsize : Nat) : Code Text :=
  if targsize < divCeil src.length 3 * 4 + 1 then throw .invalid
  else do
    let (dst, i) ← encodeChunks src (List.replicate targsize none) 0
    let dst ← store dst i 0
    slice dst i

/-! ### Decoding -/

structure Decoder where
  dst : Target
  tarindex : Nat
  state : Nat
  deriving Repr

section

variable (targsize : Nat)

/-- Write the bits that do not fill a byte ahead into the next one. At the end of the target they
have to be zero. -/
def ahead (dst : Target) (i : Nat) (nextbyte : UInt8) : Code Target :=
  if i < targsize then store dst i nextbyte
  else if nextbyte ≠ 0 then throw .invalid
  else pure dst

/-- One character, as its six bits. -/
def put (pos : UInt8) (s : Decoder) : Code Decoder :=
  match s.state with
  | 0 =>
      if targsize ≤ s.tarindex then throw .invalid
      else do
        let dst ← store s.dst s.tarindex (pos <<< 2)
        pure ⟨dst, s.tarindex, 1⟩
  | 1 =>
      if targsize ≤ s.tarindex then throw .invalid
      else do
        let b ← cur s.dst s.tarindex
        let dst ← store s.dst s.tarindex (b ||| pos >>> 4)
        let dst ← ahead targsize dst (s.tarindex + 1) ((pos &&& 0x0f) <<< 4)
        pure ⟨dst, s.tarindex + 1, 2⟩
  | 2 =>
      if targsize ≤ s.tarindex then throw .invalid
      else do
        let b ← cur s.dst s.tarindex
        let dst ← store s.dst s.tarindex (b ||| pos >>> 2)
        let dst ← ahead targsize dst (s.tarindex + 1) ((pos &&& 0x03) <<< 6)
        pure ⟨dst, s.tarindex + 1, 3⟩
  | _ =>
      if targsize ≤ s.tarindex then throw .invalid
      else do
        let b ← cur s.dst s.tarindex
        let dst ← store s.dst s.tarindex (b ||| pos)
        pure ⟨dst, s.tarindex + 1, 0⟩

/-- The loop over the text: what is left after a pad, if there was one. -/
def scan : Text → Decoder → Code (Decoder × Option Text)
  | [], s => pure (s, none)
  | ch :: src, s =>
      if isAsciiWhitespace ch then scan src s
      else if ch = pad then pure (s, some src)
      else
        let pos := REVERSE.getD ch.toNat 255
        if pos = 255 then throw .invalid
        else do
          let s ← put targsize pos s
          scan src s

/-- Skip whitespace and require a second pad. -/
def secondPad : Text → Code Text
  | [] => throw .invalid
  | c :: src => if isAsciiWhitespace c then secondPad src else if c = pad then pure src
      else throw .invalid

/-- Only whitespace may follow, and the bits after the last byte must be zero. -/
def tail (src : Text) (s : Decoder) : Code Decoder :=
  if !src.all isAsciiWhitespace then throw .invalid
  else if s.tarindex < targsize then do
    let b ← cur s.dst s.tarindex
    if b ≠ 0 then throw .invalid else pure s
  else pure s

/-- What is checked after the loop. -/
def finish (s : Decoder) : Option Text → Code Decoder
  | some src =>
      match s.state with
      | 0 => throw .invalid
      | 1 => throw .invalid
      | 2 => do
          let src ← secondPad src
          tail targsize src s
      | _ => tail targsize src s
  | none => if s.state ≠ 0 then throw .invalid else pure s

/-- Decode into a target that is `room` bytes long. -/
def ptonInto (room : Nat) (src : Text) : Code Text := do
  let (s, rest) ← scan targsize src ⟨List.replicate room none, 0, 0⟩
  let s ← finish targsize s rest
  slice s.dst s.tarindex

end

/-- Decode. -/
def pton (src : Text) (targsize : Nat) : Code Text := ptonInto targsize targsize src

example : ntop [77, 97] 5 = .ok [84, 87, 69, 61] := by decide

example : pton [84, 87, 32, 69, 61] 2 = .ok [77, 97] := by decide +kernel

end Ztmux.Base64
