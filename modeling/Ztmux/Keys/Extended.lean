import Ztmux.Utf8.Decode
import Ztmux.Library.Decimal

/-!
Extended keys.

A pane that asks for it gets a key with its modifiers as numbers, and so does the terminal of a
nested server, which reads them back. The reader looks for the end of the numbers with a variable of
the same name as the one that it goes on with, and no sequence is ever read.
-/

namespace Ztmux.Keys.Extended

open Utf8

/-! ### Model -/

def KEYC_NONE : UInt64 := 0xff000000000

def KEYC_UNKNOWN : UInt64 := 0xfe000000000

def KEYC_BASE : UInt64 := 0x10e000

def KEYC_BSPACE : UInt64 := KEYC_BASE + 1262

def KEYC_BTAB : UInt64 := KEYC_BASE + 1281

def KEYC_BASE_END : UInt64 := KEYC_BASE + 1304

def KEYC_USER : UInt64 := 0x10f000

def KEYC_USER_END : UInt64 := KEYC_USER + 1000

def KEYC_META : UInt64 := 0x100000000000

def KEYC_CTRL : UInt64 := 0x200000000000

def KEYC_SHIFT : UInt64 := 0x400000000000

def KEYC_IMPLIED_META : UInt64 := 0x8000000000000

def KEYC_MASK_MODIFIERS : UInt64 := 0xf00000000000

def KEYC_MASK_KEY : UInt64 := 0xfffffffffff

def KEYC_IS_UNICODE (key : UInt64) : Bool :=
  let masked := key &&& KEYC_MASK_KEY
  decide (masked ≠ KEYC_NONE ∧ masked ≠ KEYC_UNKNOWN ∧ 0x7f < masked ∧
    ¬ (KEYC_BASE ≤ masked ∧ masked < KEYC_BASE_END) ∧
    ¬ (KEYC_USER ≤ masked ∧ masked < KEYC_USER_END))

/-- What the C library knows: the code point of a character and its bytes, its width, and the number
that a text begins with. -/
structure Libc where
  mbtowc : List UInt8 → Option Nat
  wctomb : Int → List UInt8
  width : Width
  u : List UInt8 → Option (UInt32 × List UInt8)

/-- The code point of a character. That of the character 0 is an error. -/
def utf8Towc (libc : Libc) (ud : Utf8Data) : Option Nat :=
  (libc.mbtowc ud.initializedSlice).bind fun wc => if wc = 0 then none else some wc

def utf8Fromwc (libc : Libc) (wc : Int) : Option Utf8Data :=
  let bytes := libc.wctomb wc
  if bytes = [] then none
  else (libc.width bytes).map fun width =>
    ⟨fun i => bytes.getD i 0, UInt8.ofNat bytes.length, UInt8.ofNat bytes.length, width⟩

def modifierByte (key : UInt64) : Option UInt8 :=
  let modifiers := key &&& KEYC_MASK_MODIFIERS
  if modifiers = KEYC_SHIFT then some 0x32
  else if modifiers = KEYC_META then some 0x33
  else if modifiers = KEYC_SHIFT ||| KEYC_META then some 0x34
  else if modifiers = KEYC_CTRL then some 0x35
  else if modifiers = KEYC_SHIFT ||| KEYC_CTRL then some 0x36
  else if modifiers = KEYC_META ||| KEYC_CTRL then some 0x37
  else if modifiers = KEYC_SHIFT ||| KEYC_META ||| KEYC_CTRL then some 0x38
  else none

/-- The number of a key: a code point or the key itself. -/
def keyNumber (libc : Libc) (table : Utf8Table) (key : UInt64) : Exec (Option Nat) :=
  if KEYC_IS_UNICODE key then do
    let ud ← utf8ToData table (key &&& KEYC_MASK_KEY).toUInt32
    pure (utf8Towc libc ud)
  else pure (some (key &&& KEYC_MASK_KEY).toNat)

/-- The start of a sequence, `ESC [`. -/
def csi : List UInt8 := [0x1b, 0x5b]

/-- The sequence of the format that is set; 1 is the one of xterm. -/
def sequence (format : Int) (modifier : UInt8) (number : Nat) : List UInt8 :=
  if format = 1 then csi ++ [0x32, 0x37, 0x3b, modifier, 0x3b] ++ decimalBytes number ++ [0x7e]
  else csi ++ decimalBytes number ++ [0x3b, modifier, 0x75]

/-- What is written for a key, if it is an extended one. -/
def inputKeyExtended (libc : Libc) (table : Utf8Table) (format : Int) (key : UInt64) :
    Exec (Option (List UInt8)) :=
  match modifierByte key with
  | none => .ok none
  | some modifier => do
      let number ← keyNumber libc table key
      pure (number.map (sequence format modifier))

/-- What is read: 0 for a key, 1 if there may be more of it and -1 if it is none. -/
structure Answer where
  result : Int
  size : Nat
  key : Option UInt64
  deriving DecidableEq

def Answer.no : Answer := ⟨-1, 0, none⟩

def Answer.more : Answer := ⟨1, 0, none⟩

def sizeOfTmp : Nat := 64

/-- Where the loop over the numbers stops. -/
def terminator (buf : List UInt8) : Nat → Nat → Nat
  | 0, stop => stop
  | n + 1, stop =>
      if buf.getD stop 0 = 0x7e then stop
      else if !isDigit (buf.getD stop 0) && buf.getD stop 0 ≠ 0x3b then stop
      else terminator buf n (stop + 1)

/-- `27;%u;%u` -/
def scanTilde (libc : Libc) (tmp : List UInt8) : Option (UInt32 × UInt32) :=
  if tmp.take 3 = [0x32, 0x37, 0x3b] then
    (libc.u (tmp.drop 3)).bind fun m =>
      if m.2.head? = some 0x3b then (libc.u m.2.tail).map fun n => (n.1, m.1) else none
  else none

/-- `%u;%u` -/
def scanPlain (libc : Libc) (tmp : List UInt8) : Option (UInt32 × UInt32) :=
  (libc.u tmp).bind fun n =>
    if n.2.head? = some 0x3b then (libc.u n.2.tail).map fun m => (n.1, m.1) else none

def withModifiers (modifiers : UInt32) (nkey : UInt64) : UInt64 :=
  if 0 < modifiers then
    let modifiers := modifiers - 1
    let nkey := if modifiers &&& 1 ≠ 0 then nkey ||| KEYC_SHIFT else nkey
    let nkey := if modifiers &&& 2 ≠ 0 then nkey ||| (KEYC_META ||| KEYC_IMPLIED_META) else nkey
    let nkey := if modifiers &&& 4 ≠ 0 then nkey ||| KEYC_CTRL else nkey
    if modifiers &&& 8 ≠ 0 then nkey ||| (KEYC_META ||| KEYC_IMPLIED_META) else nkey
  else nkey

def backtab (nkey : UInt64) : UInt64 :=
  if nkey &&& KEYC_MASK_KEY = 0x09 ∧ nkey &&& KEYC_SHIFT ≠ 0 then
    KEYC_BTAB ||| (nkey &&& ~~~KEYC_MASK_KEY &&& ~~~KEYC_SHIFT)
  else nkey

def dropShift (nkey : UInt64) : UInt64 :=
  let onlykey := nkey &&& KEYC_MASK_KEY
  if ((0x20 < onlykey ∧ onlykey < 0x7f) ∨ KEYC_IS_UNICODE nkey = true) ∧
      nkey &&& KEYC_MASK_MODIFIERS = KEYC_SHIFT then nkey &&& ~~~KEYC_SHIFT
  else nkey

def internalKey (libc : Libc) (table : Utf8Table) (nkey : UInt64) :
    Exec (Utf8Table × Option UInt64) :=
  if nkey ≠ KEYC_BSPACE ∧ nkey &&& ~~~0x7f ≠ 0 then
    match utf8Fromwc libc (wrapI32 (nkey.toNat : Int)) with
    | none => .ok (table, none)
    | some ud => do
        let r ← utf8FromData table ud
        pure (r.1, if r.2.1 = .done then some r.2.2.toUInt64 else none)
  else .ok (table, some nkey)

/-- The key of the numbers that were read. -/
def storeKey (libc : Libc) (table : Utf8Table) (bspace : UInt8) (size : Nat)
    (number modifiers : UInt32) :
    Exec (Utf8Table × Answer) := do
  let nkey := if bspace ≠ 0 ∧ number = bspace.toUInt32 then KEYC_BSPACE else number.toUInt64
  let r ← internalKey libc table nkey
  match r.2 with
  | none => pure (r.1, ⟨-1, size, none⟩)
  | some nkey => pure (r.1, ⟨0, size, some (dropShift (backtab (withModifiers modifiers nkey)))⟩)

/-- What is done once the end of the numbers is known. -/
def readEnd (libc : Libc) (table : Utf8Table) (bspace : UInt8) (buf : List UInt8) (stop : Nat) :
    Exec (Utf8Table × Answer) :=
  if stop = buf.length then .ok (table, .more)
  else if stop = sizeOfTmp ∨ (buf.getD stop 0 ≠ 0x7e ∧ buf.getD stop 0 ≠ 0x75) then .ok (table, .no)
  else
    let tmp := (buf.drop 2).take stop
    let numbers := if buf.getD stop 0 = 0x7e then scanTilde libc tmp else scanPlain libc tmp
    match numbers with
    | none => .ok (table, .no)
    | some n => storeKey libc table bspace (stop + 1) n.1 n.2

/-- Read an extended key. The backspace key is the one of the terminal. -/
def ttyKeysExtendedKey (libc : Libc) (table : Utf8Table) (bspace : UInt8) (buf : List UInt8) :
    Exec (Utf8Table × Answer) :=
  match buf with
  | [] => .error .outOfBounds
  | b :: rest =>
      if b ≠ 0x1b then .ok (table, .no)
      else match rest with
        | [] => .ok (table, .more)
        | c :: rest' =>
            if c ≠ 0x5b then .ok (table, .no)
            else if rest' = [] then .ok (table, .more)
            else
              let stop := 0
              -- The place that the loop finds is lost: its variable hides the one outside.
              let _ := terminator buf (min buf.length sizeOfTmp - 2) 2
              readEnd libc table bspace buf stop

/-! ### Reading back -/

/-- The key that is to be read back: a meta key is marked as one that was sent so, the backspace key
of the terminal is a key of its own, and what shift does to tabs and to characters is known. -/
def normalised (bspace : UInt8) (key : UInt64) : UInt64 :=
  let onlykey := key &&& KEYC_MASK_KEY
  let nkey := if bspace ≠ 0 ∧ onlykey = bspace.toUInt64 then KEYC_BSPACE else onlykey
  let nkey := nkey ||| (key &&& KEYC_MASK_MODIFIERS)
  let nkey := if key &&& KEYC_META ≠ 0 then nkey ||| KEYC_IMPLIED_META else nkey
  dropShift (backtab nkey)

/-- A key is written and read back, whatever comes after it, and what is not all of it is a part of
a key. -/
def ReadsBack (libc : Libc) (table : Utf8Table) (bspace : UInt8) (format : Int) (key : UInt64) :
    Prop :=
  ∃ seq, inputKeyExtended libc table format key = .ok (some seq) ∧
    (∀ rest, ∃ table', ttyKeysExtendedKey libc table bspace (seq ++ rest) =
      .ok (table', ⟨0, seq.length, some (normalised bspace key)⟩)) ∧
    ∀ part, part <+: seq → part ≠ [] → part ≠ seq →
      ∃ table', ttyKeysExtendedKey libc table bspace part = .ok (table', .more)

variable {libc : Libc} {table : Utf8Table} {format : Int} {key : UInt64}

/-- What starts like a sequence is none once there is more of it. -/
theorem ttyKeysExtendedKey_csi (libc : Libc) (table : Utf8Table) (bspace : UInt8)
    {rest : List UInt8}
    (h : rest ≠ []) : ttyKeysExtendedKey libc table bspace (csi ++ rest) = .ok (table, .no) := by
  rw [csi, List.cons_append, List.cons_append, List.nil_append, ttyKeysExtendedKey]
  dsimp only
  rw [if_neg (by decide), if_neg (by decide), if_neg h, readEnd, if_neg (by simp), if_pos (.inr (by
    change (0x1b : UInt8) ≠ 0x7e ∧ (0x1b : UInt8) ≠ 0x75
    decide))]

theorem inputKeyExtended_csi {seq : List UInt8}
    (h : inputKeyExtended libc table format key = .ok (some seq)) :
    ∃ rest, rest ≠ [] ∧ seq = csi ++ rest := by
  rw [inputKeyExtended] at h
  cases hmodifier : modifierByte key with
  | none =>
      rw [hmodifier] at h
      cases h
  | some modifier =>
      rw [hmodifier] at h
      obtain ⟨number, -, hpure⟩ := bind_eq_ok.mp h
      obtain ⟨n, rfl, rfl⟩ := Option.map_eq_some_iff.mp (Except.ok.inj hpure)
      rw [sequence]
      split_ifs
      · rw [List.append_assoc, List.append_assoc]
        exact ⟨_, by simp, rfl⟩
      · rw [List.append_assoc]
        exact ⟨_, by simp, rfl⟩

/-- What is written for a key is taken for none, whatever comes after it. -/
theorem ttyKeysExtendedKey_written {seq : List UInt8} (bspace : UInt8) (rest : List UInt8)
    (h : inputKeyExtended libc table format key = .ok (some seq)) :
    ttyKeysExtendedKey libc table bspace (seq ++ rest) = .ok (table, .no) := by
  obtain ⟨numbers, hne, rfl⟩ := inputKeyExtended_csi h
  rw [List.append_assoc]
  exact ttyKeysExtendedKey_csi libc table bspace (by simp [hne])

/-- No key is written and read back. -/
theorem not_readsBack (libc : Libc) (table : Utf8Table) (bspace : UInt8) (format : Int)
    (key : UInt64) :
    ¬ ReadsBack libc table bspace format key := by
  rintro ⟨seq, hseq, hreads, -⟩
  obtain ⟨table', hzero⟩ := hreads []
  rw [ttyKeysExtendedKey_written bspace [] hseq] at hzero
  cases hzero

/-- A C library that knows the characters of one byte. -/
def asciiLibc : Libc where
  mbtowc bytes := bytes.head?.map UInt8.toNat
  wctomb wc := [UInt8.ofNat wc.toNat]
  width _ := some 1
  u text :=
    let digits := text.takeWhile isDigit
    if digits = [] then none
    else some (UInt32.ofNat (digitsValue 0 digits), text.drop digits.length)

/-- Control and the letter a, in the format of xterm, are no key. -/
theorem not_readsBack_letter :
    inputKeyExtended asciiLibc .empty 1 (KEYC_CTRL ||| 0x61) =
      .ok (some (csi ++ [0x32, 0x37, 0x3b, 0x35, 0x3b] ++ decimalBytes 97 ++ [0x7e])) ∧
    ttyKeysExtendedKey asciiLibc .empty 0x7f
      (csi ++ [0x32, 0x37, 0x3b, 0x35, 0x3b] ++ decimalBytes 97 ++ [0x7e]) =
      .ok (.empty, .no) ∧
    ¬ ReadsBack asciiLibc .empty 0x7f 1 (KEYC_CTRL ||| 0x61) := by
  have hwritten : inputKeyExtended asciiLibc .empty 1 (KEYC_CTRL ||| 0x61) =
      .ok (some (csi ++ [0x32, 0x37, 0x3b, 0x35, 0x3b] ++ decimalBytes 97 ++ [0x7e])) := rfl
  have hread (rest : List UInt8) : ttyKeysExtendedKey asciiLibc .empty 0x7f
      (csi ++ [0x32, 0x37, 0x3b, 0x35, 0x3b] ++ decimalBytes 97 ++ [0x7e] ++ rest) =
        .ok (.empty, .no) := rfl
  refine ⟨hwritten, ?_, ?_⟩
  · have hall := hread []
    rwa [List.append_nil] at hall
  · rintro ⟨seq, hseq, hreads, -⟩
    obtain rfl := Option.some.inj (Except.ok.inj (hwritten.symm.trans hseq))
    obtain ⟨table', hzero⟩ := hreads []
    rw [hread] at hzero
    cases hzero

end Ztmux.Keys.Extended
