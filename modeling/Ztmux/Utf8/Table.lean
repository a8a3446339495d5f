import Ztmux.Machine

/-!
The table of UTF-8 characters.

A character is kept in a grid cell as one word, which holds its size and width and either its
bytes, when there are at most three, or an index into a table of byte strings. The
table is two trees, by bytes and by index; here they are maps.
-/

namespace Ztmux.Utf8

open Ztmux

/-- The most bytes a character has. -/
abbrev utf8Size : Nat := 21

instance : NeZero utf8Size := ⟨by decide⟩

/-- An expanded UTF-8 character. -/
structure Utf8Data where
  data : Fin utf8Size → UInt8
  have_ : UInt8
  size : UInt8
  width : UInt8

/-- The bytes that are in use. -/
def Utf8Data.initializedSlice (ud : Utf8Data) : List UInt8 :=
  (List.ofFn ud.data).take ud.size.toNat

inductive Utf8State
  | more
  | done
  | error
  deriving DecidableEq, Repr

abbrev Utf8Char := UInt32

/-! ### The word -/

def utf8GetSize (uc : Utf8Char) : UInt8 := ((uc >>> 24) &&& 0x1f).toUInt8

def utf8GetWidth (uc : Utf8Char) : UInt8 := ((uc >>> 29) - 1).toUInt8

def utf8SetSize (size : UInt8) : Utf8Char := size.toUInt32 <<< 24

def utf8SetWidth (width : UInt8) : Utf8Char := (width.toUInt32 + 1) <<< 29

/-! ### The table -/

structure Utf8Table where
  dataTree : List UInt8 → Option UInt32
  indexTree : UInt32 → Option (List UInt8)
  nextIndex : UInt32

def Utf8Table.empty : Utf8Table := ⟨fun _ => none, fun _ => none, 0⟩

def utf8ItemByData (table : Utf8Table) (bytes : List UInt8) : Option UInt32 := table.dataTree bytes

def utf8ItemByIndex (table : Utf8Table) (index : UInt32) : Option (List UInt8) :=
  table.indexTree index

/-- Give the next index to some bytes. -/
def Utf8Table.add (table : Utf8Table) (bytes : List UInt8) : Utf8Table where
  dataTree := Function.update table.dataTree bytes (some table.nextIndex)
  indexTree := Function.update table.indexTree table.nextIndex (some bytes)
  nextIndex := table.nextIndex + 1

/-- Find the index of some bytes, or give them the next one unless they have run out. -/
def utf8PutItem (table : Utf8Table) (bytes : List UInt8) : Utf8Table × Option UInt32 :=
  match utf8ItemByData table bytes with
  | some index => (table, some index)
  | none =>
      if table.nextIndex = 0xffffff + 1 then (table, none)
      else (table.add bytes, some table.nextIndex)

/-- The bytes of a short character in one number. -/
def shortIndex (data : Fin utf8Size → UInt8) : UInt32 :=
  ((data 2).toUInt32 <<< 16) ||| ((data 1).toUInt32 <<< 8) ||| (data 0).toUInt32

/-- The word that stands for a character there is no room for. -/
def errorChar (width : UInt8) : Utf8Char :=
  if width = 0 then utf8SetSize 0 ||| utf8SetWidth 0
  else if width = 1 then utf8SetSize 1 ||| utf8SetWidth 1 ||| 0x20
  else utf8SetSize 1 ||| utf8SetWidth 1 ||| 0x2020

/-- Get the word for a character. -/
def utf8FromData (table : Utf8Table) (ud : Utf8Data) :
    Exec (Utf8Table × Utf8State × Utf8Char) :=
  if 2 < ud.width then throw .fatal
  else if utf8Size < ud.size.toNat then pure (table, .error, errorChar ud.width)
  else if ud.size ≤ 3 then
    pure (table, .done, utf8SetSize ud.size ||| utf8SetWidth ud.width ||| shortIndex ud.data)
  else
    match utf8PutItem table ud.initializedSlice with
    | (table, some index) =>
        pure (table, .done, utf8SetSize ud.size ||| utf8SetWidth ud.width ||| index)
    | (table, none) => pure (table, .error, errorChar ud.width)

/-- Get the character for a word. A size beyond the bytes there are, and bytes of another
length than the size, are a panic. -/
def utf8ToData (table : Utf8Table) (uc : Utf8Char) : Exec Utf8Data :=
  let size := utf8GetSize uc
  let width := utf8GetWidth uc
  if size ≤ 3 then
    pure ⟨fun i => if i = 2 then (uc >>> 16).toUInt8
        else if i = 1 then ((uc >>> 8) &&& 0xff).toUInt8
        else if i = 0 then (uc &&& 0xff).toUInt8
        else 0, size, size, width⟩
  else if utf8Size < size.toNat then throw .outOfBounds
  else
    match utf8ItemByIndex table (uc &&& 0xffffff) with
    | some bytes =>
        if bytes.length = size.toNat then pure ⟨fun i => bytes.getD i 0, size, size, width⟩
        else throw .outOfBounds
    | none => pure ⟨fun i => if i < size.toNat then 0x20 else 0, size, size, width⟩

/-! ### Reading the parts of a word -/

/-- A word with its parts. -/
theorem toNat_word {size width : UInt8} {index : UInt32} (hsize : size.toNat < 32)
    (hwidth : width.toNat ≤ 2) (hindex : index.toNat < 2 ^ 24) :
    (utf8SetSize size ||| utf8SetWidth width ||| index).toNat =
      (width.toNat + 1) * 2 ^ 29 + size.toNat * 2 ^ 24 + index.toNat := by
  have hs : (utf8SetSize size).toNat = size.toNat * 2 ^ 24 := by
    rw [utf8SetSize, UInt32.toNat_shiftLeft, Nat.shiftLeft_eq]
    simp
    omega
  have hw : (utf8SetWidth width).toNat = (width.toNat + 1) * 2 ^ 29 := by
    rw [utf8SetWidth, UInt32.toNat_shiftLeft, Nat.shiftLeft_eq, UInt32.toNat_add]
    simp
    omega
  have hor : (size.toNat * 2 ^ 24) ||| ((width.toNat + 1) * 2 ^ 29) =
      (width.toNat + 1) * 2 ^ 29 + size.toNat * 2 ^ 24 := by
    rw [Nat.or_comm, ← Nat.shiftLeft_eq (width.toNat + 1),
      ← Nat.shiftLeft_add_eq_or_of_lt (by omega)]
  rw [UInt32.toNat_or, UInt32.toNat_or, hs, hw, hor]
  have hhigh : (width.toNat + 1) * 2 ^ 29 + size.toNat * 2 ^ 24 =
      ((width.toNat + 1) * 2 ^ 5 + size.toNat) <<< 24 := by
    rw [Nat.shiftLeft_eq]
    omega
  rw [hhigh, ← Nat.shiftLeft_add_eq_or_of_lt hindex]

variable {size width : UInt8} {index : UInt32}

theorem utf8GetSize_word (hsize : size.toNat < 32) (hwidth : width.toNat ≤ 2)
    (hindex : index.toNat < 2 ^ 24) :
    utf8GetSize (utf8SetSize size ||| utf8SetWidth width ||| index) = size := by
  apply UInt8.toNat.inj
  have hword := toNat_word hsize hwidth hindex
  have hmask : ∀ n : Nat, n &&& 31 = n % 32 := fun n => Nat.and_two_pow_sub_one_eq_mod n 5
  rw [utf8GetSize, UInt32.toNat_toUInt8, UInt32.toNat_and, UInt32.toNat_shiftRight, hword]
  simp only [UInt32.reduceToNat, Nat.shiftRight_eq_div_pow, hmask, Nat.reduceMod, Nat.reducePow]
  omega

theorem utf8GetWidth_word (hsize : size.toNat < 32) (hwidth : width.toNat ≤ 2)
    (hindex : index.toNat < 2 ^ 24) :
    utf8GetWidth (utf8SetSize size ||| utf8SetWidth width ||| index) = width := by
  apply UInt8.toNat.inj
  have hword := toNat_word hsize hwidth hindex
  rw [utf8GetWidth, UInt32.toNat_toUInt8, UInt32.toNat_sub, UInt32.toNat_shiftRight, hword]
  simp only [UInt32.reduceToNat, Nat.shiftRight_eq_div_pow, Nat.reduceMod, Nat.reducePow]
  omega

theorem index_word (hsize : size.toNat < 32) (hwidth : width.toNat ≤ 2)
    (hindex : index.toNat < 2 ^ 24) :
    (utf8SetSize size ||| utf8SetWidth width ||| index) &&& 0xffffff = index := by
  apply UInt32.toNat.inj
  have hword := toNat_word hsize hwidth hindex
  have hmask : ∀ n : Nat, n &&& 16777215 = n % 16777216 :=
    fun n => Nat.and_two_pow_sub_one_eq_mod n 24
  rw [UInt32.toNat_and, hword]
  simp only [UInt32.reduceToNat, hmask]
  omega

end Ztmux.Utf8
