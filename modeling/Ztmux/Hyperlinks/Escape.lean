import Ztmux.Utf8.Vis

/-!
Escaping of a string for the terminal. Complete UTF-8 characters are kept, and the
other bytes go through `vis` with `VIS_OCTAL` and `VIS_CSTYLE`.

The encoder is the one of the strings that are made visible. Here it is a function from strings to
strings, and what it gives is what the encoder writes.
-/

namespace Ztmux.Hyperlinks

open Utf8 (Width Item Splits completeChar)

/-- The bytes of a string before the NUL that ends it. -/
abbrev CString := {s : List UInt8 // (0 : UInt8) ∉ s}

def CString.empty : CString := ⟨[], List.not_mem_nil⟩

/-- The flags `VIS_OCTAL` and `VIS_CSTYLE`. -/
def visFlags : Utf8.VisFlags := ⟨true, true, false, false, false, false, false⟩

/-- What a string is made of, with no more turns than there are bytes. -/
def splitTurns (width : Width) : Nat → List UInt8 → List Item
  | 0, _ => []
  | _ + 1, [] => []
  | turns + 1, ch :: rest =>
      match completeChar width (ch :: rest) with
      | some (bytes, w) =>
          .character bytes w :: splitTurns width turns ((ch :: rest).drop bytes.length)
      | none => .byte ch :: splitTurns width turns rest

theorem splitTurns_splits (width : Width) {turns : Nat} {s : List UInt8} (h : s.length ≤ turns) :
    Splits width s (splitTurns width turns s) := by
  induction turns generalizing s with
  | zero =>
      obtain rfl := List.eq_nil_of_length_eq_zero (Nat.le_zero.mp h)
      exact .nil
  | succ turns ih =>
      cases s with
      | nil => exact .nil
      | cons ch rest =>
          rw [List.length_cons] at h
          rw [splitTurns]
          cases hcomplete : completeChar width (ch :: rest) with
          | none => exact .byte hcomplete (ih (by omega))
          | some p =>
              obtain ⟨bytes, w⟩ := p
              obtain ⟨rest', htext, hlong, -⟩ := Utf8.completeChar_bytes hcomplete
              have hlen := congrArg List.length htext
              rw [List.length_cons, List.length_append] at hlen
              dsimp only
              rw [htext] at hcomplete ⊢
              rw [List.drop_left]
              exact .character hcomplete (ih (by omega))

def split (width : Width) (s : CString) : List Item := splitTurns width s.val.length s.val

theorem split_splits (width : Width) (s : CString) : Splits width s.val (split width s) :=
  splitTurns_splits width le_rfl

variable (width : Width)

def utf8Stravis (s : CString) : CString :=
  ⟨Utf8.encoded visFlags (split width s),
    Utf8.zero_notMem_encoded visFlags (split_splits width s) s.property⟩

theorem utf8Stravis_eq_nil {s : CString} : (utf8Stravis width s).val = [] ↔ s.val = [] :=
  Utf8.encoded_eq_nil (split_splits width s)

/-- The encoder of C strings writes these bytes and a terminator. -/
theorem utf8Strvis_stravis (s : CString) {mem : List UInt8}
    (hmem : mem.length = 4 * (s.val.length + 1)) :
    ∃ back, Returns (Utf8.utf8Strvis width mem s.val visFlags)
      ((utf8Stravis width s).val ++ 0 :: back, wrapI32 (utf8Stravis width s).val.length) :=
  Utf8.utf8Strvis_returns visFlags (split_splits width s) hmem

end Ztmux.Hyperlinks
