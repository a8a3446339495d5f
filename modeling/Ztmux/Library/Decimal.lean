import Mathlib

/-!
Numbers in decimal, as bytes. Read back digit by digit, a number is what was written.
-/

namespace Ztmux

/-- `is_ascii_digit`. -/
def isDigit (b : UInt8) : Bool := 48 ≤ b && b ≤ 57

def digitByte (d : Nat) : UInt8 := UInt8.ofNat (48 + d)

/-- What a digit's byte stands for. -/
def digitValue (b : UInt8) : Nat := b.toNat - 48

/-- The value of the digits, behind those that make `v`. -/
def digitsValue (v : Nat) (ds : List UInt8) : Nat := ds.foldl (fun v b => 10 * v + digitValue b) v

def decimalBytes (n : Nat) : List UInt8 :=
  if _h : n < 10 then [digitByte n] else decimalBytes (n / 10) ++ [digitByte (n % 10)]
termination_by n

theorem digitByte_toNat {d : Nat} (h : d < 10) : (digitByte d).toNat = 48 + d :=
  UInt8.toNat_ofNat_of_lt (show 48 + d < 256 by omega)

theorem digitValue_digitByte {d : Nat} (h : d < 10) : digitValue (digitByte d) = d := by
  rw [digitValue, digitByte_toNat h, Nat.add_sub_cancel_left]

theorem isDigit_iff {b : UInt8} : isDigit b ↔ 48 ≤ b.toNat ∧ b.toNat ≤ 57 := by
  rw [isDigit, Bool.and_eq_true, decide_eq_true_eq, decide_eq_true_eq, UInt8.le_iff_toNat_le,
    UInt8.le_iff_toNat_le]
  rfl

theorem isDigit_digitByte {d : Nat} (h : d < 10) : isDigit (digitByte d) := by
  rw [isDigit_iff, digitByte_toNat h]
  omega

theorem isDigit_of_mem_decimalBytes {n : Nat} {b : UInt8} (h : b ∈ decimalBytes n) : isDigit b := by
  induction n using decimalBytes.induct with
  | case1 n hn =>
    rw [decimalBytes, dif_pos hn, List.mem_singleton] at h
    rw [h]
    exact isDigit_digitByte hn
  | case2 n hn ih =>
    rw [decimalBytes, dif_neg hn, List.mem_append, List.mem_singleton] at h
    rcases h with h | rfl
    · exact ih h
    · exact isDigit_digitByte (Nat.mod_lt _ (by omega))

@[simp] theorem digitsValue_nil (v : Nat) : digitsValue v [] = v := List.foldl_nil ..

@[simp] theorem digitsValue_cons (v : Nat) (b : UInt8) (ds : List UInt8) :
    digitsValue v (b :: ds) = digitsValue (10 * v + digitValue b) ds := List.foldl_cons ..

theorem digitsValue_append (v : Nat) (ds es : List UInt8) :
    digitsValue v (ds ++ es) = digitsValue (digitsValue v ds) es := List.foldl_append

theorem digitsValue_decimalBytes (n : Nat) : digitsValue 0 (decimalBytes n) = n := by
  induction n using decimalBytes.induct with
  | case1 n hn =>
    rw [decimalBytes, dif_pos hn, digitsValue_cons, digitsValue_nil, digitValue_digitByte hn]
    omega
  | case2 n hn ih =>
    rw [decimalBytes, dif_neg hn, digitsValue_append, ih, digitsValue_cons, digitsValue_nil,
      digitValue_digitByte (Nat.mod_lt _ (by omega))]
    omega

theorem le_digitsValue (v : Nat) (ds : List UInt8) : v ≤ digitsValue v ds := by
  induction ds generalizing v with
  | nil => exact le_rfl
  | cons b ds ih =>
    calc v ≤ 10 * v + digitValue b := by omega
      _ ≤ digitsValue v (b :: ds) := ih _

end Ztmux
