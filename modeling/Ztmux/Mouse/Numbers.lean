import Ztmux.Mouse.Report

/-!
The loops of the SGR reader, on the bytes that are left: a loop reads the digits there are, and
what stands behind them decides how it ends.
-/

namespace Ztmux.Mouse

variable {buf s ds : List UInt8} {n : Number}

theorem byteAt_ok {i : Nat} (h : i < buf.length) : byteAt buf i = .ok buf[i] := by
  rw [byteAt, List.getElem?_eq_getElem h]

/-- The number after all of `ds`. -/
def Number.pushAll (n : Number) (ds : List UInt8) : Number := ds.foldl Number.push n

/-- How the bytes behind the digits end a number. -/
def endingOf (stops : UInt8 → Bool) : List UInt8 → NumberEnd
  | [] => .more
  | ch :: _ => if stops ch then .stop ch else .bad

/-- What a loop makes of `s`: it takes the digits, and one byte behind them. -/
def scan (stops : UInt8 → Bool) (s : List UInt8) (size : Nat) (n : Number) : NumberRead where
  ending := endingOf stops (s.dropWhile isDigit)
  size := size + (s.takeWhile isDigit).length + min (s.dropWhile isDigit).length 1
  number := n.pushAll (s.takeWhile isDigit)

theorem readNumber_eq {stops : UInt8 → Bool} (hstops : ∀ ch, stops ch → isDigit ch = false)
    {fuel size : Nat} (hfuel : buf.length - size < fuel) :
    readNumber buf stops fuel size n = .ok (scan stops (buf.drop size) size n) := by
  induction fuel generalizing size n with
  | zero => omega
  | succ fuel ih =>
    rw [readNumber]
    split_ifs with hlen
    · rw [List.drop_of_length_le hlen]
      rfl
    · have hlt : size < buf.length := not_le.mp hlen
      have hdrop : buf.drop size = buf[size] :: buf.drop (size + 1) := List.drop_eq_getElem_cons hlt
      rw [byteAt_ok hlt, ok_bind, hdrop]
      by_cases hstop : stops buf[size]
      · rw [if_pos hstop, scan, List.dropWhile_cons_of_neg (by rw [hstops _ hstop]; decide),
          List.takeWhile_cons_of_neg (by rw [hstops _ hstop]; decide), endingOf, if_pos hstop,
          List.length_cons, Nat.min_eq_right (Nat.succ_le_succ (Nat.zero_le _))]
        rfl
      · rw [if_neg hstop]
        by_cases hdigit : isDigit buf[size]
        · rw [hdigit, Bool.not_true, if_neg Bool.false_ne_true, ih (by omega), scan, scan,
            List.dropWhile_cons_of_pos hdigit, List.takeWhile_cons_of_pos hdigit, List.length_cons]
          simp only [Except.ok.injEq, NumberRead.mk.injEq, true_and]
          exact ⟨by omega, rfl⟩
        · rw [Bool.not_eq_true] at hdigit
          rw [hdigit, Bool.not_false, if_pos rfl, scan,
            List.dropWhile_cons_of_neg (by rw [hdigit]; decide),
            List.takeWhile_cons_of_neg (by rw [hdigit]; decide), endingOf, if_neg hstop,
            List.length_cons, Nat.min_eq_right (Nat.succ_le_succ (Nat.zero_le _))]
          rfl

/-! ## The number -/

theorem toNat_sub_48 {b : UInt8} (h : isDigit b) : (b - 48).toUInt32.toNat = digitValue b := by
  rw [isDigit_iff] at h
  rw [UInt8.toNat_toUInt32, UInt8.toNat_sub_of_le, digitValue]
  · rfl
  · exact UInt8.le_iff_toNat_le.mpr h.1

theorem Number.push_value {b : UInt8} (h : isDigit b) :
    (n.push b).value.toNat = (10 * n.value.toNat + digitValue b) % 2 ^ 32 := by
  show (10 * n.value + (b - 48).toUInt32).toNat = _
  rw [UInt32.toNat_add, UInt32.toNat_mul, toNat_sub_48 h]
  exact Nat.mod_add_mod ..

/-- A number is exact until it wraps, and once it has wrapped that is kept. -/
theorem Number.pushAll_value (h : ∀ b ∈ ds, isDigit b)
    (hfit : digitsValue n.value.toNat ds < 2 ^ 32) :
    (n.pushAll ds).value.toNat = digitsValue n.value.toNat ds ∧ (n.pushAll ds).wrapped =
      n.wrapped := by
  induction ds generalizing n with
  | nil => exact ⟨rfl, rfl⟩
  | cons b ds ih =>
    have hb := h b List.mem_cons_self
    rw [digitsValue_cons] at hfit ⊢
    have hle := le_digitsValue (10 * n.value.toNat + digitValue b) ds
    have hvalue : (n.push b).value.toNat = 10 * n.value.toNat + digitValue b := by
      rw [push_value hb, Nat.mod_eq_of_lt (by omega)]
    have hwrapped : (n.push b).wrapped = n.wrapped := by
      rw [push, decide_eq_false (by omega), Bool.or_false]
    rw [← hvalue] at hfit ⊢
    obtain ⟨hrest, hkept⟩ := ih (fun c hc => h c (List.mem_cons_of_mem _ hc)) hfit
    exact ⟨hrest, hkept.trans hwrapped⟩

theorem Number.pushAll_wrapped_of_wrapped (h : n.wrapped = true) :
    (n.pushAll ds).wrapped = true := by
  induction ds generalizing n with
  | nil => exact h
  | cons b ds ih =>
    refine ih ?_
    show (n.wrapped || _) = true
    rw [h, Bool.true_or]

theorem Number.pushAll_wrapped (h : ∀ b ∈ ds, isDigit b)
    (hfit : 2 ^ 32 ≤ digitsValue n.value.toNat ds) (hvalue : n.value.toNat < 2 ^ 32) :
    (n.pushAll ds).wrapped = true := by
  induction ds generalizing n with
  | nil =>
    rw [digitsValue_nil] at hfit
    omega
  | cons b ds ih =>
    have hb := h b List.mem_cons_self
    by_cases hpush : 2 ^ 32 ≤ 10 * n.value.toNat + digitValue b
    · have hwraps : (n.push b).wrapped = true := by
        rw [push, decide_eq_true hpush, Bool.or_true]
      have hall : ((n.push b).pushAll ds).wrapped = true := pushAll_wrapped_of_wrapped hwraps
      exact hall
    · have hexact : (n.push b).value.toNat = 10 * n.value.toNat + digitValue b := by
        rw [push_value hb, Nat.mod_eq_of_lt (by omega)]
      rw [digitsValue_cons, ← hexact] at hfit
      exact ih (fun c hc => h c (List.mem_cons_of_mem _ hc)) hfit (UInt32.toNat_lt _)

/-- The number that `ds` is read as wraps exactly where it has no place in 32 bits. -/
theorem Number.wrapped_zero_iff (h : ∀ b ∈ ds, isDigit b) :
    (Number.zero.pushAll ds).wrapped = false ↔ digitsValue 0 ds < 2 ^ 32 := by
  constructor
  · intro hfalse
    by_contra hfit
    rw [pushAll_wrapped (n := .zero) h (not_lt.mp hfit) (by decide)] at hfalse
    cases hfalse
  · exact fun hfit => (pushAll_value (n := .zero) h hfit).2

theorem mem_takeWhile_isDigit {b : UInt8} (h : b ∈ s.takeWhile isDigit) : isDigit b :=
  List.mem_takeWhile_imp h

/-! ## What is written is read -/

theorem takeWhile_digits {ch : UInt8} {t : List UInt8} (h : ∀ b ∈ ds, isDigit b)
    (hch : isDigit ch = false) :
    (ds ++ ch :: t).takeWhile isDigit = ds ∧ (ds ++ ch :: t).dropWhile isDigit = ch :: t := by
  constructor
  · rw [List.takeWhile_append_of_pos h, List.takeWhile_cons_of_neg (by rw [hch]; decide),
      List.append_nil]
  · rw [List.dropWhile_append_of_pos h, List.dropWhile_cons_of_neg (by rw [hch]; decide)]

/-- A decimal number and the byte that ends it. -/
theorem scan_decimal (stops : UInt8 → Bool) {value : UInt32} {ch : UInt8} {t : List UInt8}
    (size : Nat)
    (hstop : stops ch) (hch : isDigit ch = false) :
    scan stops (decimalBytes value.toNat ++ ch :: t) size .zero =
      ⟨.stop ch, size + (decimalBytes value.toNat).length + 1, ⟨value, false⟩⟩ := by
  have hdigits : ∀ b ∈ decimalBytes value.toNat, isDigit b := fun b => isDigit_of_mem_decimalBytes
  obtain ⟨htake, hdrop⟩ := takeWhile_digits (t := t) hdigits hch
  have hfit : digitsValue 0 (decimalBytes value.toNat) < 2 ^ 32 := by
    rw [digitsValue_decimalBytes]
    exact value.toNat_lt
  obtain ⟨hvalue, hwrapped⟩ := Number.pushAll_value (n := .zero) hdigits hfit
  rw [scan, htake, hdrop, endingOf, if_pos hstop, List.length_cons,
    Nat.min_eq_right (Nat.succ_le_succ (Nat.zero_le _))]
  have hnumber : Number.zero.pushAll (decimalBytes value.toNat) = ⟨value, false⟩ := by
    rw [show Number.zero.value.toNat = 0 from rfl, digitsValue_decimalBytes] at hvalue
    generalize Number.zero.pushAll (decimalBytes value.toNat) = m at hvalue hwrapped
    obtain ⟨v, w⟩ := m
    obtain rfl : v = value := UInt32.toNat_inj.mp hvalue
    obtain rfl : w = false := hwrapped
    rfl
  rw [hnumber]

/-- Part of a number asks for more. -/
theorem scan_part {stops : UInt8 → Bool} (size : Nat) (h : ∀ b ∈ ds, isDigit b) :
    (scan stops ds size n).ending = .more := by
  have hdrop : ds.dropWhile isDigit = [] := List.dropWhile_eq_nil_iff.mpr h
  rw [scan, hdrop]
  rfl

/-- A part of what starts with `ds` and `ch` is a part of `ds` or goes on behind `ch`. -/
theorem isPrefix_cut {p t : List UInt8} {ch : UInt8} (h : p <+: ds ++ ch :: t) :
    p <+: ds ∨ ∃ p', p = ds ++ ch :: p' ∧ p' <+: t := by
  rcases List.prefix_or_prefix_of_prefix h (List.prefix_append ds _) with hp | ⟨q, rfl⟩
  · exact Or.inl hp
  · have hq := (List.prefix_append_right_inj ds).mp h
    cases q with
    | nil => exact Or.inl (by rw [List.append_nil])
    | cons c q =>
      obtain ⟨rfl, htail⟩ := List.cons_prefix_cons.mp hq
      exact Or.inr ⟨q, rfl, htail⟩

end Ztmux.Mouse
