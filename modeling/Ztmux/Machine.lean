import Mathlib

/-!
The machine the program runs on: fixed-width arithmetic and the ways a call can
fail to return.

Sizes are `u32` and offsets `i32` in the source, and they are `UInt32` and `Int32`
here. Arithmetic is that of a release build, which wraps; a cast between the
two types keeps the bits. A change of size is a signed number and is an `Int`.

A loop of the source that has no counter of its own takes fuel. A call that
does not return is one that answers `outOfFuel` whatever fuel it gets.
-/

namespace Ztmux

/-- How a call fails to return a value. -/
inductive Fault
  | nullPointer
  | useAfterFree
  | outOfBounds
  | fatal
  | outOfFuel
  deriving DecidableEq, Repr

abbrev Exec := Except Fault

/-- The outcome of a call that can only fail by not returning. -/
def ofOption {α : Type} : Option α → Exec α
  | some a => .ok a
  | none => .error .outOfFuel

theorem ok_bind {α β : Type} (a : α) (f : α → Exec β) : ((Except.ok a : Exec α) >>= f) = f a := rfl

theorem bind_eq_ok {α β : Type} {x : Exec α} {f : α → Exec β} {b : β} :
    x >>= f = .ok b ↔ ∃ a, x = .ok a ∧ f a = .ok b := by
  cases x with
  | error fault => simp [bind, Except.bind]
  | ok a => simp [bind, Except.bind]

theorem ofOption_eq_ok {α : Type} {o : Option α} {a : α} : ofOption o = .ok a ↔ o = some a := by
  cases o <;> simp [ofOption]

/-- The call returns `a` whenever it gets enough fuel. -/
def Returns {α : Type} (f : Nat → Exec α) (a : α) : Prop := ∃ n, ∀ fuel, n ≤ fuel → f fuel = .ok a

theorem returns_pure {α : Type} (a : α) : Returns (fun _ => .ok a) a := ⟨0, fun _ _ => rfl⟩

theorem Returns.bind {α β : Type} {f : Nat → Exec α} {g : Nat → α → Exec β} {a : α} {b : β}
    (hf : Returns f a) (hg : Returns (fun fuel => g fuel a) b) :
    Returns (fun fuel => f fuel >>= g fuel) b := by
  obtain ⟨m, hm⟩ := hf
  obtain ⟨n, hn⟩ := hg
  refine ⟨max m n, fun fuel hfuel => bind_eq_ok.mpr ⟨a, ?_, ?_⟩⟩
  · exact hm fuel (by omega)
  · exact hn fuel (by omega)

theorem Returns.unique {α : Type} {f : Nat → Exec α} {a b : α} (ha : Returns f a)
    (hb : Returns f b) : a = b := by
  obtain ⟨m, hm⟩ := ha
  obtain ⟨n, hn⟩ := hb
  have hab := (hm (max m n) (by omega)).symm.trans (hn (max m n) (by omega))
  exact Except.ok.inj hab

theorem Returns.of_succ {α : Type} {f : Nat → Exec α} {a : α}
    (h : Returns (fun fuel => f (fuel + 1)) a) : Returns f a := by
  obtain ⟨n, hn⟩ := h
  refine ⟨n + 1, fun fuel hfuel => ?_⟩
  obtain ⟨m, rfl⟩ : ∃ m, fuel = m + 1 := ⟨fuel - 1, by omega⟩
  exact hn m (by omega)

/-- The unsigned size `n` after the signed `change`: the source casts to `i32`,
adds, and casts back. -/
def addSize (n : UInt32) (change : Int) : UInt32 := UInt32.ofInt (n.toNat + change)

/-- The source's `n as i32`. -/
def asI32 (n : UInt32) : Int := n.toInt32.toInt

/-- The value of an `i32` whose exact value is `x`. -/
def wrapI32 (x : Int) : Int := x.bmod (2 ^ 32)

theorem toNat_ofInt (x : Int) : (UInt32.ofInt x).toNat = (x % 2 ^ 32).toNat := by
  rw [UInt32.ofInt, UInt32.toNat_ofNat']
  have hnonneg : 0 ≤ x % 2 ^ 32 := Int.emod_nonneg _ (by decide)
  have hlt : x % 2 ^ 32 < 2 ^ 32 := Int.emod_lt_of_pos _ (by decide)
  exact Nat.mod_eq_of_lt (by omega)

theorem toNat_ofInt_of_lt {x : Int} (h0 : 0 ≤ x) (h : x < 2 ^ 32) :
    ((UInt32.ofInt x).toNat : Int) = x := by
  rw [toNat_ofInt, Int.emod_eq_of_lt h0 h, Int.toNat_of_nonneg h0]

theorem toNat_sum (ns : List UInt32) :
    ns.sum.toNat = (ns.map UInt32.toNat).sum % 2 ^ 32 := by
  induction ns with
  | nil => rfl
  | cons n ns ih =>
      rw [List.sum_cons, UInt32.toNat_add, ih, List.map_cons, List.sum_cons, Nat.add_mod_mod]

/-- A change that stays inside the type is exact. -/
theorem toNat_addSize {n : UInt32} {change : Int} (h0 : 0 ≤ n.toNat + change)
    (h : n.toNat + change < 2 ^ 32) : ((addSize n change).toNat : Int) = n.toNat + change :=
  toNat_ofInt_of_lt h0 h

theorem asI32_of_lt {n : UInt32} (h : n.toNat < 2 ^ 31) : asI32 n = n.toNat := by
  rw [asI32, UInt32.toInt32, Int32.toInt]
  change n.toBitVec.toInt = _
  rw [BitVec.toInt_eq_toNat_of_lt]
  · rfl
  · change 2 * n.toNat < 2 ^ 32
    omega

/-- A cast of an `i32` that is not negative. -/
theorem toNat_toUInt32 {x : Int32} (h : 0 ≤ x.toInt) : (x.toUInt32.toNat : Int) = x.toInt := by
  have hcond : x.toInt = if 2 * x.toUInt32.toNat < 2 ^ 32 then (x.toUInt32.toNat : Int)
      else x.toUInt32.toNat - 2 ^ 32 := BitVec.toInt_eq_toNat_cond x.toBitVec
  have hlt := x.toUInt32.toNat_lt
  split_ifs at hcond <;> omega

theorem wrapI32_of_lt {x : Int} (h0 : -2 ^ 31 ≤ x) (h : x < 2 ^ 31) : wrapI32 x = x :=
  Int.bmod_eq_of_le (by omega) (by omega)

theorem wrapI32_le (x : Int) : -2 ^ 31 ≤ wrapI32 x ∧ wrapI32 x < 2 ^ 31 := by
  have h1 := Int.le_bmod (x := x) (m := 2 ^ 32) (by decide)
  have h2 := Int.bmod_lt (x := x) (m := 2 ^ 32) (by decide)
  rw [wrapI32]
  omega

@[simp] theorem addSize_zero (n : UInt32) : addSize n 0 = n := by
  apply UInt32.toNat.inj
  have hlt := n.toNat_lt
  have := @toNat_addSize n 0 (by omega) (by omega)
  omega

theorem addSize_addSize (n : UInt32) (a b : Int) :
    addSize (addSize n a) b = addSize n (a + b) := by
  apply UInt32.toNat.inj
  have hpos : (0 : Int) ≤ (n.toNat + a) % 2 ^ 32 := Int.emod_nonneg _ (by decide)
  rw [addSize, addSize, addSize, toNat_ofInt, toNat_ofInt, toNat_ofInt,
    Int.toNat_of_nonneg hpos, Int.emod_add_emod, add_assoc]

end Ztmux
