import Ztmux.Machine

/-!
Memory for values of one type. An address that was never handed out holds nothing, so a new
value never overwrites one that is there.
-/

namespace Ztmux

structure Memory (α : Type*) where
  get : Nat → Option α
  next : Nat
  fresh : ∀ p, next ≤ p → get p = none

namespace Memory

variable {α : Type*}

@[ext] theorem ext {m m' : Memory α} (h : ∀ p, m.get p = m'.get p) (hnext : m.next = m'.next) :
    m = m' := by
  cases m
  cases m'
  obtain rfl := funext h
  obtain rfl := hnext
  rfl

def empty : Memory α := ⟨fun _ => none, 0, fun _ _ => rfl⟩

/-- A new value, at `m.next`. -/
def alloc (m : Memory α) (a : α) : Memory α where
  get := Function.update m.get m.next (some a)
  next := m.next + 1
  fresh := by
    intro p hp
    rw [Function.update_of_ne (by omega)]
    exact m.fresh p (by omega)

/-- Nothing is written where nothing is. -/
def modify (m : Memory α) (p : Nat) (f : α → α) : Memory α where
  get := Function.update m.get p ((m.get p).map f)
  next := m.next
  fresh := by
    intro q hq
    by_cases hqp : q = p
    · subst hqp
      rw [Function.update_self, m.fresh q hq, Option.map_none]
    · rw [Function.update_of_ne hqp]
      exact m.fresh q hq

def free (m : Memory α) (p : Nat) : Memory α where
  get := Function.update m.get p none
  next := m.next
  fresh := by
    intro q hq
    by_cases hqp : q = p
    · rw [hqp, Function.update_self]
    · rw [Function.update_of_ne hqp]
      exact m.fresh q hq

/-- Every value becomes what `f` makes of it. -/
def map {β : Type*} (m : Memory α) (f : Nat → α → β) : Memory β where
  get p := (m.get p).map (f p)
  next := m.next
  fresh p hp := by rw [m.fresh p hp, Option.map_none]

def read (o : Option α) : Exec α :=
  match o with
  | none => .error .useAfterFree
  | some a => .ok a

def deref (m : Memory α) (p : Nat) : Exec α := read (m.get p)

theorem read_eq_ok {o : Option α} {a : α} : read o = .ok a ↔ o = some a := by
  cases o <;> simp [read]

theorem deref_eq_ok {m : Memory α} {p : Nat} {a : α} : m.deref p = .ok a ↔ m.get p = some a :=
  read_eq_ok

theorem lt_of_get {m : Memory α} {p : Nat} {a : α} (h : m.get p = some a) : p < m.next := by
  by_contra hp
  rw [m.fresh p (by omega)] at h
  cases h

theorem get_alloc (m : Memory α) (a : α) (p : Nat) :
    (m.alloc a).get p = if p = m.next then some a else m.get p := Function.update_apply ..

@[simp] theorem get_alloc_self (m : Memory α) (a : α) : (m.alloc a).get m.next = some a :=
  Function.update_self ..

theorem get_alloc_of_ne {m : Memory α} {p : Nat} (a : α) (h : p ≠ m.next) :
    (m.alloc a).get p = m.get p := Function.update_of_ne h ..

theorem get_modify (m : Memory α) (p : Nat) (f : α → α) (q : Nat) :
    (m.modify p f).get q = if q = p then (m.get p).map f else m.get q := Function.update_apply ..

@[simp] theorem get_modify_self (m : Memory α) (p : Nat) (f : α → α) :
    (m.modify p f).get p = (m.get p).map f := Function.update_self ..

theorem get_modify_of_ne {m : Memory α} {p q : Nat} (f : α → α) (h : q ≠ p) :
    (m.modify p f).get q = m.get q := Function.update_of_ne h ..

@[simp] theorem get_free_self (m : Memory α) (p : Nat) : (m.free p).get p = none :=
  Function.update_self ..

theorem get_free_of_ne {m : Memory α} {p q : Nat} (h : q ≠ p) : (m.free p).get q = m.get q :=
  Function.update_of_ne h ..

@[simp] theorem get_map {β : Type*} (m : Memory α) (f : Nat → α → β) (p : Nat) :
    (m.map f).get p = (m.get p).map (f p) := rfl

@[simp] theorem get_empty (p : Nat) : (empty : Memory α).get p = none := rfl

@[simp] theorem next_alloc (m : Memory α) (a : α) : (m.alloc a).next = m.next + 1 := rfl

@[simp] theorem next_modify (m : Memory α) (p : Nat) (f : α → α) : (m.modify p f).next = m.next :=
  rfl

@[simp] theorem next_free (m : Memory α) (p : Nat) : (m.free p).next = m.next := rfl

@[simp] theorem next_map {β : Type*} (m : Memory α) (f : Nat → α → β) : (m.map f).next = m.next :=
  rfl

/-- The values a changed memory holds, where the change keeps what `P` says of each. -/
theorem modify_forall {m : Memory α} {p : Nat} {f : α → α} {P : Nat → α → Prop}
    (h : ∀ q a, m.get q = some a → P q a)
    (hf : ∀ a, m.get p = some a → P p (f a)) :
    ∀ q a, (m.modify p f).get q = some a → P q a := by
  intro q a hq
  rw [get_modify] at hq
  split_ifs at hq with hqp
  · obtain ⟨b, hb, rfl⟩ := Option.map_eq_some_iff.mp hq
    rw [hqp]
    exact hf b hb
  · exact h q a hq

theorem isSome_modify (m : Memory α) (p : Nat) (f : α → α) (q : Nat) :
    ((m.modify p f).get q).isSome = (m.get q).isSome := by
  rw [get_modify]
  split_ifs with hqp
  · rw [hqp, Option.isSome_map]
  · rfl

end Memory

end Ztmux
