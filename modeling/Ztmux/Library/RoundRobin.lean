import Ztmux.Library.Lists
import Mathlib

/-!
Dealing out units by turns.

A list of suppliers owes `k` units. A sweep goes along the list and asks each
supplier for one unit until none are owed; sweeps are repeated while units
remain. A supplier may pass, hand a unit over and change, or never answer.

The loop has no counter: it ends only if the suppliers have enough. `deal` is the
result with as much fuel as it can use, and `deal_isSome_iff` says exactly when
there is one, from how many units each supplier has and which of them are traps:
a supplier that has run out passes, and a trap never answers again.
-/

namespace Ztmux.RoundRobin

/-- What a supplier answers when it is asked for a unit. -/
inductive Reply (α : Type*)
  | pass
  | took (a : α)
  | stuck

variable {α : Type*} (give : α → Reply α)

/-- Ask every supplier for one unit while units are owed. -/
def sweep : List α → Nat → Option (List α × Nat)
  | [], k => some ([], k)
  | a :: as, 0 => some (a :: as, 0)
  | a :: as, k + 1 =>
      match give a with
      | .pass => (sweep as (k + 1)).map fun r => (a :: r.1, r.2)
      | .took b => (sweep as k).map fun r => (b :: r.1, r.2)
      | .stuck => none

/-- Sweep until nothing is owed. -/
def rounds : Nat → List α → Nat → Option (List α)
  | _, as, 0 => some as
  | 0, _, _ + 1 => none
  | fuel + 1, as, k + 1 => (sweep give as (k + 1)).bind fun r => rounds fuel r.1 r.2

/-- The result of the loop: a sweep that is not idle hands over at least one
unit, so `k` sweeps are all it can use. -/
def deal (as : List α) (k : Nat) : Option (List α) := rounds give k as k

variable {give}

@[simp] theorem sweep_zero (as : List α) : sweep give as 0 = some (as, 0) := by
  cases as <;> rfl

@[simp] theorem rounds_zero (fuel : Nat) (as : List α) : rounds give fuel as 0 = some as := by
  cases fuel <;> rfl

@[simp] theorem deal_zero (as : List α) : deal give as 0 = some as := rfl

/-- A sweep never adds to what is owed, and one that hands over nothing changes
nothing. -/
theorem sweep_le {as bs : List α} {k j : Nat} (h : sweep give as k = some (bs, j)) :
    j ≤ k ∧ (j = k → bs = as) := by
  induction as generalizing bs k j with
  | nil => simp [sweep] at h; simp [h]
  | cons a as ih =>
      cases k with
      | zero => simp [sweep] at h; simp [h]
      | succ k =>
          simp only [sweep] at h
          cases hg : give a with
          | pass =>
              rw [hg] at h
              obtain ⟨⟨cs, i⟩, hs, he⟩ := Option.map_eq_some_iff.mp h
              obtain ⟨rfl, rfl⟩ := Prod.mk.inj he
              exact ⟨(ih hs).1, fun hk => by rw [(ih hs).2 hk]⟩
          | took b =>
              rw [hg] at h
              obtain ⟨⟨cs, i⟩, hs, he⟩ := Option.map_eq_some_iff.mp h
              obtain ⟨rfl, rfl⟩ := Prod.mk.inj he
              have := (ih hs).1
              exact ⟨by omega, fun hk => by omega⟩
          | stuck => rw [hg] at h; cases h

/-- An idle sweep is repeated for ever. -/
theorem rounds_idle {as : List α} {k : Nat} (hk : k ≠ 0) (h : sweep give as k = some (as, k))
    (fuel : Nat) : rounds give fuel as k = none := by
  obtain ⟨k, rfl⟩ := Nat.exists_eq_succ_of_ne_zero hk
  induction fuel with
  | zero => rfl
  | succ fuel ih => rw [rounds, h, Option.bind_some, ih]

theorem rounds_eq_deal {fuel k : Nat} (as : List α) (h : k ≤ fuel) :
    rounds give fuel as k = deal give as k := by
  suffices H : ∀ m n k (as : List α), k ≤ m → k ≤ n → rounds give m as k = rounds give n as k from
    H fuel k k as h le_rfl
  intro m
  induction m with
  | zero =>
      intro n k as hm hn
      obtain rfl : k = 0 := by omega
      simp
  | succ m ih =>
      intro n k as hm hn
      cases k with
      | zero => simp
      | succ k =>
          cases n with
          | zero => omega
          | succ n =>
              rw [rounds, rounds]
              cases hs : sweep give as (k + 1) with
              | none => rfl
              | some r =>
                  obtain ⟨bs, j⟩ := r
                  simp only [Option.bind_some]
                  obtain ⟨hle, hidle⟩ := sweep_le hs
                  by_cases hj : j = k + 1
                  · subst hj
                    rw [hidle rfl] at hs ⊢
                    rw [rounds_idle (by omega) hs, rounds_idle (by omega) hs]
                  · exact ih n j bs (by omega) (by omega)

/-! ### What the result keeps -/

theorem sweep_pass {a : α} (h : give a = .pass) (as : List α) (k : Nat) :
    sweep give (a :: as) (k + 1) = (sweep give as (k + 1)).map fun r => (a :: r.1, r.2) := by
  rw [sweep, h]

theorem sweep_took {a b : α} (h : give a = .took b) (as : List α) (k : Nat) :
    sweep give (a :: as) (k + 1) = (sweep give as k).map fun r => (b :: r.1, r.2) := by
  rw [sweep, h]

theorem sweep_cons_stuck {a : α} (h : give a = .stuck) (as : List α) (k : Nat) :
    sweep give (a :: as) (k + 1) = none := by
  rw [sweep, h]

section Invariant

-- `J as k` while the suppliers are `as` and `k` units are owed.
variable {J : List α → Nat → Prop}

theorem sweep_induct
    (step : ∀ xs a b ys k, give a = .took b → J (xs ++ a :: ys) (k + 1) → J (xs ++ b :: ys) k)
    {as bs : List α} {k j : Nat} (hJ : J as k) (h : sweep give as k = some (bs, j)) : J bs j := by
  suffices H : ∀ (as pre bs : List α) k, J (pre ++ as) k → sweep give as k = some (bs, j) →
      J (pre ++ bs) j from H as [] bs k hJ h
  clear hJ h as bs k
  intro as
  induction as with
  | nil =>
      intro pre bs k hJ h
      simp only [sweep, Option.some.injEq, Prod.mk.injEq] at h
      obtain ⟨rfl, rfl⟩ := h
      exact hJ
  | cons a as ih =>
      intro pre bs k hJ h
      cases k with
      | zero =>
          simp only [sweep, Option.some.injEq, Prod.mk.injEq] at h
          obtain ⟨rfl, rfl⟩ := h
          exact hJ
      | succ k =>
          cases hg : give a with
          | pass =>
              rw [sweep_pass hg] at h
              obtain ⟨⟨cs, i⟩, hs, he⟩ := Option.map_eq_some_iff.mp h
              obtain ⟨rfl, rfl⟩ := Prod.mk.inj he
              simpa using ih (pre ++ [a]) cs (k + 1) (by simpa using hJ) hs
          | took b =>
              rw [sweep_took hg] at h
              obtain ⟨⟨cs, i⟩, hs, he⟩ := Option.map_eq_some_iff.mp h
              obtain ⟨rfl, rfl⟩ := Prod.mk.inj he
              simpa using ih (pre ++ [b]) cs k (by simpa using step pre a b as k hg hJ) hs
          | stuck =>
              rw [sweep_cons_stuck hg] at h
              cases h

theorem rounds_induct
    (step : ∀ xs a b ys k, give a = .took b → J (xs ++ a :: ys) (k + 1) → J (xs ++ b :: ys) k)
    {fuel k : Nat} {as bs : List α} (hJ : J as k) (h : rounds give fuel as k = some bs) :
    J bs 0 := by
  induction fuel generalizing as k with
  | zero =>
      cases k with
      | zero =>
          simp only [rounds_zero, Option.some.injEq] at h
          exact h ▸ hJ
      | succ k => cases h
  | succ fuel ih =>
      cases k with
      | zero =>
          simp only [rounds_zero, Option.some.injEq] at h
          exact h ▸ hJ
      | succ k =>
          rw [rounds] at h
          obtain ⟨⟨cs, j⟩, hs, hr⟩ := Option.bind_eq_some_iff.mp h
          exact ih (sweep_induct step hJ hs) hr

/-- What every unit handed over preserves holds in the end. -/
theorem deal_induct
    (step : ∀ xs a b ys k, give a = .took b → J (xs ++ a :: ys) (k + 1) → J (xs ++ b :: ys) k)
    {k : Nat} {as bs : List α} (hJ : J as k) (h : deal give as k = some bs) : J bs 0 :=
  rounds_induct step hJ h

/-- Beside the invariant, every supplier ends related to how it started by a preorder that
contains handing over a unit. -/
theorem deal_induct_forall₂ {R : α → α → Prop} (hrefl : ∀ a, R a a)
    (htrans : ∀ a b c, R a b → R b c → R a c)
    (step : ∀ xs a b ys k, give a = .took b → J (xs ++ a :: ys) (k + 1) →
      J (xs ++ b :: ys) k ∧ R a b)
    {k : Nat} {as bs : List α} (hJ : J as k) (h : deal give as k = some bs) :
    J bs 0 ∧ List.Forall₂ R as bs := by
  refine deal_induct (J := fun bs k => J bs k ∧ List.Forall₂ R as bs) ?_
    ⟨hJ, List.forall₂_same.mpr fun a _ => hrefl a⟩ h
  rintro xs a b ys k hg ⟨hJ, hR⟩
  obtain ⟨hJ', hab⟩ := step xs a b ys k hg hJ
  refine ⟨hJ', ?_⟩
  have hlast : List.Forall₂ R (xs ++ a :: ys) (xs ++ b :: ys) :=
    List.rel_append (List.forall₂_same.mpr fun x _ => hrefl x)
      (.cons hab (List.forall₂_same.mpr fun x _ => hrefl x))
  exact Lists.forall₂_comp hR hlast fun a _ c b => htrans a c b

/-- Every supplier ends related to how it started by any preorder that contains
handing over a unit. -/
theorem deal_forall₂ (Inv : α → Prop) (R : α → α → Prop) (hrefl : ∀ a, R a a)
    (htrans : ∀ a b c, R a b → R b c → R a c)
    (htook : ∀ a b, Inv a → give a = .took b → Inv b ∧ R a b) {k : Nat} {as bs : List α}
    (hinv : ∀ a ∈ as, Inv a) (h : deal give as k = some bs) :
    List.Forall₂ R as bs ∧ ∀ b ∈ bs, Inv b := by
  refine (deal_induct_forall₂ (J := fun bs _ => ∀ b ∈ bs, Inv b) hrefl htrans ?_ hinv h).symm
  intro xs a b ys _ hg hI
  obtain ⟨hb, hab⟩ := htook a b (hI a (by simp)) hg
  refine ⟨fun x hx => ?_, hab⟩
  rcases List.mem_append.mp hx with hx | hx
  · exact hI x (by simp [hx])
  · rcases List.mem_cons.mp hx with rfl | hx
    · exact hb
    · exact hI x (by simp [hx])

end Invariant

/-! ### When there is a result -/

section Ready

variable {Inv Ready : α → Prop}

theorem sweep_isSome (hfree : ∀ a, Inv a → give a ≠ .stuck) {as : List α} {k : Nat}
    (hinv : ∀ a ∈ as, Inv a) : (sweep give as k).isSome := by
  induction as generalizing k with
  | nil => simp [sweep]
  | cons a as ih =>
      have hinv' : ∀ x ∈ as, Inv x := fun x hx => hinv x (List.mem_cons_of_mem _ hx)
      cases k with
      | zero => simp
      | succ k =>
          cases hg : give a with
          | pass => simpa [sweep_pass hg] using ih hinv'
          | took b => simpa [sweep_took hg] using ih hinv'
          | stuck => exact absurd hg (hfree a (hinv a List.mem_cons_self))

/-- A sweep past a supplier that is ready is not idle. -/
theorem sweep_lt (hready : ∀ a, Ready a → ∃ b, give a = .took b) {as bs : List α} {k j : Nat}
    (h : ∃ a ∈ as, Ready a) (hs : sweep give as (k + 1) = some (bs, j)) : j ≤ k := by
  induction as generalizing bs with
  | nil => simp at h
  | cons a as ih =>
      cases hg : give a with
      | pass =>
          rw [sweep_pass hg] at hs
          obtain ⟨⟨cs, i⟩, hcs, he⟩ := Option.map_eq_some_iff.mp hs
          obtain ⟨rfl, rfl⟩ := Prod.mk.inj he
          rw [List.exists_mem_cons_iff] at h
          rcases h with ha | h
          · obtain ⟨b, hb⟩ := hready a ha
            rw [hg] at hb
            cases hb
          · exact ih h hcs
      | took b =>
          rw [sweep_took hg] at hs
          obtain ⟨⟨cs, i⟩, hcs, he⟩ := Option.map_eq_some_iff.mp hs
          obtain ⟨rfl, rfl⟩ := Prod.mk.inj he
          exact (sweep_le hcs).1
      | stuck =>
          rw [sweep_cons_stuck hg] at hs
          cases hs

/-- With nothing ever stuck and one supplier always ready the loop ends. -/
theorem deal_isSome_of_ready (Inv Ready : α → Prop)
    (hfree : ∀ a, Inv a → give a ≠ .stuck) (hready : ∀ a, Ready a → ∃ b, give a = .took b)
    (htook : ∀ a b, give a = .took b → (Inv a → Inv b) ∧ (Ready a → Ready b))
    {as : List α} {k : Nat} (hinv : ∀ a ∈ as, Inv a) (h : ∃ a ∈ as, Ready a) :
    (deal give as k).isSome := by
  induction k using Nat.strong_induction_on generalizing as with
  | _ k ih =>
      cases k with
      | zero => rfl
      | succ k =>
          rw [deal, rounds]
          obtain ⟨⟨bs, j⟩, hs⟩ := Option.isSome_iff_exists.mp (sweep_isSome hfree (k := k + 1) hinv)
          have hj := sweep_lt hready h hs
          have hkeep : (∀ b ∈ bs, Inv b) ∧ ∃ b ∈ bs, Ready b := by
            refine sweep_induct (J := fun bs _ => (∀ b ∈ bs, Inv b) ∧ ∃ b ∈ bs, Ready b) ?_
              ⟨hinv, h⟩ hs
            rintro xs a b ys - hg ⟨hI, x, hx, hxr⟩
            obtain ⟨hb, hab⟩ := htook a b hg
            refine ⟨fun y hy => ?_, ?_⟩
            · rcases List.mem_append.mp hy with hy | hy
              · exact hI y (by simp [hy])
              · rcases List.mem_cons.mp hy with rfl | hy
                · exact hb (hI a (by simp))
                · exact hI y (by simp [hy])
            · rcases List.mem_append.mp hx with hx | hx
              · exact ⟨x, by simp [hx], hxr⟩
              · rcases List.mem_cons.mp hx with rfl | hx
                · exact ⟨b, by simp, hab hxr⟩
                · exact ⟨x, by simp [hx], hxr⟩
          rw [hs, Option.bind_some, rounds_eq_deal _ hj]
          exact ih j (by omega) hkeep.1 hkeep.2

end Ready

section Supply

variable {Inv : α → Prop} {units : α → Nat} {trap : α → Prop}

/-- `units a` is what `a` hands over in all. After that a trap is stuck and any
other supplier passes. -/
structure Metered (give : α → Reply α) (Inv : α → Prop) (units : α → Nat)
    (trap : α → Prop) : Prop where
  pass : ∀ {a}, Inv a → give a = .pass → units a = 0 ∧ ¬ trap a
  took : ∀ {a b}, Inv a → give a = .took b → Inv b ∧ units a = units b + 1 ∧ (trap b ↔ trap a)
  stuck : ∀ {a}, Inv a → give a = .stuck → units a = 0 ∧ trap a

/-- What is handed over until a trap with `r` units is asked once too often: the
suppliers before it have had one more turn than those after it. -/
def room (units : α → Nat) (xs : List α) (r : Nat) (ys : List α) : Nat :=
  (xs.map fun x => min (units x) (r + 1)).sum + r + (ys.map fun y => min (units y) r).sum

/-- `k` units can be had: there are that many, and they are dealt out before any
trap is stuck. -/
def Served (units : α → Nat) (trap : α → Prop) (as : List α) (k : Nat) : Prop :=
  k ≤ (as.map units).sum ∧
    ∀ xs t ys, as = xs ++ t :: ys → trap t → k ≤ room units xs (units t) ys

theorem served_map {β : Type*} (f : β → α) (bs : List β) (k : Nat) :
    Served units trap (bs.map f) k ↔ Served (units ∘ f) (trap ∘ f) bs k := by
  rw [Served, Served, List.map_map]
  refine and_congr Iff.rfl ⟨fun H xs t ys hbs ht => ?_, fun H xs t ys hbs ht => ?_⟩
  · simpa [room, Function.comp_def] using H (xs.map f) (f t) (ys.map f) (by simp [hbs]) ht
  · obtain ⟨xs, zs, rfl, rfl, hzs⟩ := List.map_eq_append_iff.mp hbs
    obtain ⟨t, ys, rfl, rfl, rfl⟩ := List.map_eq_cons_iff.mp hzs
    simpa [room, Function.comp_def] using H xs t ys rfl ht

@[simp] theorem served_zero (as : List α) : Served units trap as 0 := by
  simp [Served]

/-- The suppliers that have something to hand over. -/
def active (units : α → Nat) (as : List α) : Nat := (as.map fun a => min (units a) 1).sum

@[simp] theorem active_nil : active units ([] : List α) = 0 := rfl

@[simp] theorem active_cons (a : α) (as : List α) :
    active units (a :: as) = min (units a) 1 + active units as := by
  simp [active]

theorem active_append (as bs : List α) :
    active units (as ++ bs) = active units as + active units bs := by
  simp [active]

theorem active_le_sum (as : List α) : active units as ≤ (as.map units).sum := by
  induction as with
  | nil => simp
  | cons a as ih =>
      simp only [active_cons, List.map_cons, List.sum_cons]
      omega

theorem sum_eq_zero_of_active {as : List α} (h : active units as = 0) :
    (as.map units).sum = 0 := by
  induction as with
  | nil => rfl
  | cons a as ih =>
      rw [active_cons] at h
      have := ih (by omega)
      simp only [List.map_cons, List.sum_cons]
      omega

theorem active_le_room (xs ys : List α) (r : Nat) :
    active units xs ≤ room units xs r ys := by
  induction xs with
  | nil => simp
  | cons x xs ih =>
      simp only [room, active_cons, List.map_cons, List.sum_cons] at ih ⊢
      omega

theorem active_append_le_room {r : Nat} (hr : r ≠ 0) (xs ys : List α) {t : α}
    (ht : units t = r) : active units (xs ++ t :: ys) ≤ room units xs r ys := by
  have hys : active units ys ≤ (ys.map fun y => min (units y) r).sum := by
    clear ht
    induction ys with
    | nil => simp
    | cons y ys ih =>
        simp only [active_cons, List.map_cons, List.sum_cons]
        omega
  have hxs : active units xs ≤ (xs.map fun x => min (units x) (r + 1)).sum := by
    clear hys
    induction xs with
    | nil => simp
    | cons x xs ih =>
        simp only [active_cons, List.map_cons, List.sum_cons]
        omega
  rw [active_append, active_cons, room]
  omega

/-- The supplier after one turn. -/
def turn (give : α → Reply α) (a : α) : α :=
  match give a with
  | .took b => b
  | _ => a

theorem turn_took {a b : α} (h : give a = .took b) : turn give a = b := by
  rw [turn, h]

theorem turn_of_units {a : α} (h : ∀ b, give a ≠ .took b) : turn give a = a := by
  rw [turn]
  cases hg : give a with
  | pass => rfl
  | took b => exact absurd hg (h b)
  | stuck => rfl

variable (hm : Metered give Inv units trap)

include hm

/-- A turn is stuck exactly at a trap that has run out. -/
theorem Metered.stuck_iff {a : α} (ha : Inv a) :
    give a = .stuck ↔ units a = 0 ∧ trap a := by
  refine ⟨hm.stuck ha, fun ⟨hu, ht⟩ => ?_⟩
  cases hg : give a with
  | pass => exact absurd ht (hm.pass ha hg).2
  | took b => have := (hm.took ha hg).2.1; omega
  | stuck => rfl

theorem Metered.turn {a : α} (ha : Inv a) :
    Inv (turn give a) ∧ units (turn give a) = units a - 1 ∧ (trap (turn give a) ↔ trap a) := by
  by_cases h : ∃ b, give a = .took b
  · obtain ⟨b, hg⟩ := h
    obtain ⟨hb, hu, ht⟩ := hm.took ha hg
    rw [turn_took hg]
    exact ⟨hb, by omega, ht⟩
  · have hg : ∀ b, give a ≠ .took b := fun b hb => h ⟨b, hb⟩
    have hu : units a = 0 := by
      cases hg' : give a with
      | pass => exact (hm.pass ha hg').1
      | took b => exact absurd hg' (hg b)
      | stuck => exact (hm.stuck ha hg').1
    rw [turn_of_units hg]
    exact ⟨ha, by omega, Iff.rfl⟩

/-- What is dealt out is what the suppliers no longer have. -/
theorem Metered.deal_units {as bs : List α} {k : Nat} (hinv : ∀ a ∈ as, Inv a)
    (h : deal give as k = some bs) : (bs.map units).sum + k = (as.map units).sum := by
  have hrun := deal_induct (J := fun cs j => (∀ c ∈ cs, Inv c) ∧
    (cs.map units).sum + k = (as.map units).sum + j) ?_ ⟨hinv, rfl⟩ h
  · exact hrun.2
  · rintro xs a b ys j hg ⟨hI, hsum⟩
    obtain ⟨hb, hu, -⟩ := hm.took (hI a (by simp)) hg
    refine ⟨fun c hc => ?_, ?_⟩
    · rcases List.mem_append.mp hc with hc | hc
      · exact hI c (by simp [hc])
      · rcases List.mem_cons.mp hc with rfl | hc
        · exact hb
        · exact hI c (by simp [hc])
    · rw [List.map_append, List.sum_append, List.map_cons, List.sum_cons] at hsum ⊢
      omega

/-- A sweep that meets nothing stuck and does not run out of what is owed. -/
theorem sweep_of_active_le {as : List α} {k : Nat} (hinv : ∀ a ∈ as, Inv a)
    (hfree : ∀ a ∈ as, give a ≠ .stuck) (hk : active units as ≤ k) :
    sweep give as k = some (as.map (turn give), k - active units as) := by
  induction as generalizing k with
  | nil => cases k <;> rfl
  | cons a as ih =>
      have hinv' : ∀ x ∈ as, Inv x := fun x hx => hinv x (List.mem_cons_of_mem _ hx)
      have hfree' : ∀ x ∈ as, give x ≠ .stuck := fun x hx => hfree x (List.mem_cons_of_mem _ hx)
      have ha : Inv a := hinv a List.mem_cons_self
      rw [active_cons] at hk
      cases k with
      | zero =>
          have hu : units a = 0 := by omega
          have hrest := ih hinv' hfree' (k := 0) (by omega)
          rw [sweep_zero] at hrest ⊢
          have hturn : turn give a = a := turn_of_units fun b hb => by
            have := (hm.took ha hb).2.1
            omega
          simp only [Option.some.injEq, Prod.mk.injEq] at hrest
          rw [List.map_cons, hturn, ← hrest.1, Nat.zero_sub]
      | succ k =>
          cases hg : give a with
          | pass =>
              have hu := (hm.pass ha hg).1
              rw [sweep_pass hg, ih hinv' hfree' (by omega), List.map_cons,
                turn_of_units (by simp [hg])]
              simp [hu]
          | took b =>
              have hu := (hm.took ha hg).2.1
              rw [sweep_took hg, ih hinv' hfree' (by omega), List.map_cons, turn_took hg]
              simp only [Option.map_some, Option.some.injEq, Prod.mk.injEq, true_and, active_cons]
              omega
          | stuck => exact absurd hg (hfree a List.mem_cons_self)

/-- A sweep that is done before it can meet anything stuck. -/
theorem sweep_of_le_active {xs : List α} (ys : List α) {k : Nat}
    (hinv : ∀ a ∈ xs, Inv a) (hfree : ∀ a ∈ xs, give a ≠ .stuck) (hk : k ≤ active units xs) :
    ∃ bs, sweep give (xs ++ ys) k = some (bs, 0) := by
  induction xs generalizing k with
  | nil =>
      obtain rfl : k = 0 := by simpa using hk
      exact ⟨_, sweep_zero _⟩
  | cons a as ih =>
      have hinv' : ∀ x ∈ as, Inv x := fun x hx => hinv x (List.mem_cons_of_mem _ hx)
      have hfree' : ∀ x ∈ as, give x ≠ .stuck := fun x hx => hfree x (List.mem_cons_of_mem _ hx)
      have ha : Inv a := hinv a List.mem_cons_self
      rw [active_cons] at hk
      cases k with
      | zero => exact ⟨_, sweep_zero _⟩
      | succ k =>
          rw [List.cons_append]
          cases hg : give a with
          | pass =>
              have hu := (hm.pass ha hg).1
              obtain ⟨bs, hbs⟩ := ih hinv' hfree' (k := k + 1) (by omega)
              exact ⟨a :: bs, by rw [sweep_pass hg, hbs]; rfl⟩
          | took b =>
              obtain ⟨bs, hbs⟩ := ih hinv' hfree' (k := k) (by omega)
              exact ⟨b :: bs, by rw [sweep_took hg, hbs]; rfl⟩
          | stuck => exact absurd hg (hfree a List.mem_cons_self)

/-- A sweep that does meet one. -/
theorem sweep_stuck {xs ys : List α} {t : α} {k : Nat} (hinv : ∀ a ∈ xs, Inv a)
    (ht : give t = .stuck) (hk : active units xs < k) : sweep give (xs ++ t :: ys) k = none := by
  induction xs generalizing k with
  | nil =>
      obtain ⟨k, rfl⟩ := Nat.exists_eq_succ_of_ne_zero (Nat.ne_of_gt hk)
      exact sweep_cons_stuck ht ys k
  | cons a as ih =>
      have hinv' : ∀ x ∈ as, Inv x := fun x hx => hinv x (List.mem_cons_of_mem _ hx)
      have ha : Inv a := hinv a List.mem_cons_self
      rw [active_cons] at hk
      obtain ⟨k, rfl⟩ := Nat.exists_eq_succ_of_ne_zero (show k ≠ 0 by omega)
      rw [List.cons_append]
      cases hg : give a with
      | pass =>
          have hu := (hm.pass ha hg).1
          rw [sweep_pass hg, ih hinv' (by omega), Option.map_none]
      | took b =>
          have hu := (hm.took ha hg).2.1
          rw [sweep_took hg, ih hinv' (by omega), Option.map_none]
      | stuck => exact sweep_cons_stuck hg _ k

/-- With nothing stuck, a full sweep takes the same off both sides. -/
theorem served_map_turn {as : List α} {k : Nat} (hinv : ∀ a ∈ as, Inv a)
    (hfree : ∀ a ∈ as, give a ≠ .stuck) (hk : active units as ≤ k) :
    Served units trap (as.map (turn give)) (k - active units as) ↔ Served units trap as k := by
  have hsum : ∀ bs : List α, (∀ a ∈ bs, Inv a) →
      ((bs.map (turn give)).map units).sum + active units bs = (bs.map units).sum := by
    intro bs hbs
    induction bs with
    | nil => rfl
    | cons a bs ih =>
        have hu := (hm.turn (hbs a List.mem_cons_self)).2.1
        have := ih fun x hx => hbs x (List.mem_cons_of_mem _ hx)
        simp only [List.map_cons, List.sum_cons, active_cons]
        omega
  have hmin : ∀ (r : Nat) (bs : List α), (∀ a ∈ bs, Inv a) →
      ((bs.map (turn give)).map fun b => min (units b) r).sum + active units bs =
        (bs.map fun b => min (units b) (r + 1)).sum := by
    intro r bs hbs
    induction bs with
    | nil => rfl
    | cons a bs ih =>
        have hu := (hm.turn (hbs a List.mem_cons_self)).2.1
        have := ih fun x hx => hbs x (List.mem_cons_of_mem _ hx)
        simp only [List.map_cons, List.sum_cons, active_cons]
        omega
  have hroom : ∀ xs t ys, as = xs ++ t :: ys → trap t →
      room units (xs.map (turn give)) (units (turn give t)) (ys.map (turn give)) +
        active units as = room units xs (units t) ys := by
    rintro xs t ys rfl htrap
    have ht : Inv t := hinv t (by simp)
    have hne : units t ≠ 0 := fun h0 =>
      hfree t (by simp) ((hm.stuck_iff ht).mpr ⟨h0, htrap⟩)
    obtain ⟨r, hr⟩ := Nat.exists_eq_succ_of_ne_zero hne
    have h1 := hmin (r + 1) xs fun a ha => hinv a (by simp [ha])
    have h2 := hmin r ys fun a ha => hinv a (by simp [ha])
    rw [(hm.turn ht).2.1, active_append, active_cons, room, room, hr]
    simp only [Nat.succ_eq_add_one, Nat.add_sub_cancel]
    omega
  refine and_congr ?_ ⟨fun H xs t ys has htrap => ?_, fun H xs t ys has htrap => ?_⟩
  · have := hsum as hinv
    omega
  · have ht : Inv t := hinv t (by simp [has])
    have := H (xs.map (turn give)) (turn give t) (ys.map (turn give)) (by simp [has])
      ((hm.turn ht).2.2.mpr htrap)
    have := hroom xs t ys has htrap
    omega
  · obtain ⟨xs', zs, rfl, rfl, hzs⟩ := List.map_eq_append_iff.mp has
    obtain ⟨t', ys', rfl, rfl, rfl⟩ := List.map_eq_cons_iff.mp hzs
    have htrap' := (hm.turn (hinv t' (by simp))).2.2.mp htrap
    have := H xs' t' ys' rfl htrap'
    have := hroom xs' t' ys' rfl htrap'
    omega

/-- The loop ends exactly when the units can be had. -/
theorem deal_isSome_iff {as : List α} {k : Nat} (hinv : ∀ a ∈ as, Inv a) :
    (deal give as k).isSome ↔ Served units trap as k := by
  induction k using Nat.strong_induction_on generalizing as with
  | _ k ih =>
      cases k with
      | zero => simp [Served]
      | succ k =>
          rw [deal, rounds]
          by_cases hstuck : ∃ t ∈ as, give t = .stuck
          · -- The first supplier that is stuck decides.
            obtain ⟨xs, t, ys, rfl, ht, hfree⟩ :
                ∃ xs t ys, as = xs ++ t :: ys ∧ give t = .stuck ∧ ∀ x ∈ xs, give x ≠ .stuck := by
              clear ih hinv
              induction as with
              | nil => simp at hstuck
              | cons a as ih =>
                  by_cases ha : give a = .stuck
                  · exact ⟨[], a, as, rfl, ha, by simp⟩
                  · obtain ⟨xs, t, ys, rfl, ht, hfree⟩ := ih (by simpa [ha] using hstuck)
                    exact ⟨a :: xs, t, ys, rfl, ht, by simpa [ha] using hfree⟩
            have hxs : ∀ a ∈ xs, Inv a := fun a ha => hinv a (by simp [ha])
            obtain ⟨hu, htrap⟩ := (hm.stuck_iff (hinv t (by simp))).mp ht
            by_cases hk : k + 1 ≤ active units xs
            · obtain ⟨bs, hbs⟩ := sweep_of_le_active hm (t :: ys) hxs hfree hk
              simp only [hbs, Option.bind_some, rounds_zero, Option.isSome_some, true_iff]
              refine ⟨?_, fun xs' u ys' has hutrap => ?_⟩
              · have := @active_le_sum _ units xs
                simp only [List.map_append, List.sum_append]
                omega
              · refine hk.trans ?_
                rcases List.append_eq_append_iff.mp has with ⟨zs, rfl, -⟩ | ⟨zs, rfl, hzs⟩
                · refine le_trans ?_ (active_le_room _ _ _)
                  rw [active_append]
                  omega
                · cases zs with
                  | nil =>
                      rw [List.append_nil]
                      exact active_le_room _ _ _
                  | cons z zs =>
                      obtain ⟨rfl, rfl⟩ := List.cons.inj hzs
                      have hne : units u ≠ 0 := fun h0 =>
                        hfree u (by simp) ((hm.stuck_iff (hxs u (by simp))).mpr ⟨h0, hutrap⟩)
                      refine le_trans ?_ (active_append_le_room hne xs' (zs ++ t :: ys) rfl)
                      rw [← List.cons_append, ← List.append_assoc, active_append _ (t :: ys)]
                      omega
            · rw [sweep_stuck hm hxs ht (by omega)]
              simp only [Option.bind_none, Option.isSome_none, Bool.false_eq_true, false_iff]
              rintro ⟨-, H⟩
              have := H xs t ys rfl htrap
              rw [hu, room] at this
              simp [active] at this hk
              omega
          · have hfree : ∀ a ∈ as, give a ≠ .stuck := fun a ha hg => hstuck ⟨a, ha, hg⟩
            by_cases hk : k + 1 ≤ active units as
            · obtain ⟨bs, hbs⟩ := sweep_of_le_active hm [] hinv hfree hk
              rw [List.append_nil] at hbs
              simp only [hbs, Option.bind_some, rounds_zero, Option.isSome_some, true_iff]
              refine ⟨hk.trans (active_le_sum as), fun xs t ys has htrap => hk.trans ?_⟩
              have hne : units t ≠ 0 := fun h0 =>
                hfree t (by simp [has]) ((hm.stuck_iff (hinv t (by simp [has]))).mpr ⟨h0, htrap⟩)
              exact has ▸ active_append_le_room hne xs ys rfl
            · have hfull := served_map_turn hm hinv hfree (k := k + 1) (by omega)
              rw [sweep_of_active_le hm hinv hfree (by omega), Option.bind_some]
              by_cases hidle : active units as = 0
              · have hsum := sum_eq_zero_of_active hidle
                have hsweep := sweep_of_active_le hm hinv hfree (k := k + 1) (by omega)
                rw [hidle, Nat.sub_zero] at hsweep ⊢
                have hsame := (sweep_le hsweep).2 rfl
                rw [hsame] at hsweep ⊢
                rw [rounds_idle (by omega) hsweep]
                simp only [Option.isSome_none, Bool.false_eq_true, false_iff]
                exact fun H => absurd H.1 (by omega)
              · rw [rounds_eq_deal _ (by omega), ← hfull]
                refine ih _ (by omega) fun b hb => ?_
                obtain ⟨a, ha, rfl⟩ := List.mem_map.mp hb
                exact (hm.turn (hinv a ha)).1

end Supply

end Ztmux.RoundRobin
