import Mathlib

/-!
Lists related element by element, where the relation may be known only of the
elements of the first list.
-/

namespace Ztmux.Lists

variable {α β γ : Type*}

theorem forall₂_imp_mem {R S : α → β → Prop} {as : List α} {bs : List β}
    (h : List.Forall₂ R as bs) (H : ∀ a ∈ as, ∀ b, R a b → S a b) : List.Forall₂ S as bs := by
  induction h with
  | nil => exact .nil
  | cons hab _ ih =>
      exact .cons (H _ List.mem_cons_self _ hab)
        (ih fun a ha => H a (List.mem_cons_of_mem _ ha))

theorem forall₂_comp {R : α → β → Prop} {S : β → γ → Prop} {T : α → γ → Prop}
    {as : List α} {bs : List β} {cs : List γ} (h : List.Forall₂ R as bs)
    (h' : List.Forall₂ S bs cs) (H : ∀ a ∈ as, ∀ b c, R a b → S b c → T a c) :
    List.Forall₂ T as cs := by
  induction h generalizing cs with
  | nil => cases h'; exact .nil
  | cons hab _ ih =>
      cases h' with
      | cons hbc hrest =>
          exact .cons (H _ List.mem_cons_self _ _ hab hbc)
            (ih hrest fun a ha => H a (List.mem_cons_of_mem _ ha))

/-- Related lists look the same to a function that the relation respects. -/
theorem map_eq_of_forall₂ {R : α → β → Prop} {f : α → γ} {g : β → γ} {as : List α}
    {bs : List β} (h : List.Forall₂ R as bs) (H : ∀ a ∈ as, ∀ b, R a b → g b = f a) :
    bs.map g = as.map f := by
  induction h with
  | nil => rfl
  | cons hab _ ih =>
      rw [List.map_cons, List.map_cons, H _ List.mem_cons_self _ hab,
        ih fun a ha => H a (List.mem_cons_of_mem _ ha)]

theorem exists_of_mem_right {R : α → β → Prop} {as : List α} {bs : List β}
    (h : List.Forall₂ R as bs) {b : β} (hb : b ∈ bs) : ∃ a ∈ as, R a b := by
  induction h with
  | nil => cases hb
  | cons hab _ ih =>
      rcases List.mem_cons.mp hb with rfl | hb
      · exact ⟨_, List.mem_cons_self, hab⟩
      · obtain ⟨a, ha, hR⟩ := ih hb
        exact ⟨a, List.mem_cons_of_mem _ ha, hR⟩

theorem exists_of_mem_left {R : α → β → Prop} {as : List α} {bs : List β}
    (h : List.Forall₂ R as bs) {a : α} (ha : a ∈ as) : ∃ b ∈ bs, R a b :=
  exists_of_mem_right (R := fun b a => R a b) h.flip ha

theorem sum_set_add {ns : List Nat} {i n : Nat} (h : ns[i]? = some n) (m : Nat) :
    (ns.set i m).sum + n = ns.sum + m := by
  induction ns generalizing i with
  | nil => simp at h
  | cons x xs ih =>
      cases i with
      | zero =>
          obtain rfl : x = n := by simpa using h
          simp only [List.set_cons_zero, List.sum_cons]
          omega
      | succ i =>
          have := ih (i := i) (by simpa using h)
          simp only [List.set_cons_succ, List.sum_cons]
          omega

theorem sum_eraseIdx_add {ns : List Nat} {i n : Nat} (h : ns[i]? = some n) :
    (ns.eraseIdx i).sum + n = ns.sum := by
  induction ns generalizing i with
  | nil => simp at h
  | cons x xs ih =>
      cases i with
      | zero =>
          obtain rfl : x = n := by simpa using h
          simp only [List.eraseIdx_cons_zero, List.sum_cons]
          omega
      | succ i =>
          have := ih (i := i) (by simpa using h)
          simp only [List.eraseIdx_cons_succ, List.sum_cons]
          omega

theorem le_sum_of_mem {ns : List Nat} {n : Nat} (h : n ∈ ns) : n ≤ ns.sum := by
  obtain ⟨i, hi⟩ := List.getElem?_of_mem h
  have := sum_set_add hi 0
  omega

theorem add_le_sum {ns : List Nat} {i j m n : Nat} (hi : ns[i]? = some m) (hj : ns[j]? = some n)
    (hij : i ≠ j) : m + n ≤ ns.sum := by
  have hset := sum_set_add hi 0
  have hmem : n ∈ ns.set i 0 := List.mem_of_getElem? (by rw [List.getElem?_set_ne hij, hj])
  have hle := le_sum_of_mem hmem
  omega

theorem any_eq_any_map (p : α → Bool) (as : List α) : as.any p = (as.map p).any id := by
  simp [List.any_map]

theorem findIdx?_eq_findIdx?_map (p : α → Bool) (as : List α) :
    as.findIdx? p = (as.map p).findIdx? id := by
  simp [List.findIdx?_map]

end Ztmux.Lists
