import Mathlib

/-!
The first line of a text. A line is what stands before the first word that can end one, and
its ending is the longest such word there.
-/

namespace Ztmux

variable {α : Type*} {T : List α → Prop} {s line rest : List α}

/-- A word of `T` stands at position `i` of `s`. -/
def EndsAt (T : List α → Prop) (s : List α) (i : Nat) : Prop := ∃ e, T e ∧ e <+: s.drop i

/-- `s` is `line`, then the first word of `T` there is, then `rest`. -/
structure FirstLine (T : List α → Prop) (s line rest : List α) : Prop where
  first : ∀ i < line.length, ¬EndsAt T s i
  ending : ∃ e, T e ∧ s = line ++ e ++ rest ∧ ∀ e', T e' → e' <+: e ++ rest → e'.length ≤ e.length

theorem endsAt_cons_iff {a : α} {i : Nat} :
    EndsAt (· = [a]) s i ↔ s[i]? = some a := by
  constructor
  · rintro ⟨e, rfl, t, ht⟩
    rw [← List.head?_drop, ← ht]
    rfl
  · intro h
    obtain ⟨hi, rfl⟩ := List.getElem?_eq_some_iff.mp h
    exact ⟨_, rfl, s.drop (i + 1), (List.drop_eq_getElem_cons hi).symm⟩

theorem endsAt_pair_iff {a b : α} {i : Nat} :
    EndsAt (· = [a, b]) s i ↔ s[i]? = some a ∧ s[i + 1]? = some b := by
  constructor
  · rintro ⟨e, rfl, t, ht⟩
    have hdrop : ∀ j, s[i + j]? = ([a, b] ++ t)[j]? := by
      intro j
      rw [ht, List.getElem?_drop]
    exact ⟨hdrop 0, hdrop 1⟩
  · rintro ⟨ha, hb⟩
    obtain ⟨hi, rfl⟩ := List.getElem?_eq_some_iff.mp ha
    obtain ⟨hi', rfl⟩ := List.getElem?_eq_some_iff.mp hb
    refine ⟨_, rfl, s.drop (i + 2), ?_⟩
    rw [List.drop_eq_getElem_cons hi, List.drop_eq_getElem_cons hi']
    rfl

/-- The word `e` found at position `n`, with none before it and none longer there. -/
theorem FirstLine.of_found {e : List α} {n : Nat} (hfirst : ∀ i < n, ¬EndsAt T s i) (he : T e)
    (hpre : e <+: s.drop n) (hlong : ∀ e', T e' → e' <+: s.drop n → e'.length ≤ e.length) :
    FirstLine T s (s.take n) (s.drop (n + e.length)) where
  first i hi := hfirst i (by rw [List.length_take] at hi; omega)
  ending := by
    have hrest : s.drop n = e ++ s.drop (n + e.length) := by
      obtain ⟨t, ht⟩ := hpre
      rw [← List.drop_drop, ← ht, List.drop_left]
    refine ⟨e, he, ?_, fun e' he' hpre' => hlong e' he' (hrest ▸ hpre')⟩
    rw [List.append_assoc, ← hrest, List.take_append_drop]

end Ztmux
