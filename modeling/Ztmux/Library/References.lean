import Mathlib

/-!
Cells with a count of the references to them.

`held` says how many references there should be to each cell. A cell is live as long as that
number is positive.
-/

namespace Ztmux.References

variable {ι α : Type*} [DecidableEq ι]

/-- Each cell counts the references to it, and no cell without a reference is live. -/
structure Counted (count : α → Nat) (cells : ι → Option α) (held : ι → Nat) : Prop where
  count_eq : ∀ i a, cells i = some a → count a = held i
  live : ∀ i, 0 < held i ↔ cells i ≠ none

variable {count : α → Nat} {cells : ι → Option α} {held : ι → Nat} {i : ι} {a a' : α}

omit [DecidableEq ι] in
theorem Counted.exists_cell (h : Counted count cells held) (hi : 0 < held i) :
    ∃ a, cells i = some a ∧ count a = held i := by
  obtain ⟨a, ha⟩ := Option.ne_none_iff_exists'.mp ((h.live i).mp hi)
  exact ⟨a, ha, h.count_eq i a ha⟩

theorem Counted.write (h : Counted count cells held) {n : Nat} (hcount : count a = n) (hn : 0 < n) :
    Counted count (Function.update cells i (some a)) (Function.update held i n) where
  count_eq j b hb := by
    by_cases hj : j = i
    · subst hj
      rw [Function.update_self] at hb ⊢
      exact Option.some.inj hb ▸ hcount
    · rw [Function.update_of_ne hj] at hb ⊢
      exact h.count_eq j b hb
  live j := by
    by_cases hj : j = i
    · subst hj
      simp [hn]
    · rw [Function.update_of_ne hj, Function.update_of_ne hj]
      exact h.live j

theorem Counted.free (h : Counted count cells held) (i : ι) :
    Counted count (Function.update cells i none) (Function.update held i 0) where
  count_eq j b hb := by
    by_cases hj : j = i
    · subst hj
      rw [Function.update_self] at hb
      cases hb
    · rw [Function.update_of_ne hj] at hb ⊢
      exact h.count_eq j b hb
  live j := by
    by_cases hj : j = i
    · subst hj
      simp
    · rw [Function.update_of_ne hj, Function.update_of_ne hj]
      exact h.live j

/-- A cell is written that counts as it did. -/
theorem Counted.rewrite (h : Counted count cells held) (ha : cells i = some a)
    (hcount : count a' = count a) :
    Counted count (Function.update cells i (some a')) held := by
  have hi := h.count_eq i a ha
  have hwrite := h.write (i := i) (hcount.trans hi)
    ((h.live i).mpr (by rw [ha]; exact Option.some_ne_none a))
  rwa [Function.update_eq_self] at hwrite

/-! ### Holders -/

variable {κ : Type*} [DecidableEq κ]

/-- One of the holders in a list refers to another cell. -/
theorem countP_update (f : κ → ι) {xs : List κ} (hnodup : xs.Nodup) {c : κ} (hc : c ∈ xs)
    (b i : ι) :
    xs.countP (fun k => Function.update f c b k = i) + (if f c = i then 1 else 0) =
      xs.countP (fun k => f k = i) + if b = i then 1 else 0 := by
  have hrest : ∀ k ∈ xs.erase c, Function.update f c b k = f k := fun k hk =>
    Function.update_of_ne (hnodup.mem_erase_iff.mp hk).1 _ _
  have hperm := List.perm_cons_erase hc
  rw [hperm.countP_eq, hperm.countP_eq, List.countP_cons, List.countP_cons, Function.update_self,
    List.countP_congr fun k hk => by rw [hrest k hk]]
  simp only [decide_eq_true_eq]
  omega

end Ztmux.References
