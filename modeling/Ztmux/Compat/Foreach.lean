import Ztmux.Compat.Run

/-!
Removing the elements of a tree while walking through it. The element after the one to
remove is read first, and is the first of what is left.
-/

namespace Ztmux.Compat

open RedBlack RedBlack.RbTree

variable {T : Type} [DecidableEq T] {K : Type} [LinearOrder K] {key key' : T → K} {h : Heap T}
  {s : Finset T}

/-- The first element of a set, if it has one. -/
def LeastOf (key : T → K) (s : Finset T) : Option T → Prop
  | none => s = ∅
  | some x => x ∈ s ∧ ∀ y ∈ s, key x ≤ key y

theorem leastOf_head {xs : List T} (hs : Sorted key xs) : LeastOf key xs.toFinset xs.head? := by
  cases xs with
  | nil => rfl
  | cons x xs =>
      refine ⟨List.mem_toFinset.mpr List.mem_cons_self, fun y hy => ?_⟩
      rcases List.mem_cons.mp (List.mem_toFinset.mp hy) with rfl | hy
      · exact le_refl _
      · exact ((List.pairwise_cons.mp hs).1 y hy).le

theorem Heap.Keeps.congr (hkeeps : h.Keeps key s) (hsame : ∀ x ∈ s, key' x = key x) :
    h.Keeps key' s := by
  obtain ⟨xs, hholds, hs, rfl⟩ := hkeeps
  refine ⟨xs, hholds, hs.imp_of_mem fun hx hy hlt => ?_, rfl⟩
  rwa [hsame _ (List.mem_toFinset.mpr hx), hsame _ (List.mem_toFinset.mpr hy)]

theorem Heap.Keeps.findBy (hkeeps : h.Keeps key s) (q : K) :
    ∃ r, Returns (fun fuel => rbFindBy (fun x => compare q (key x)) fuel h h.root) r ∧
      ∀ y, r = some y ↔ y ∈ s ∧ key y = q := by
  obtain ⟨t, -, hanswers⟩ := hkeeps.tree
  exact hanswers.find_by q

theorem Heap.Keeps.min (hkeeps : h.Keeps key s) :
    ∃ r, Returns (fun fuel => rbMin fuel h) r ∧ LeastOf key s r := by
  obtain ⟨xs, ⟨t, m, hat, hbalanced, rfl⟩, hs, rfl⟩ := hkeeps
  have hroot : h.root = t.root := hat.around
  obtain ⟨n, hmin⟩ := rbMinMax_ok .right hat none
  refine ⟨t.inorder.head?, ⟨n, fun fuel hfuel => ?_⟩, leastOf_head hs⟩
  change rbMin fuel h = _
  rw [rbMin, hroot]
  exact (hmin fuel hfuel).trans (congrArg Except.ok Option.or_none)

/-- After the first element comes the first of the others. -/
theorem Heap.Keeps.next (hkeeps : h.Keeps key s) {x : T} (hx : LeastOf key s (some x)) :
    ∃ r, Returns (fun fuel => rbNext fuel h (some x)) r ∧ LeastOf key (s.erase x) r := by
  obtain ⟨xs, ⟨t, m, hat, hbalanced, rfl⟩, hs, rfl⟩ := hkeeps
  obtain ⟨hmem, hleast⟩ := hx
  obtain ⟨pre, post, hsplit⟩ := List.append_of_mem (List.mem_toFinset.mp hmem)
  have hpre : pre = [] := by
    rcases pre with - | ⟨y, pre⟩
    · rfl
    · have hlt : key y < key x := by
        rw [hsplit, List.cons_append] at hs
        exact (List.pairwise_cons.mp hs).1 x (by simp)
      exact absurd (hleast y (List.mem_toFinset.mpr (by rw [hsplit]; simp))) (not_le.mpr hlt)
  rw [hpre, List.nil_append] at hsplit
  have horder : t.ordered .right = [] ++ x :: post := hsplit
  refine ⟨post.head?, rbStep_ok .right hat horder, ?_⟩
  rw [hsplit] at hs ⊢
  have hnodup : (x :: post).Nodup := hsplit ▸ (List.nodup_append.mp hat.nodup).1
  have herase : (x :: post).toFinset.erase x = post.toFinset := by
    rw [List.toFinset_cons]
    exact Finset.erase_insert fun hin => (List.nodup_cons.mp hnodup).1 (List.mem_toFinset.mp hin)
  rw [herase]
  exact leastOf_head (List.pairwise_cons.mp hs).2

end Ztmux.Compat
