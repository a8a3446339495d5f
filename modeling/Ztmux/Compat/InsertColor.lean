import Ztmux.Compat.Rotate

/-!
Repairing the colours after an element was linked.

The element is red and is the root of a balanced subtree; only its parent may be red as well.
A red uncle passes the problem on to the grandparent, and otherwise a rotation solves it.
-/

namespace Ztmux.Compat

open RedBlack RedBlack.RbTree

variable {T : Type} [DecidableEq T] {h : Heap T} {path : List (Frame T)} {d : Side} {c k : Color}
  {n : Nat} {t : RbTree T} {x : T}

/-- The entries are linked as a red-black tree with these elements, in this order. -/
def Heap.Holds (h : Heap T) (xs : List T) : Prop :=
  ∃ t m, h.At [] t ∧ Balanced .black m t ∧ t.inorder = xs

/-! ### The root -/

theorem blackenRoot_ok (hat : h.At path t) (ht : t ≠ nil) (hbalanced : Balanced k n (plug path t)) :
    ∃ h', blackenRoot h = .ok h' ∧ h'.Holds (plug path t).inorder := by
  have hplug : plug path t ≠ nil := by
    intro hnil
    have horder := inorder_plug path t
    rw [hnil] at horder
    cases t with
    | nil => exact ht rfl
    | node c l x r => simp [inorder] at horder
  obtain ⟨c, a, x, b, heq⟩ := exists_join hplug .left
  have hat' := at_plug.mp hat
  rw [heq] at hat' hbalanced ⊢
  obtain ⟨m, hblack⟩ := hbalanced.blacken
  obtain ⟨hcall, hset⟩ := hat'.setColor .black
  refine ⟨_, ?_, join .left .black a x b, m, hset, hblack, inorder_join_color _ _ _ _ _ _⟩
  have hroot : h.root = some x := hat'.around
  rw [blackenRoot, hroot, hcall]

/-- The loop ends below a black element, or at the root. -/
theorem rbInsertColor_end (hat : h.At path t) (hroot : t.root = some x)
    (habove : ∀ f ∈ path.head?, f.color = .black) (hbalanced : Balanced k n (plug path t)) :
    ∃ h', Returns (fun fuel => rbInsertColor fuel h (some x)) h' ∧
    h'.Holds (plug path t).inorder := by
  have ht : t ≠ nil := fun hnil => by rw [hnil] at hroot; cases hroot
  obtain ⟨h', hcall, hholds⟩ := blackenRoot_ok hat ht hbalanced
  refine ⟨h', .of_succ ⟨0, fun fuel _ => ?_⟩, hholds⟩
  have hred : isRed h (above path) = .ok false := by
    rcases path with - | ⟨⟨d, c, p, s⟩, path⟩
    · rfl
    · obtain rfl : c = .black := habove _ rfl
      have hup := (at_cons.mp hat).isRed_eq
      rw [root_join, color_join] at hup
      exact hup
  change rbInsertColor (fuel + 1) h (some x) = _
  rw [rbInsertColor, hat.parent hroot, ok_bind, hred, ok_bind]
  exact hcall

/-! ### The turns -/

section Turns

variable {p g z : T} {s u ua ub : RbTree T} {e : Side}

theorem rbSetBlackRed_ok {cp cg : Color} (hat : h.At (⟨e, cp, p, s⟩ :: ⟨d, cg, g, u⟩ :: path) t) :
    ∃ h', rbSetBlackRed h (some p) (some g) = .ok h' ∧
      h'.At (⟨e, .black, p, s⟩ :: ⟨d, .red, g, u⟩ :: path) t := by
  obtain ⟨hcall₁, hat₁⟩ := (at_cons.mp hat).setColor .black
  obtain ⟨hcall₂, hat₂⟩ := (at_cons.mp hat₁).setColor .red
  refine ⟨_, ?_, at_cons.mpr (at_cons.mpr hat₂)⟩
  rw [rbSetBlackRed, hcall₁]
  exact hcall₂

/-- A red uncle: both it and the parent become black, and the grandparent red. -/
theorem redUncle_ok
    (hat : h.At (⟨e, .red, p, s⟩ :: ⟨d, .black, g, join d .red ua z ub⟩ :: path) t) :
    ∃ h', (do rbSetBlackRed (← rbSetColor h (some z) .black) (some p) (some g)) = Except.ok h' ∧
      h'.At path (join d .red (join e .black t p s) g (join d .black ua z ub)) := by
  obtain ⟨hcall₁, hat₁⟩ := (at_sibling.mp (at_cons.mp hat)).setColor .black
  obtain ⟨h', hcall₂, hat₂⟩ := rbSetBlackRed_ok (at_cons.mpr (at_sibling.mpr hat₁))
  refine ⟨h', ?_, at_cons.mp (at_cons.mp hat₂)⟩
  rw [hcall₁]
  exact hcall₂

/-- A red parent on the outer side is rotated above the grandparent. -/
theorem outerTurn_ok (hat : h.At (⟨d, .red, p, s⟩ :: ⟨d, .black, g, u⟩ :: path) t) :
    ∃ h', (do rbRotate d.other (← rbSetBlackRed h (some p) (some g)) (some g)) = Except.ok h' ∧
      h'.At (⟨d, .black, p, join d .red s g u⟩ :: path) t := by
  obtain ⟨h₁, hcall₁, hat₁⟩ := rbSetBlackRed_ok hat
  have hat₂ := at_cons.mp (at_cons.mp hat₁)
  rw [← join_other, ← join_other d .black] at hat₂
  obtain ⟨h', hcall₂, hat₃⟩ := rbRotate_ok hat₂
  rw [join_other, join_other] at hat₃
  refine ⟨h', ?_, at_cons.mpr hat₃⟩
  rw [hcall₁]
  exact hcall₂

/-- A red element on the inner side changes places with its parent. -/
theorem turnOut_ok (hat : h.At (⟨e, .red, p, s⟩ :: ⟨d, .black, g, u⟩ :: path) t)
    (hroot : t.root = some x) (ht : Balanced .red n t) (hs : Balanced .black n s) :
    ∃ h' p' x' s' t', turnOut d h (some p) (some x) = .ok (h', some p', some x') ∧
      h'.At (⟨d, .red, p', s'⟩ :: ⟨d, .black, g, u⟩ :: path) t' ∧ t'.root = some x' ∧
      Balanced .red n t' ∧ Balanced .black n s' ∧
      (join d .red t' p' s').inorder = (join e .red t p s).inorder := by
  have hchild := (at_cons.mp hat).child
  have hother := (at_cons.mp hat).child_other
  have hroots := (at_cons.mp hat).root_ne (.inl (by rw [hroot]; exact Option.some_ne_none x))
  rw [hroot] at hroots hchild
  rcases d.eq_or e with rfl | rfl
  · refine ⟨h, p, x, s, t, ?_, hat, hroot, ht, hs, rfl⟩
    rw [turnOut, hother]
    exact if_neg hroots.symm
  · have hne : t ≠ nil := fun hnil => by rw [hnil] at hroot; cases hroot
    obtain ⟨k, a, y, b, rfl⟩ := exists_join hne d
    obtain rfl : y = x := by simpa using hroot
    obtain rfl := ht.join_color
    obtain ⟨-, ha, hb⟩ := balanced_join_red.mp ht
    have hin := at_cons.mp hat
    rw [join_other] at hin
    obtain ⟨h', hrotate, hat'⟩ := rbRotate_ok hin
    refine ⟨h', y, p, b, join d .red s p a, ?_, at_cons.mpr hat', root_join _ _ _ _ _,
      balanced_join_red.mpr ⟨rfl, hs, ha⟩, hb, ?_⟩
    · rw [turnOut, hchild]
      change (if some y = some y then _ else _) = _
      rw [if_pos rfl, hrotate]
      rfl
    · rw [inorder_rotate, join_other]

/-! ### The loop -/

/-- What the loop reads before it looks at the uncle. -/
theorem rbInsertColor_succ (hat : h.At (⟨e, .red, p, s⟩ :: ⟨d, .black, g, u⟩ :: path) t)
    (hroot : t.root = some x) (fuel : Nat) :
    rbInsertColor (fuel + 1) h (some x) =
      (if u.color = .red then do
        let h ← rbSetColor h u.root .black
        rbInsertColor fuel (← rbSetBlackRed h (some p) (some g)) (some g)
      else do
        let r ← turnOut d h (some p) (some x)
        let h ← rbSetBlackRed r.1 r.2.1 (some g)
        rbInsertColor fuel (← rbRotate d.other h (some g)) r.2.2) := by
  have hparent := (at_cons.mp hat)
  have hgparent := at_cons.mp hparent
  have hred := hparent.isRed_eq
  have hup := hparent.parent (root_join _ _ _ _ _)
  have hside := hgparent.sideOf_eq (.inl (by rw [root_join]; exact Option.some_ne_none p))
  have huncle := (at_sibling.mp hparent).isRed_eq
  rw [root_join, color_join] at hred
  rw [root_join] at hside
  have hread : rbParent h (some x) = .ok (some p) := hat.parent hroot
  rw [rbInsertColor, hread, ok_bind, hred, ok_bind, decide_eq_true rfl, if_pos rfl, hup]
  simp only [above, ok_bind, hside, hgparent.child_other, huncle]
  by_cases hu : u.color = .red
  · rw [decide_eq_true hu, if_pos hu]
    rfl
  · rw [decide_eq_false hu, if_neg hu]
    rfl

end Turns

theorem rbInsertColor_ok (hat : h.At path t) (hroot : t.root = some x) (ht : Balanced .red n t)
    (hpath : Fits .black n path) :
    ∃ h', Returns (fun fuel => rbInsertColor fuel h (some x)) h' ∧
    h'.Holds (plug path t).inorder := by
  induction hlength : path.length using Nat.strong_induction_on generalizing h path t x n with
  | _ length ih =>
  cases hpath with
  | root n => exact rbInsertColor_end hat hroot (by simp) ht
  | @black d k c n p s path hs hpath =>
      have hred : Fits .red n (⟨d, .black, p, s⟩ :: path) := .black hs hpath
      obtain ⟨m, hbalanced⟩ := hred.balanced ht
      exact rbInsertColor_end hat hroot (by simp) hbalanced
  | @red e n p s path hs hpath =>
      obtain - | - | @⟨d, k, c, n, g, u, path, hu, hpath⟩ := hpath
      have hstep := rbInsertColor_succ hat hroot
      by_cases hcolor : u.color = .red
      · -- The grandparent is red now, and it is the one to look at.
        have hne : u ≠ nil := fun hnil => by rw [hnil] at hcolor; cases hcolor
        obtain ⟨k, ua, z, ub, rfl⟩ := exists_join hne d
        obtain rfl : k = .red := by simpa using hcolor
        obtain ⟨-, hua, hub⟩ := balanced_join_red.mp hu
        obtain ⟨h₁, hcall, hat₁⟩ := redUncle_ok hat
        have hgparent : Balanced .red (n + 1)
            (join d .red (join e .black t p s) g (join d .black ua z ub)) :=
          balanced_join_red.mpr ⟨rfl, balanced_join_black.mpr ⟨rfl, n, _, _, rfl, ht, hs⟩,
            balanced_join_black.mpr ⟨rfl, n, _, _, rfl, hua, hub⟩⟩
        obtain ⟨h', ⟨m, hret⟩, hholds⟩ := ih path.length (by rw [← hlength]; simp) hat₁
          (root_join _ _ _ _ _) hgparent hpath rfl
        have horder := @plug_congr T path _ _ (@inorder_join_congr T d .red .black _ _ g _ _
          (inorder_join_color e .black .red t p s) (inorder_join_color d .black .red ua z ub))
        refine ⟨h', .of_succ ⟨m, fun fuel hfuel => ?_⟩, ?_⟩
        · change rbInsertColor (fuel + 1) h (some x) = _
          rw [hstep, if_pos hcolor, root_join, ← hret fuel hfuel, ← bind_assoc, hcall]
          rfl
        · rw [horder] at hholds
          exact hholds
      · replace hu := hu.black_of_ne hcolor
        obtain ⟨h₁, p', x', s', t', hturn, hat₁, hroot', ht', hs', horder⟩ :=
          turnOut_ok hat hroot ht hs
        obtain ⟨h₂, hcall, hat₂⟩ := outerTurn_ok hat₁
        have hred : Fits .red n (⟨d, .black, p', join d .red s' g u⟩ :: path) :=
          .black (balanced_join_red.mpr ⟨rfl, hs', hu⟩) hpath
        obtain ⟨m, hbalanced⟩ := hred.balanced ht'
        obtain ⟨h', ⟨m, hret⟩, hholds⟩ := rbInsertColor_end hat₂ hroot' (by simp) hbalanced
        refine ⟨h', .of_succ ⟨m, fun fuel hfuel => ?_⟩, ?_⟩
        · change rbInsertColor (fuel + 1) h (some x) = _
          rw [hstep, if_neg hcolor, hturn, ok_bind, ← hret fuel hfuel, ← bind_assoc, hcall]
          rfl
        · have hsame : (join d .black t' p' (join d .red s' g u)).inorder =
              (join d .black (join e .red t p s) g u).inorder := by
            rw [← inorder_rotate]
            exact inorder_join_congr ((inorder_join_color _ _ _ _ _ _).trans horder) rfl
          exact @plug_congr T path _ _ hsame ▸ hholds

end Ztmux.Compat
