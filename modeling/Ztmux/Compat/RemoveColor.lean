import Ztmux.Compat.InsertColor

/-!
Repairing the colours after a black element was taken out.

The subtree at the place has one black node too few on its paths. Its sibling is never empty,
since its paths have one more. A red sibling is rotated away; then either the sibling becomes
red and the problem moves up, or one or two rotations solve it.
-/

namespace Ztmux.Compat

open RedBlack RedBlack.RbTree

variable {T : Type} [DecidableEq T] {h : Heap T} {path : List (Frame T)} {d : Side} {c k : Color}
  {n : Nat} {a b t : RbTree T} {p x : T}

/-! ### Reading -/

omit [DecidableEq T] in
theorem balanced_succ_ne_nil (hb : Balanced k (n + 1) b) : b ≠ nil := fun hnil => by
  rw [hnil] at hb
  cases hb

omit [DecidableEq T] in
/-- The root of the whole tree is above a place that is not the root. -/
theorem root_mem_outside {hole : Option T} {f : Frame T} (hpath : Surrounds h hole (f :: path)) :
    ∃ z ∈ outside (f :: path), h.root = some z := by
  induction path generalizing hole f with
  | nil => exact ⟨f.elm, List.mem_cons_self, hpath.2.2⟩
  | cons g path ih =>
      obtain ⟨z, hz, hroot⟩ := ih hpath.2.2
      exact ⟨z, .tail _ (List.mem_append_right _ hz), hroot⟩

omit [DecidableEq T] in
theorem Heap.At.root_ne_root {f : Frame T} (hat : h.At (f :: path) t) : t.root ≠ h.root := by
  obtain ⟨z, hz, hroot⟩ := root_mem_outside hat.around
  intro heq
  exact (List.nodup_append'.mp hat.nodup).2.2 (root_mem (heq.trans hroot)) hz

omit [DecidableEq T] in
theorem blackChildren_eq (hat : h.At path (join d c a x b)) :
    blackChildren h (some x) = .ok (decide (a.color ≠ .red ∧ b.color ≠ .red)) := by
  have ha := (at_cons.mpr hat).isRed_eq
  have hb := (at_sibling.mp (at_cons.mpr hat)).isRed_eq
  have hca := hat.child
  have hcb := hat.child_other
  cases d with
  | left =>
      rw [blackChildren, hca, ok_bind, ha, ok_bind]
      by_cases hred : a.color = .red
      · simp [hred, pure, Except.pure]
      · change rbChild .right h (some x) = _ at hcb
        simp [hred, hcb, ok_bind, hb, pure, Except.pure]
  | right =>
      change rbChild .left h (some x) = _ at hcb
      rw [blackChildren, hcb, ok_bind, hb, ok_bind]
      by_cases hred : b.color = .red
      · simp [hred, pure, Except.pure]
      · simp [hred, hca, ok_bind, ha, pure, Except.pure]

/-! ### The sibling -/

/-- The sibling is black afterwards, and the parent may be red then. -/
theorem blackSibling_ok (hat : h.At (⟨d, c, p, b⟩ :: path) t)
    (hpath : Fits .black (n + 1) (⟨d, c, p, b⟩ :: path)) :
    ∃ h' c' b' path', blackSibling d h (some p) = .ok (h', b'.root) ∧
      h'.At (⟨d, c', p, b'⟩ :: path') t ∧ Balanced .black (n + 1) b' ∧
      Fits .black (n + 1) (⟨d, c', p, b'⟩ :: path') ∧ (c' = .black → path' = path) ∧
      (plug (⟨d, c', p, b'⟩ :: path') t).inorder = (plug (⟨d, c, p, b⟩ :: path) t).inorder := by
  have hchild := (at_cons.mp hat).child_other
  have hsibling := at_sibling.mp hat
  obtain ⟨kb, hb⟩ : ∃ kb, Balanced kb (n + 1) b := by
    cases hpath with
    | red hb _ => exact ⟨_, hb⟩
    | black hb _ => exact ⟨_, hb⟩
  obtain ⟨k, b₁, y, b₂, rfl⟩ := exists_join (balanced_succ_ne_nil hb) d
  obtain rfl := hb.join_color
  have hcolor := hsibling.color_eq (root_join _ _ _ _ _)
  rw [root_join] at hchild
  rw [color_join] at hcolor
  rw [blackSibling, hchild, ok_bind, hcolor, ok_bind]
  cases kb with
  | black => exact ⟨h, c, _, path, by rw [root_join]; rfl, hat, hb, hpath, fun _ => rfl, rfl⟩
  | red =>
      obtain - | ⟨hb', -⟩ | ⟨-, hpath⟩ := hpath
      · cases hb'.join_color
      obtain ⟨-, hb₁, hb₂⟩ := balanced_join_red.mp hb
      obtain ⟨hcall₁, hat₁⟩ := hsibling.setColor .black
      obtain ⟨hcall₂, hat₂⟩ := (at_cons.mp (at_sibling.mpr hat₁)).setColor .red
      obtain ⟨h', hcall₃, hat₃⟩ := rbRotate_ok hat₂
      have hat' := at_cons.mpr (at_cons.mpr hat₃)
      refine ⟨h', .red, b₁, ⟨d, .black, y, b₂⟩ :: path, ?_, hat', hb₁, .red hb₁ (.black hb₂ hpath),
        (fun hc => nomatch hc), ?_⟩
      · rw [if_pos rfl, rbSetBlackRed, hcall₁, ok_bind, hcall₂, ok_bind, hcall₃, ok_bind,
          (at_cons.mp hat').child_other]
        rfl
      · refine plug_congr (inorder_rotate d .red .black t p b₁ y b₂ |>.trans ?_)
        exact inorder_join_congr rfl (inorder_join_color _ _ _ _ _ _)

/-- When a child of the black sibling is red, the outer one is red afterwards. -/
theorem redOuter_ok (hat : h.At (⟨d, c, p, b⟩ :: path) t) (hb : Balanced .black (n + 1) b)
    (hred : ¬blackChildren h b.root = .ok true) :
    ∃ h' c' b₁ y b₂, redOuter d h (some p) b.root = .ok (h', some y) ∧
      h'.At (⟨d, c, p, join d .black b₁ y b₂⟩ :: path) t ∧ Balanced c' n b₁ ∧ Balanced .red n b₂ ∧
      (join d .black b₁ y b₂).inorder = b.inorder := by
  obtain ⟨k, b₁, y, b₂, rfl⟩ := exists_join (balanced_succ_ne_nil hb) d
  obtain rfl := hb.join_color
  obtain ⟨-, m, c₁, c₂, hm, hb₁, hb₂⟩ := balanced_join_black.mp hb
  obtain rfl : n = m := by omega
  have hsibling := at_sibling.mp hat
  have hinner := at_cons.mpr hsibling
  have houter := (at_sibling.mp hinner).isRed_eq
  have hchild := hsibling.child_other
  rw [root_join] at hred ⊢
  rw [redOuter, hchild, ok_bind, houter, ok_bind]
  by_cases hc₂ : b₂.color = .red
  · obtain rfl : c₂ = .red := hb₂.color_eq.symm.trans hc₂
    rw [decide_eq_true hc₂, if_pos rfl]
    exact ⟨h, c₁, b₁, y, b₂, rfl, hat, hb₁, hb₂, rfl⟩
  · have hc₁ : b₁.color = .red := by
      by_contra hc₁
      rw [blackChildren_eq hsibling, decide_eq_true ⟨hc₁, hc₂⟩] at hred
      exact hred rfl
    have hne : b₁ ≠ nil := fun hnil => by rw [hnil] at hc₁; cases hc₁
    obtain ⟨k, b₁₁, z, b₁₂, rfl⟩ := exists_join hne d
    obtain rfl : k = .red := by simpa using hc₁
    obtain ⟨-, hb₁₁, hb₁₂⟩ := balanced_join_red.mp hb₁
    replace hb₂ := hb₂.black_of_ne hc₂
    -- The inner child becomes black and the sibling red, and they change places.
    obtain ⟨hcall₁, hat₁⟩ := hinner.setColor .black
    obtain ⟨hcall₂, hat₂⟩ := (at_cons.mp hat₁).setColor .red
    rw [← join_other, ← join_other d .black] at hat₂
    obtain ⟨h', hcall₃, hat₃⟩ := rbRotate_ok hat₂
    rw [join_other, join_other] at hat₃
    have hat' := at_sibling.mpr hat₃
    refine ⟨h', .black, b₁₁, z, join d .red b₁₂ y b₂, ?_, hat', hb₁₁,
      balanced_join_red.mpr ⟨rfl, hb₁₂, hb₂⟩, ?_⟩
    · rw [decide_eq_false hc₂]
      simp only [Bool.false_eq_true, if_false, hsibling.child, ok_bind, root_join, unlessNull,
        reduceCtorEq, hcall₁, hcall₂, hcall₃, (at_cons.mp hat').child_other]
      rfl
    · rw [← inorder_rotate]
      exact inorder_join_congr (inorder_join_color _ _ _ _ _ _) rfl

/-! ### The last turn -/

theorem lastTurn_ok (hat : h.At (⟨d, c, p, b⟩ :: path) t) (hb : Balanced .black (n + 1) b)
    (hred : ¬blackChildren h b.root = .ok true) (ht : Balanced .black n t)
    (hpath : Fits .black (n + 1) (⟨d, c, p, b⟩ :: path)) :
    ∃ h', (do let h ← lastTurn d h (some p) b.root; blacken h h.root) = Except.ok h' ∧
      h'.Holds (plug (⟨d, c, p, b⟩ :: path) t).inorder := by
  obtain ⟨h₁, c₁, b₁, y, b₂, houter, hat₁, hb₁, hb₂, horder⟩ := redOuter_ok hat hb hred
  have hne₂ : b₂ ≠ nil := fun hnil => by rw [hnil] at hb₂; cases hb₂
  obtain ⟨k, b₂₁, z, b₂₂, rfl⟩ := exists_join hne₂ d
  obtain rfl := hb₂.join_color
  obtain ⟨-, hb₂₁, hb₂₂⟩ := balanced_join_red.mp hb₂
  have hparent := (at_cons.mp hat₁).color_eq (root_join _ _ _ _ _)
  rw [color_join] at hparent
  obtain ⟨hcall₂, hat₂⟩ := (at_sibling.mp hat₁).setColor c
  obtain ⟨hcall₃, hat₃⟩ := (at_cons.mp (at_sibling.mpr hat₂)).setColor .black
  have hsibling := at_sibling.mp (at_cons.mpr hat₃)
  have hchild := hsibling.child_other
  obtain ⟨hcall₄, hat₄⟩ := (at_sibling.mp (at_cons.mpr hsibling)).setColor .black
  obtain ⟨h₅, hcall₅, hat₅⟩ :=
    rbRotate_ok (at_cons.mp (at_sibling.mpr (at_cons.mp (at_sibling.mpr hat₄))))
  have hnode : Balanced .black (n + 1) (join d .black t p b₁) :=
    balanced_join_black.mpr ⟨rfl, n, _, _, rfl, ht, hb₁⟩
  have hblack : Balanced .black (n + 1) (join d .black b₂₁ z b₂₂) :=
    balanced_join_black.mpr ⟨rfl, n, _, _, rfl, hb₂₁, hb₂₂⟩
  obtain ⟨m, hbalanced⟩ : ∃ m,
      Balanced .black m
        (plug path (join d c (join d .black t p b₁) y (join d .black b₂₁ z b₂₂))) := by
    cases hpath with
    | red _ hpath => exact hpath.balanced (balanced_join_red.mpr ⟨rfl, hnode, hblack⟩)
    | black _ hpath =>
        exact hpath.balanced (balanced_join_black.mpr ⟨rfl, _, _, _, rfl, hnode, hblack⟩)
  have hne : join d c (join d .black t p b₁) y (join d .black b₂₁ z b₂₂) ≠ nil := fun hnil => by
    have := root_join d c (join d .black t p b₁) y (join d .black b₂₁ z b₂₂)
    rw [hnil] at this
    cases this
  obtain ⟨h', hcall₆, hholds⟩ := blackenRoot_ok hat₅ hne hbalanced
  refine ⟨h', ?_, ?_⟩
  · have hroot : h₅.root ≠ none := by
      intro hnone
      rw [blackenRoot, hnone] at hcall₆
      cases hcall₆
    rw [lastTurn, houter, ok_bind, hparent, ok_bind, hcall₂, ok_bind, hcall₃, ok_bind, hchild,
      ok_bind, root_join, unlessNull, if_neg (Option.some_ne_none z), hcall₄, ok_bind, hcall₅,
      ok_bind, blacken,
      unlessNull, if_neg hroot]
    exact hcall₆
  · have hsame : (join d c (join d .black t p b₁) y (join d .black b₂₁ z b₂₂)).inorder =
        (join d c t p b).inorder := by
      rw [inorder_rotate]
      refine inorder_join_congr rfl (Eq.trans ?_ horder)
      exact inorder_join_congr rfl (inorder_join_color _ _ _ _ _ _)
    exact @plug_congr T path _ _ hsame ▸ hholds

/-! ### The loop -/

/-- The loop ends at a red element, which becomes black. -/
theorem rbRemoveColor_red (hat : h.At path (join d .red a x b)) :
    ∃ h', (∀ parent fuel, rbRemoveColor (fuel + 1) h parent (some x) = .ok h') ∧
      h'.At path (join d .black a x b) := by
  have hred := hat.isRed_eq
  obtain ⟨hcall, hat'⟩ := hat.setColor .black
  rw [root_join, color_join, decide_eq_true rfl] at hred
  refine ⟨_, fun parent fuel => ?_, hat'⟩
  rw [rbRemoveColor, hred, ok_bind, Bool.true_or, if_pos rfl]
  exact hcall

theorem rbRemoveColor_root (hat : h.At [] t) (ht : Balanced k n t) (parent : Option T) :
    ∃ h', Returns (fun fuel => rbRemoveColor fuel h parent t.root) h' ∧ h'.Holds t.inorder := by
  have hroot : h.root = t.root := hat.around
  have hend : ∀ fuel, rbRemoveColor (fuel + 1) h parent t.root = blacken h t.root := fun fuel => by
    rw [rbRemoveColor, hat.isRed_eq, ok_bind, hroot, decide_eq_true rfl, Bool.or_true, if_pos rfl]
  by_cases hne : t = nil
  · subst hne
    refine ⟨h, .of_succ ⟨0, fun fuel _ => hend fuel⟩, nil, 0, hat, .nil, rfl⟩
  · obtain ⟨h', hcall, hholds⟩ := blackenRoot_ok hat hne ht
    refine ⟨h', .of_succ ⟨0, fun fuel _ => ?_⟩, hholds⟩
    change rbRemoveColor (fuel + 1) h parent t.root = _
    rw [hend, blacken, unlessNull, if_neg (fun hnone => hne (root_eq_none.mp hnone)), ← hroot]
    exact hcall

/-- What the loop reads at a black subtree below a node. -/
theorem rbRemoveColor_succ (hat : h.At (⟨d, c, p, b⟩ :: path) t) (hcolor : t.color = .black)
    (hne : b.root ≠ none) (fuel : Nat) :
    rbRemoveColor (fuel + 1) h (some p) t.root = (do
      let r ← blackSibling d h (some p)
      if ← blackChildren r.1 r.2 then
        let h ← rbSetColor r.1 r.2 .red
        rbRemoveColor fuel h (← rbParent h (some p)) (some p)
      else
        let h ← lastTurn d r.1 (some p) r.2
        blacken h h.root) := by
  have hred : isRed h t.root = .ok false := by
    rw [hat.isRed_eq, hcolor]
    rfl
  rw [rbRemoveColor, hred, ok_bind, Bool.false_or, decide_eq_false hat.root_ne_root,
    if_neg Bool.false_ne_true, (at_cons.mp hat).sideOf_eq (.inr hne), ok_bind]

/-- The siblings of both colours are black now: the sibling becomes red. -/
theorem rbRemoveColor_up {b₁ b₂ : RbTree T} {y : T}
    (hat : h.At (⟨d, c, p, join d .black b₁ y b₂⟩ :: path) t)
    (hb₁ : b₁.color ≠ .red) (hb₂ : b₂.color ≠ .red) :
    ∃ h', blackChildren h (some y) = .ok true ∧ rbSetColor h (some y) .red = .ok h' ∧
      rbParent h' (some p) = .ok (above path) ∧
      h'.At path (join d c t p (join d .red b₁ y b₂)) := by
  have hsibling := at_sibling.mp hat
  obtain ⟨hcall, hat'⟩ := hsibling.setColor .red
  have hup := at_cons.mp (at_sibling.mpr hat')
  refine ⟨_, ?_, hcall, hup.parent (root_join _ _ _ _ _), hup⟩
  rw [blackChildren_eq hsibling, decide_eq_true ⟨hb₁, hb₂⟩]

omit [DecidableEq T] in
theorem Heap.At.holds (hat : h.At path t) (ht : Balanced k n t) (hpath : Fits k n path) :
    h.Holds (plug path t).inorder := by
  obtain ⟨m, hbalanced⟩ := hpath.balanced ht
  exact ⟨plug path t, m, at_plug.mp hat, hbalanced, rfl⟩

theorem rbRemoveColor_ok (hat : h.At path t) (ht : Balanced k n t)
    (hpath : Fits .black (n + 1) path) :
    ∃ h', Returns (fun fuel => rbRemoveColor fuel h (above path) t.root) h' ∧
      h'.Holds (plug path t).inorder := by
  induction path generalizing h t k n with
  | nil => exact rbRemoveColor_root hat ht none
  | cons f path ih =>
      obtain ⟨d, c, p, b⟩ := f
      cases k with
      | red =>
          have hne : t ≠ nil := fun hnil => by rw [hnil] at ht; cases ht
          obtain ⟨k, a, x, b', rfl⟩ := exists_join hne d
          obtain rfl := ht.join_color
          obtain ⟨-, ha, hb'⟩ := balanced_join_red.mp ht
          have hblack : Balanced .black (n + 1) (join d .black a x b') :=
            balanced_join_black.mpr ⟨rfl, n, _, _, rfl, ha, hb'⟩
          obtain ⟨h', hcall, hat'⟩ := rbRemoveColor_red hat
          have horder :=
            @plug_congr T (⟨d, c, p, b⟩ :: path) _ _ (inorder_join_color d .black .red a x b')
          rw [root_join]
          exact ⟨h', .of_succ ⟨0, fun fuel _ => hcall (some p) fuel⟩,
            horder ▸ hat'.holds hblack hpath⟩
      | black =>
          obtain ⟨h₁, c', b', path', hcall₁, hat₁, hb', hpath', hsame, horder₁⟩ :=
            blackSibling_ok hat hpath
          have hne : b.root ≠ none := by
            cases hpath with
            | red hb _ => exact fun hnone => balanced_succ_ne_nil hb (root_eq_none.mp hnone)
            | black hb _ => exact fun hnone => balanced_succ_ne_nil hb (root_eq_none.mp hnone)
          have hstep := rbRemoveColor_succ hat ht.color_eq hne
          simp only [hcall₁, ok_bind] at hstep
          by_cases hchildren : blackChildren h₁ b'.root = .ok true
          · obtain ⟨k, b₁, y, b₂, rfl⟩ := exists_join (balanced_succ_ne_nil hb') d
            obtain rfl := hb'.join_color
            obtain ⟨-, m, c₁, c₂, hm, hb₁, hb₂⟩ := balanced_join_black.mp hb'
            obtain rfl : n = m := by omega
            have hcolors : b₁.color ≠ .red ∧ b₂.color ≠ .red := by
              rw [root_join, blackChildren_eq (at_sibling.mp hat₁)] at hchildren
              exact of_decide_eq_true (Except.ok.inj hchildren)
            have hred : Balanced .red n (join d .red b₁ y b₂) :=
              balanced_join_red.mpr ⟨rfl, hb₁.black_of_ne hcolors.1, hb₂.black_of_ne hcolors.2⟩
            have hblack : Balanced .black (n + 1) (join d .black t p (join d .red b₁ y b₂)) :=
              balanced_join_black.mpr ⟨rfl, n, _, _, rfl, ht, hred⟩
            have horder₂ : (plug path' (join d .black t p (join d .red b₁ y b₂))).inorder =
                (plug (⟨d, c', p, join d .black b₁ y b₂⟩ :: path') t).inorder :=
              plug_congr (inorder_join_congr rfl (inorder_join_color _ _ _ _ _ _))
            obtain ⟨h₂, -, hcall₂, hup, hat₂⟩ := rbRemoveColor_up hat₁ hcolors.1 hcolors.2
            have hturn : ∀ fuel, rbRemoveColor (fuel + 1) h (some p) t.root =
                rbRemoveColor fuel h₂ (above path') (some p) := fun fuel => by
              rw [hstep, hchildren, ok_bind, if_pos rfl, root_join, hcall₂, ok_bind, hup, ok_bind]
            cases c' with
            | red =>
                obtain ⟨h', hcall, hat'⟩ := rbRemoveColor_red hat₂
                obtain - | ⟨-, hpath'⟩ | - := hpath'
                refine ⟨h', .of_succ (.of_succ ⟨0, fun fuel _ => ?_⟩),
                  horder₁ ▸ horder₂ ▸ hat'.holds hblack hpath'.weaken⟩
                exact (hturn (fuel + 1)).trans (hcall _ fuel)
            | black =>
                obtain rfl := hsame rfl
                obtain - | - | ⟨-, hpath'⟩ := hpath'
                obtain ⟨h', ⟨m, hret⟩, hholds⟩ := ih hat₂ hblack hpath'
                rw [root_join] at hret
                refine ⟨h', .of_succ ⟨m, fun fuel hfuel => ?_⟩, horder₁ ▸ horder₂ ▸ hholds⟩
                exact (hturn fuel).trans (hret fuel hfuel)
          · obtain ⟨h', hcall, hholds⟩ := lastTurn_ok hat₁ hb' hchildren ht hpath'
            have hfalse : blackChildren h₁ b'.root = .ok false := by
              obtain ⟨k, b₁, y, b₂, rfl⟩ := exists_join (balanced_succ_ne_nil hb') d
              rw [root_join, blackChildren_eq (at_sibling.mp hat₁)] at hchildren ⊢
              exact congrArg Except.ok
                (Bool.eq_false_iff.mpr fun htrue => hchildren (by rw [htrue]))
            refine ⟨h', .of_succ ⟨0, fun fuel _ => ?_⟩, horder₁ ▸ hholds⟩
            change rbRemoveColor (fuel + 1) h (some p) t.root = _
            rw [hstep, hfalse, ok_bind, if_neg Bool.false_ne_true]
            exact hcall

end Ztmux.Compat
