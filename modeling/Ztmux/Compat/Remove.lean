import Ztmux.Compat.RemoveColor

/-!
Taking an element out of the tree.

An element with two children is replaced by its successor, the leftmost element of its right
subtree, and it is the successor's old place that may have a black node too few.
-/

namespace Ztmux.Compat

open RedBlack RedBlack.RbTree

variable {T : Type} [DecidableEq T] {h : Heap T} {path : List (Frame T)} {d : Side} {c k : Color}
  {n : Nat} {a b t : RbTree T} {x y : T}

/-! ### At most one child -/

theorem rbSplice_ok (hat : h.At path (join d c nil x b)) :
    ∃ h', rbSplice h (some x) b.root = .ok (h', above path, c) ∧ h'.At path b ∧
      ∀ z, z ∉ b.inorder → z ∉ outside path → h'.entry z = h.entry z := by
  obtain ⟨hx, -, hb, hpath, -, hnb, hnp, -, hxb, hxp, -, -, hbp⟩ := at_join.mp hat
  obtain ⟨h₁, hcall₁, hb₁, hroot₁, hsame₁⟩ := reparent_ok hb hnb (above path)
  have hout₁ : SameOn h h₁ (outside path) := fun z hz => hsame₁ z fun hzb => hbp hzb hz
  obtain ⟨h', hcall₂, hpath₂, hsame₂⟩ := rbReplace_ok (hpath.congr hroot₁ hout₁)
    (fun z hz heq => hxp (Option.some.inj heq ▸ hz)) hnp (Option.some_ne_none x) b.root
  have hkept : SameOn h₁ h' b.inorder := fun z hz => hsame₂ z fun hzp => hbp hz hzp
  refine ⟨h', ?_, ⟨hb₁.congr hkept, hpath₂, List.nodup_append'.mpr ⟨hnb, hnp, hbp⟩⟩,
    fun z hzb hzp => (hsame₂ z hzp).trans (hsame₁ z hzb)⟩
  rw [rbSplice, hat.parent (root_join _ _ _ _ _), ok_bind, hat.color_eq (root_join _ _ _ _ _),
    ok_bind, color_join, hcall₁, ok_bind, hcall₂]
  rfl

/-! ### The successor -/

omit [DecidableEq T] in
theorem rbEnd_ok (d : Side) (hat : h.At path t) (hne : t ≠ nil) :
    ∃ path' c y b, t = plug path' (join d c nil y b) ∧ (∀ f ∈ path', f.side = d) ∧
      Returns (fun fuel => rbEnd d fuel h t.root) (some y) := by
  induction t using join_induction d generalizing path with
  | nil => exact absurd rfl hne
  | join c a x b iha ihb =>
      by_cases ha : a = nil
      · subst ha
        refine ⟨[], c, x, b, rfl, by simp, .of_succ ⟨0, fun fuel _ => ?_⟩⟩
        change rbEnd d (fuel + 1) h (join d c nil x b).root = _
        rw [root_join, rbEnd, hat.child, ok_bind]
        rfl
      · obtain ⟨path', c', y, b', rfl, hsides, m, hret⟩ := iha (at_cons.mpr hat) ha
        refine ⟨path' ++ [⟨d, c, x, b⟩], c', y, b', by rw [plug_append]; rfl, ?_,
          .of_succ ⟨m, fun fuel hfuel => ?_⟩⟩
        · intro f hf
          rcases List.mem_append.mp hf with hf | hf
          · exact hsides f hf
          · rw [List.mem_singleton.mp hf]
        · change rbEnd d (fuel + 1) h (join d c _ x b).root = _
          rw [root_join, rbEnd, hat.child, ok_bind, if_neg fun hnone => ha (root_eq_none.mp hnone)]
          exact hret fuel hfuel

omit [DecidableEq T] in
theorem rbAscend_ok (hat : h.At path t) (hroot : t.root = some x) :
    Returns (fun fuel => rbAscend fuel h (some x)) () := by
  induction path generalizing t x with
  | nil =>
      refine .of_succ ⟨0, fun fuel _ => ?_⟩
      change rbAscend (fuel + 1) h (some x) = _
      rw [rbAscend, hat.parent hroot, ok_bind]
      rfl
  | cons f path ih =>
      obtain ⟨m, hret⟩ := ih (at_cons.mp hat) (root_join _ _ _ _ _)
      refine .of_succ ⟨m, fun fuel hfuel => ?_⟩
      change rbAscend (fuel + 1) h (some x) = _
      rw [rbAscend, hat.parent hroot, ok_bind]
      exact hret fuel hfuel

/-- An element outside the tree gets the links and the colour of one in it. -/
theorem rbTakePlace_ok (hat : h.At path (join .left c a x b)) (ha : a ≠ nil)
    (hy : y ∉ (join .left c a x b).inorder ++ outside path) :
    ∃ h', rbTakePlace h x (some y) = .ok h' ∧
      h'.At path (join .left c a y b) := by
  have hparent := hat.parent (root_join _ _ _ _ _)
  obtain ⟨hx, hra, hrb, hpath, hna, hnb, hnp, hxa, hxb, hxp, hab, hap, hbp⟩ := at_join.mp hat
  rw [List.mem_append, mem_inorder_join, not_or, not_or, not_or] at hy
  obtain ⟨⟨hyx, hya, hyb⟩, hyp⟩ := hy
  obtain ⟨h₁, hcall₁⟩ : ∃ h₁, h.modify y (fun _ => h.entry x) = h₁ := ⟨_, rfl⟩
  have hsame₁ : ∀ z, z ≠ y → h₁.entry z = h.entry z := fun z hz => by
    rw [← hcall₁, modify_entry_of_ne h hz]
  have hy₁ : h₁.entry y = entryOf .left a.root b.root (above path) c := by
    rw [← hcall₁, modify_entry_self, hx]
  have hx₁ := (hsame₁ x (Ne.symm hyx)).trans hx
  have hpath₁ : Surrounds h₁ (some x) path :=
    hpath.congr (by rw [← hcall₁, modify_root]) fun z hz => hsame₁ z fun heq => hyp (heq ▸ hz)
  obtain ⟨h₂, hcall₂, hpath₂, hsame₂⟩ := rbReplace_ok hpath₁
    (fun z hz heq => hxp (Option.some.inj heq ▸ hz)) hnp (Option.some_ne_none x) (some y)
  have hx₂ := (hsame₂ x hxp).trans hx₁
  obtain ⟨h₃, hcall₃, ha₃, hroot₃, hsame₃⟩ := reparent_ok (h := h₂) (hra.congr fun z hz =>
    (hsame₂ z fun hzp => hap hz hzp).trans (hsame₁ z fun heq => hya (heq ▸ hz))) hna (some y)
  have hx₃ := (hsame₃ x hxa).trans hx₂
  obtain ⟨h₄, hcall₄, hb₄, hroot₄, hsame₄⟩ := reparent_ok (h := h₃) (hrb.congr fun z hz =>
    (hsame₃ z fun hza => hab hza hz).trans ((hsame₂ z fun hzp => hbp hz hzp).trans
      (hsame₁ z fun heq => hyb (heq ▸ hz)))) hnb (some y)
  refine ⟨h₄, ?_, at_join.mpr ⟨?_, ?_, hb₄, ?_, hna, hnb, hnp, hya, hyb, hyp, hab, hap, hbp⟩⟩
  · have ha' : a.root ≠ none := fun hnone => ha (root_eq_none.mp hnone)
    rw [unlessNull, if_neg ha'] at hcall₃
    rw [rbTakePlace, rbModify_some, ok_bind, hcall₁, rbParent_some, ok_bind, hx₁, entryOf_parent,
      hcall₂, ok_bind, rbChild_some, ok_bind, hx₂, entryOf_child, hcall₃, ok_bind, rbChild_some,
      ok_bind, hx₃]
    exact hcall₄
  · rw [hsame₄ y hyb, hsame₃ y hya, hsame₂ y hyp, hy₁]
  · exact ha₃.congr fun z hz => hsame₄ z fun hzb => hab hz hzb
  · refine hpath₂.congr (hroot₄.trans hroot₃) fun z hz => ?_
    rw [hsame₄ z fun hzb => hbp hzb hz, hsame₃ z fun hza => hap hza hz]

/-- The successor has taken the place of `x`, and its own place has its right subtree. -/
theorem rbRemoveInner_ok (hat : h.At path (join .left c a x b)) (ha : a ≠ nil) (hb : b ≠ nil) :
    ∃ h' path' c' y b', b = plug path' (join .left c' nil y b') ∧ (∀ f ∈ path', f.side = .left) ∧
      h'.At (path' ++ ⟨.right, c, y, a⟩ :: path) b' ∧
      Returns (fun fuel => rbRemoveInner fuel h x)
        (h', b'.root, above (path' ++ ⟨.right, c, y, a⟩ :: path), c') := by
  have hright : h.At (⟨.right, c, x, a⟩ :: path) b := at_sibling.mp (at_cons.mpr hat)
  obtain ⟨path', c', y, b', rfl, hsides, m, hend⟩ := rbEnd_ok .left hright hb
  have hplace := at_append.mpr hright
  have hyout := (at_join.mp hplace).notPath
  have hyfar := (at_join.mp hplace).notFar
  obtain ⟨h₁, hsplice, hat₁, hsame⟩ := rbSplice_ok hplace
  have hparent : rbParent h₁ (some y) = .ok (above (path' ++ ⟨.right, c, x, a⟩ :: path)) := by
    rw [rbParent_some, hsame y hyfar hyout]
    exact hplace.parent (root_join _ _ _ _ _)
  have hup : h₁.At path (join .left c a x (plug path' b')) :=
    at_cons.mp (at_sibling.mp (at_append.mp hat₁))
  have hyin : y ∉ (join .left c a x (plug path' b')).inorder ++ outside path := by
    have hwhole := inorder_plug_perm (path' ++ ⟨.right, c, x, a⟩ :: path) b'
    rw [plug_append] at hwhole
    have hperm := (inorder_plug_perm path (join .left c a x (plug path' b'))).symm.trans hwhole
    rw [hperm.mem_iff, List.mem_append, not_or]
    exact ⟨hyfar, hyout⟩
  obtain ⟨h₂, hcall, hat₂⟩ := rbTakePlace_ok hup ha hyin
  have hat' : h₂.At (path' ++ ⟨.right, c, y, a⟩ :: path) b' := at_append.mpr (at_cons.mpr hat₂)
  -- The parent of the place that is to be repaired, where `x` may have been it.
  have habove : (if above (path' ++ ⟨.right, c, x, a⟩ :: path) = some x then some y
      else above (path' ++ ⟨.right, c, x, a⟩ :: path)) =
        above (path' ++ ⟨.right, c, y, a⟩ :: path) := by
    rcases path' with - | ⟨f, path'⟩
    · exact if_pos rfl
    · refine if_neg fun heq => (at_join.mp hat).notFar ?_
      rw [(inorder_plug_perm _ _).mem_iff, ← Option.some.inj heq]
      exact List.mem_append_right _ List.mem_cons_self
  obtain ⟨f, path₁, hcons⟩ := List.exists_cons_of_ne_nil
    (show path' ++ ⟨.right, c, y, a⟩ :: path ≠ [] by simp)
  obtain ⟨m', hascend⟩ : Returns (fun fuel =>
      rbAscend fuel h₂ (above (path' ++ ⟨.right, c, y, a⟩ :: path))) () := by
    rw [hcons] at hat' ⊢
    exact rbAscend_ok (at_cons.mp hat') (root_join _ _ _ _ _)
  refine ⟨h₂, path', c', y, b', rfl, hsides, hat', max m m', fun fuel hfuel => ?_⟩
  have hchild : rbChild .right h (some x) = .ok (plug path' (join .left c' nil y b')).root :=
    hat.child_other
  have hyright : rbChild .right h (some y) = .ok b'.root := hplace.child_other
  have hend' : rbEnd .left fuel h (plug path' (join .left c' nil y b')).root = .ok (some y) :=
    hend fuel (by omega)
  have hascend' : rbAscend fuel h₂ (some f.elm) = .ok () := by
    have := hascend fuel (by omega)
    rwa [hcons] at this
  change rbRemoveInner fuel h x = _
  rw [rbRemoveInner, hchild, ok_bind, hend', ok_bind, hyright, ok_bind, hsplice, ok_bind,
    hparent, ok_bind]
  rw [hcons] at habove ⊢
  replace habove : _ = some f.elm := habove
  simp only [habove, hcall, ok_bind, reduceCtorEq, if_false, hascend']
  rfl

/-! ### The call -/

/-- The colours are repaired at the place of an element that was taken out. -/
theorem repair_ok {color : Color} (hat : h.At path b) (ht : Balanced k n (join d color nil y b))
    (hpath : Fits k n path) :
    ∃ h', Returns (fun fuel =>
        if color = .black then rbRemoveColor fuel h (above path) b.root else pure h) h' ∧
      h'.Holds (plug path b).inorder := by
  cases color with
  | red =>
      obtain ⟨rfl, -, hb⟩ := balanced_join_red.mp ht
      exact ⟨h, returns_pure h, hat.holds hb hpath.weaken⟩
  | black =>
      obtain ⟨rfl, m, _, _, rfl, -, hb⟩ := balanced_join_black.mp ht
      exact rbRemoveColor_ok hat hb hpath

theorem erase_inorder {t t' : RbTree T} {xs ys : List T} (hnodup : t.inorder.Nodup)
    (ht : t.inorder = xs ++ x :: ys) (ht' : t'.inorder = xs ++ ys) :
    t.inorder.erase x = t'.inorder := by
  rw [ht] at hnodup ⊢
  have hx : x ∉ xs := fun hmem =>
    (List.nodup_append'.mp hnodup).2.2 hmem List.mem_cons_self
  rw [List.erase_append_right _ hx, List.erase_cons_head, ht']

theorem rbRemove_ok (hat : h.At path (join .left c a x b))
    (hbalanced : Balanced k n (join .left c a x b)) (hpath : Fits k n path) :
    ∃ h', Returns (fun fuel => rbRemove fuel h x) h' ∧
      h'.Holds ((plug path (join .left c a x b)).inorder.erase x) := by
  have hleft : rbChild .left h (some x) = .ok a.root := hat.child
  have hright : rbChild .right h (some x) = .ok b.root := hat.child_other
  have hnodup := (inorder_plug_perm path (join .left c a x b)).nodup_iff.mpr hat.nodup
  have horder : (plug path (join .left c a x b)).inorder =
      (before path ++ a.inorder) ++ x :: (b.inorder ++ after path) := by
    rw [inorder_plug]
    simp [join, inorder]
  have houter : ∀ {d child}, join .left c a x b = join d c nil x child →
      (plug path child).inorder = (before path ++ a.inorder) ++ (b.inorder ++ after path) →
      (∀ fuel, rbRemoveLinks fuel h x = rbRemoveOuter h x child.root) →
      ∃ h', Returns (fun fuel => rbRemove fuel h x) h' ∧
        h'.Holds ((plug path (join .left c a x b)).inorder.erase x) := by
    intro d child heq hchild hlinks
    rw [heq] at hat hbalanced
    obtain ⟨h₁, hsplice, hat₁, -⟩ := rbSplice_ok hat
    obtain ⟨h', ⟨m, hret⟩, hholds⟩ := repair_ok hat₁ hbalanced hpath
    rw [erase_inorder hnodup horder hchild]
    refine ⟨h', ⟨m, fun fuel hfuel => ?_⟩, hholds⟩
    change rbRemove fuel h x = _
    rw [rbRemove, hlinks, rbRemoveOuter, hsplice]
    exact hret fuel hfuel
  by_cases ha : a = nil
  · subst ha
    refine @houter .left b rfl (by rw [inorder_plug]; simp [inorder]) fun fuel => ?_
    rw [rbRemoveLinks, hleft, ok_bind, hright, ok_bind]
    rfl
  · by_cases hb : b = nil
    · subst hb
      refine @houter .right a rfl (by rw [inorder_plug]; simp [inorder]) fun fuel => ?_
      rw [rbRemoveLinks, hleft, ok_bind, hright, ok_bind,
        if_neg fun hnone => ha (root_eq_none.mp hnone)]
      rfl
    · obtain ⟨h₁, path', c', y, b', rfl, hsides, hat₁, m₁, hinner⟩ := rbRemoveInner_ok hat ha hb
      -- The place of the successor, before and after it takes the place of `x`.
      obtain ⟨m₀, hwhole⟩ := hpath.balanced hbalanced
      obtain ⟨k', n', hsucc, hfit'⟩ : ∃ k n, Balanced k n (join .left c' nil y b') ∧
          Fits k n (path' ++ ⟨.right, c, x, a⟩ :: path) := by
        refine Fits.at_place (m := m₀) ?_
        rw [plug_append]
        exact hwhole
      obtain ⟨h', ⟨m, hret⟩, hholds⟩ := repair_ok hat₁ hsucc hfit'.relabel
      have hafter : (plug (path' ++ ⟨.right, c, y, a⟩ :: path) b').inorder =
          (before path ++ a.inorder) ++
            ((plug path' (join .left c' nil y b')).inorder ++ after path) := by
        rw [inorder_plug, before_append, after_append, inorder_plug, before_eq_nil hsides]
        simp [before, after, join, inorder]
      rw [erase_inorder hnodup horder hafter]
      refine ⟨h', ⟨max m m₁, fun fuel hfuel => ?_⟩, hholds⟩
      have hlinks : rbRemoveInner fuel h x = _ := hinner fuel (by omega)
      change rbRemove fuel h x = _
      rw [rbRemove, rbRemoveLinks, hleft, ok_bind, hright, ok_bind,
        if_neg fun hnone => ha (root_eq_none.mp hnone), if_neg fun hnone =>
          hb (root_eq_none.mp hnone),
        hlinks]
      exact hret fuel (by omega)

end Ztmux.Compat
