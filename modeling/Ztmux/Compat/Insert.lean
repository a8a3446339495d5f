import Ztmux.Compat.InsertColor

/-!
Searching by key and inserting.

The search goes down to an element with the key, or to the one empty place where the key
belongs.
-/

namespace Ztmux.Compat

open RedBlack RedBlack.RbTree

variable {T : Type} [DecidableEq T] {K : Type} [LinearOrder K] {key : T → K} {h : Heap T}
  {path : List (Frame T)} {k : Color} {n : Nat} {t : RbTree T} {x : T}

/-- Strictly increasing keys. -/
def Sorted (key : T → K) (xs : List T) : Prop := xs.Pairwise fun x y => key x < key y

omit [DecidableEq T] in
theorem Sorted.node {c : Color} {l r : RbTree T} (hs : Sorted key (node c l x r).inorder) :
    Sorted key l.inorder ∧ Sorted key r.inorder ∧ (∀ y ∈ l.inorder, key y < key x) ∧
      ∀ y ∈ r.inorder, key x < key y := by
  obtain ⟨hl, hr, hlr⟩ := List.pairwise_append.mp hs
  obtain ⟨hx, hr⟩ := List.pairwise_cons.mp hr
  exact ⟨hl, hr, fun y hy => hlr y hy x List.mem_cons_self, hx⟩

/-! ### Finding -/

omit [DecidableEq T] in
theorem rbFindBy_ok (hat : h.At path t) (hs : Sorted key t.inorder) (q : K) :
    Returns (fun fuel => rbFindBy (fun x => compare q (key x)) fuel h t.root)
      (t.inorder.find? fun x => key x = q) := by
  induction t generalizing path with
  | nil => exact .of_succ ⟨0, fun _ _ => rfl⟩
  | node c l x r ihl ihr =>
      obtain ⟨hl, hr, hlx, hxr⟩ := hs.node
      have hatl : h.At (⟨.left, c, x, r⟩ :: path) l := at_cons.mpr hat
      have hatr : h.At (⟨.right, c, x, l⟩ :: path) r := at_sibling.mp hatl
      have hleft : rbChild .left h (some x) = .ok l.root := (at_cons.mp hatl).child
      have hright : rbChild .right h (some x) = .ok r.root := (at_cons.mp hatl).child_other
      have hfind : (node c l x r).inorder.find? (fun x => key x = q) =
          (l.inorder.find? fun x => key x = q).or
            (if key x = q then some x else r.inorder.find? fun x => key x = q) := by
        rw [inorder, List.find?_append, List.find?_cons]
        congr 1
        by_cases hx : key x = q <;> simp [hx]
      rcases lt_trichotomy q (key x) with hlt | heq | hgt
      · obtain ⟨m, hret⟩ := ihl hatl hl
        have hnone : r.inorder.find? (fun x => key x = q) = none :=
          List.find?_eq_none.mpr fun y hy => by simpa using (hlt.trans (hxr y hy)).ne'
        refine .of_succ ⟨m, fun fuel hfuel => ?_⟩
        change rbFindBy _ (fuel + 1) h (some x) = _
        rw [rbFindBy, compare_lt_iff_lt.mpr hlt, hfind, if_neg hlt.ne', hnone, Option.or_none,
          hleft]
        exact hret fuel hfuel
      · have hnone : l.inorder.find? (fun x => key x = q) = none :=
          List.find?_eq_none.mpr fun y hy => by simpa using (heq ▸ hlx y hy).ne
        refine .of_succ ⟨0, fun fuel _ => ?_⟩
        change rbFindBy _ (fuel + 1) h (some x) = _
        rw [rbFindBy, compare_eq_iff_eq.mpr heq, hfind, if_pos heq.symm, hnone]
        rfl
      · obtain ⟨m, hret⟩ := ihr hatr hr
        have hnone : l.inorder.find? (fun x => key x = q) = none :=
          List.find?_eq_none.mpr fun y hy => by simpa using ((hlx y hy).trans hgt).ne
        refine .of_succ ⟨m, fun fuel hfuel => ?_⟩
        change rbFindBy _ (fuel + 1) h (some x) = _
        rw [rbFindBy, compare_gt_iff_gt.mpr hgt, hfind, if_neg hgt.ne, hnone, Option.none_or,
          hright]
        exact hret fuel hfuel

/-! ### The place of a new element -/

/-- An empty place where a key belongs, and what the search knows of it. -/
structure EmptyPlace (h : Heap T) (key : T → K) (q : K) (path : List (Frame T)) (comp : Ordering) :
    Prop where
  place : h.At path nil
  smaller : ∀ y ∈ before path, key y < q
  larger : ∀ y ∈ after path, q < key y
  side : ∀ f ∈ path.head?, comp = if f.side = .left then .lt else .gt

omit [DecidableEq T] in
theorem rbDescend_ok (hat : h.At path t) (q : K) (comp : Ordering) (hs : Sorted key t.inorder)
    (hbefore : ∀ y ∈ before path, key y < q) (hafter : ∀ y ∈ after path, q < key y)
    (hside : ∀ f ∈ path.head?, comp = if f.side = .left then .lt else .gt) :
    (∃ x ∈ t.inorder, key x = q ∧ Returns (fun fuel =>
      rbDescend (fun x => compare q (key x)) fuel h t.root (above path) comp) (.inl x)) ∨
    (∀ x ∈ t.inorder, key x ≠ q) ∧ ∃ path' comp', plug path' nil = plug path t ∧
      EmptyPlace h key q path' comp' ∧ Returns (fun fuel =>
        rbDescend (fun x => compare q (key x)) fuel h t.root (above path) comp)
          (.inr (above path', comp')) := by
  induction t generalizing path comp with
  | nil =>
      exact .inr ⟨fun x hx => absurd hx List.not_mem_nil, path, comp, rfl,
        ⟨hat, hbefore, hafter, hside⟩, .of_succ ⟨0, fun _ _ => rfl⟩⟩
  | node c l x r ihl ihr =>
      obtain ⟨hl, hr, hlx, hxr⟩ := hs.node
      have hatl : h.At (⟨.left, c, x, r⟩ :: path) l := at_cons.mpr hat
      have hatr : h.At (⟨.right, c, x, l⟩ :: path) r := at_sibling.mp hatl
      have hleft : rbChild .left h (some x) = .ok l.root := (at_cons.mp hatl).child
      have hright : rbChild .right h (some x) = .ok r.root := (at_cons.mp hatl).child_other
      have hrow : (node c l x r).inorder = l.inorder ++ x :: r.inorder := rfl
      rcases lt_trichotomy q (key x) with hlt | heq | hgt
      · have hstep : ∀ fuel, rbDescend (fun x => compare q (key x)) (fuel + 1) h (some x)
            (above path)
            comp = rbDescend (fun x => compare q (key x)) fuel h l.root (some x) .lt :=
              fun fuel => by
          rw [rbDescend, compare_lt_iff_lt.mpr hlt, hleft]
          rfl
        have hafter' : ∀ y ∈ after (⟨.left, c, x, r⟩ :: path), q < key y := fun y hy => by
          rcases List.mem_append.mp hy with hy | hy
          · rcases List.mem_cons.mp hy with rfl | hy
            · exact hlt
            · exact hlt.trans (hxr y hy)
          · exact hafter y hy
        have hside' : ∀ f ∈ List.head? (⟨.left, c, x, r⟩ :: path),
            Ordering.lt = if f.side = .left then .lt else .gt := by simp
        rcases ihl hatl .lt hl hbefore hafter' hside' with ⟨y, hy, hkey, m, hret⟩ | ⟨hno, hplace⟩
        · refine .inl ⟨y, List.mem_append_left _ hy, hkey, .of_succ ⟨m, fun fuel hfuel => ?_⟩⟩
          exact (hstep fuel).trans (hret fuel hfuel)
        · obtain ⟨path', comp', hplug, hempty, m, hret⟩ := hplace
          refine .inr ⟨fun y hy => ?_, path', comp', hplug, hempty,
            .of_succ ⟨m, fun fuel hfuel => (hstep fuel).trans (hret fuel hfuel)⟩⟩
          rw [hrow, List.mem_append, List.mem_cons] at hy
          rcases hy with hy | rfl | hy
          · exact hno y hy
          · exact hlt.ne'
          · exact (hlt.trans (hxr y hy)).ne'
      · refine .inl ⟨x, by rw [hrow]; simp, heq.symm, .of_succ ⟨0, fun fuel _ => ?_⟩⟩
        change rbDescend _ (fuel + 1) h (some x) (above path) comp = _
        rw [rbDescend, compare_eq_iff_eq.mpr heq]
        rfl
      · have hstep : ∀ fuel, rbDescend (fun x => compare q (key x)) (fuel + 1) h (some x)
            (above path)
            comp = rbDescend (fun x => compare q (key x)) fuel h r.root (some x) .gt :=
              fun fuel => by
          rw [rbDescend, compare_gt_iff_gt.mpr hgt, hright]
          rfl
        have hbefore' : ∀ y ∈ before (⟨.right, c, x, l⟩ :: path), key y < q := fun y hy => by
          rcases List.mem_append.mp hy with hy | hy
          · exact hbefore y hy
          · rcases List.mem_append.mp hy with hy | hy
            · exact (hlx y hy).trans hgt
            · exact (List.mem_singleton.mp hy) ▸ hgt
        have hside' : ∀ f ∈ List.head? (⟨.right, c, x, l⟩ :: path),
            Ordering.gt = if f.side = .left then .lt else .gt := by simp
        rcases ihr hatr .gt hr hbefore' hafter hside' with ⟨y, hy, hkey, m, hret⟩ | ⟨hno, hplace⟩
        · refine .inl ⟨y, List.mem_append_right _ (.tail _ hy), hkey,
            .of_succ ⟨m, fun fuel hfuel => ?_⟩⟩
          exact (hstep fuel).trans (hret fuel hfuel)
        · obtain ⟨path', comp', hplug, hempty, m, hret⟩ := hplace
          refine .inr ⟨fun y hy => ?_, path', comp', hplug, hempty,
            .of_succ ⟨m, fun fuel hfuel => (hstep fuel).trans (hret fuel hfuel)⟩⟩
          rw [hrow, List.mem_append, List.mem_cons] at hy
          rcases hy with hy | rfl | hy
          · exact ((hlx y hy).trans hgt).ne
          · exact hgt.ne
          · exact hno y hy

/-! ### Linking -/

theorem rbLink_ok {q : K} {comp : Ordering} (hempty : EmptyPlace h key q path comp)
    (hx : x ∉ outside path) :
    ∃ h' : Heap T, rbLink h x (above path) comp = .ok h' ∧ h'.At path (node .red nil x nil) := by
  obtain ⟨⟨-, hpath, hnodup⟩, -, -, hside⟩ := hempty
  have hnodup' : ((node .red nil x nil).inorder ++ outside path).Nodup :=
    List.nodup_cons.mpr ⟨hx, hnodup⟩
  rcases path with - | ⟨⟨d, c, p, s⟩, path⟩
  · refine ⟨_, rfl, ⟨⟨?_, trivial, trivial⟩, rfl, hnodup'⟩⟩
    exact modify_entry_self h x fun _ => ⟨none, none, none, .red⟩
  · obtain ⟨hp, hs, hup⟩ := hpath
    obtain rfl : comp = if d = .left then .lt else .gt := hside _ rfl
    have hxp : x ≠ p := fun heq => hx (heq ▸ List.mem_cons_self)
    have hp' : (outside (⟨d, c, p, s⟩ :: path)).Nodup := hnodup
    rw [outside, List.nodup_cons, List.mem_append, not_or] at hp'
    obtain ⟨⟨hps, hpp⟩, -⟩ := hp'
    obtain ⟨h₁, hcall₁⟩ : ∃ h₁, h.modify x (fun _ => ⟨none, none, some p, .red⟩) = h₁ := ⟨_, rfl⟩
    have hsame₁ : ∀ z, z ≠ x → h₁.entry z = h.entry z := fun z hz => by
      rw [← hcall₁, modify_entry_of_ne h hz]
    obtain ⟨h₂, hcall₂⟩ : ∃ h₂, h₁.modify p (fun e => e.setChild (some x) d) = h₂ := ⟨_, rfl⟩
    have hsame₂ : ∀ z, z ≠ x → z ≠ p → h₂.entry z = h.entry z := fun z hzx hzp => by
      rw [← hcall₂, modify_entry_of_ne h₁ hzp, hsame₁ z hzx]
    have hx₂ : h₂.entry x = ⟨none, none, some p, .red⟩ := by
      rw [← hcall₂, modify_entry_of_ne h₁ hxp, ← hcall₁, modify_entry_self]
    have hp₂ : h₂.entry p = entryOf d (some x) s.root (above path) c := by
      rw [← hcall₂, modify_entry_self, hsame₁ p hxp.symm, hp, entryOf_setChild]
    have hout : ∀ z ∈ s.inorder ++ outside path, z ≠ x ∧ z ≠ p := fun z hz =>
      ⟨fun heq => hx (heq ▸ .tail _ hz), fun heq => by
        rcases List.mem_append.mp hz with hz | hz
        · exact hps (heq ▸ hz)
        · exact hpp (heq ▸ hz)⟩
    refine ⟨h₂, ?_,
      ⟨⟨hx₂, trivial, trivial⟩, ⟨hp₂, hs.congr fun z hz => ?_, hup.congr ?_ fun z hz => ?_⟩,
      hnodup'⟩⟩
    · rw [rbLink, rbSet, rbModify_some, ok_bind, above, hcall₁, if_neg (Option.some_ne_none p)]
      cases d with
      | left => exact congrArg Except.ok hcall₂
      | right => exact congrArg Except.ok hcall₂
    · obtain ⟨hzx, hzp⟩ := hout z (List.mem_append_left _ hz)
      exact hsame₂ z hzx hzp
    · rw [← hcall₂, modify_root, ← hcall₁, modify_root]
    · obtain ⟨hzx, hzp⟩ := hout z (List.mem_append_right _ hz)
      exact hsame₂ z hzx hzp

/-! ### Inserting -/

omit [DecidableEq T] in
/-- A new element goes between those with smaller and those with larger keys. -/
theorem EmptyPlace.sorted {comp : Ordering} (hempty : EmptyPlace h key (key x) path comp)
    (hs : Sorted key (plug path nil).inorder) : Sorted key (before path ++ x :: after path) := by
  obtain ⟨-, hbefore, hafter, -⟩ := hempty
  rw [inorder_plug, inorder, List.append_nil] at hs
  obtain ⟨hb, ha, hba⟩ := List.pairwise_append.mp hs
  refine List.pairwise_append.mpr ⟨hb, List.pairwise_cons.mpr ⟨hafter, ha⟩, fun y hy z hz => ?_⟩
  rcases List.mem_cons.mp hz with rfl | hz
  · exact hbefore y hy
  · exact hba y hy z hz

/-- Either an element with the same key is there and nothing changes, or the new one goes to its
place in the order. -/
theorem rbInsert_ok {xs : List T} (hholds : h.Holds xs) (hs : Sorted key xs) (x : T) :
    (∃ y ∈ xs, key y = key x ∧ Returns (fun fuel => rbInsert key fuel h x) (h, some y)) ∨
    (∀ y ∈ xs, key y ≠ key x) ∧ ∃ pre post h', xs = pre ++ post ∧ Sorted key (pre ++ x :: post) ∧
      h'.Holds (pre ++ x :: post) ∧ Returns (fun fuel => rbInsert key fuel h x) (h', none) := by
  obtain ⟨t, n, hat, hbalanced, rfl⟩ := hholds
  have hroot : h.root = t.root := hat.around
  have hsearch := rbDescend_ok hat (key x) .eq hs (by simp [before])
    (by simp [after]) (by simp)
  rw [← hroot] at hsearch
  rcases hsearch with ⟨y, hy, hkey, m, hret⟩ | ⟨hno, path, comp, hplug, hempty, m, hret⟩
  · refine .inl ⟨y, hy, hkey, m, fun fuel hfuel => ?_⟩
    change rbInsert key fuel h x = _
    rw [rbInsert, show rbDescend _ fuel h h.root none .eq = _ from hret fuel hfuel]
    rfl
  · have hplug' : plug path nil = t := hplug
    have horder : t.inorder = before path ++ after path := by
      rw [← hplug', inorder_plug, inorder, List.append_nil]
    have hout : x ∉ outside path := fun hmem =>
      hno x (hplug' ▸ (inorder_plug_perm path nil).mem_iff.mpr hmem) rfl
    obtain ⟨k, i, hnil, hfits⟩ := Fits.at_place (hplug'.symm ▸ hbalanced)
    obtain rfl : i = 0 := by cases hnil; rfl
    obtain ⟨h₁, hlink, hat₁⟩ := rbLink_ok hempty hout
    obtain ⟨h', ⟨m', hcolor⟩, hholds⟩ :=
      rbInsertColor_ok hat₁ rfl (.red .nil .nil) hfits.weaken
    have hrow : (plug path (node .red nil x nil)).inorder = before path ++ x :: after path := by
      rw [inorder_plug, inorder, inorder, List.nil_append, List.append_assoc, List.singleton_append]
    refine .inr ⟨hno, before path, after path, h', horder, hempty.sorted (hplug'.symm ▸ hs),
      hrow ▸ hholds, max m m', fun fuel hfuel => ?_⟩
    change rbInsert key fuel h x = _
    rw [rbInsert, show rbDescend _ fuel h h.root none .eq = _ from hret fuel (by omega)]
    rw [ok_bind]
    dsimp only
    rw [hlink, ok_bind, show rbInsertColor fuel h₁ (some x) = _ from hcolor fuel (by omega)]
    rfl

end Ztmux.Compat
