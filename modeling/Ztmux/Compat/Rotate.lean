import Ztmux.Compat.Represents

/-!
Recolouring and rotating at a place.
-/

namespace Ztmux.Compat

open RedBlack RedBlack.RbTree

variable {T : Type} [DecidableEq T] {h h' : Heap T} {path : List (Frame T)} {d : Side} {c : Color}
  {a : RbTree T} {x : T} {b : RbTree T}

theorem sameOn_modify (h : Heap T) {x : T} (f : Entry T → Entry T) {xs : List T} (hx : x ∉ xs) :
    SameOn h (h.modify x f) xs := fun z hz =>
  modify_entry_of_ne h (fun heq : z = x => hx (heq ▸ hz)) f

/-! ### Colours -/

theorem Heap.At.setColor (hat : h.At path (join d c a x b)) (c' : Color) :
    rbSetColor h (some x) c' = .ok (h.modify x fun e => { e with color := c' }) ∧
      (h.modify x fun e => { e with color := c' }).At path (join d c' a x b) := by
  obtain ⟨hx, ha, hb, hpath, hna, hnb, hnp, hxa, hxb, hxp, hab, hap, hbp⟩ := at_join.mp hat
  refine ⟨rfl, at_join.mpr ⟨?_, ha.congr (sameOn_modify h _ hxa), hb.congr (sameOn_modify h _ hxb),
    hpath.congr rfl (sameOn_modify h _ hxp), hna, hnb, hnp, hxa, hxb, hxp, hab, hap, hbp⟩⟩
  rw [modify_entry_self, hx, entryOf_setColor]

/-! ### Links -/

theorem reparent_ok {p : Option T} {m : RbTree T} (hm : Represents h p m) (hnodup : m.inorder.Nodup)
    (q : Option T) :
    ∃ h', unlessNull m.root h (rbSetParent h m.root q) = .ok h' ∧ Represents h' q m ∧
      h'.root = h.root ∧ ∀ z, z ∉ m.inorder → h'.entry z = h.entry z := by
  cases m with
  | nil => exact ⟨h, rfl, trivial, rfl, fun _ _ => rfl⟩
  | node c l x r =>
      obtain ⟨hx, hl, hr⟩ := hm
      rw [inorder, List.nodup_append', List.nodup_cons, List.disjoint_cons_right] at hnodup
      obtain ⟨-, ⟨hxr, -⟩, hxl, -⟩ := hnodup
      refine ⟨h.modify x fun e => { e with parent := q }, rfl,
        ⟨?_, hl.congr (sameOn_modify h _ hxl), hr.congr (sameOn_modify h _ hxr)⟩, rfl, fun z hz =>
          modify_entry_of_ne h ?_ _⟩
      · rw [modify_entry_self, hx]
      · rintro rfl
        simp [inorder] at hz

/-- What points to a place points to another subtree. -/
theorem rbReplace_ok {hole : Option T} (hpath : Surrounds h hole path)
    (hhole : ∀ y ∈ outside path, hole ≠ some y) (hnodup : (outside path).Nodup)
    (hsome : hole ≠ none) (value : Option T) :
    ∃ h', rbReplace h (above path) hole value = .ok h' ∧ Surrounds h' value path ∧
      ∀ z, z ∉ outside path → h'.entry z = h.entry z := by
  rcases path with - | ⟨⟨d, c, p, sibling⟩, path⟩
  · exact ⟨{ h with root := value }, rfl, rfl, fun _ _ => rfl⟩
  · obtain ⟨hp, hsibling, hpath⟩ := hpath
    rw [outside, List.nodup_cons, List.mem_append, not_or] at hnodup
    obtain ⟨⟨hps, hpp⟩, -⟩ := hnodup
    dsimp only at hp hsibling hps hpp
    refine ⟨h.modify p fun e => e.setChild value d, ?_, ⟨?_, hsibling.congr (sameOn_modify h _ hps),
      hpath.congr rfl (sameOn_modify h _ hpp)⟩, fun z hz => modify_entry_of_ne h ?_ _⟩
    · rw [rbReplace, above, if_neg (Option.some_ne_none p)]
      simp only [rbChild_some, hp, bind, Except.bind]
      cases d with
      | left => rw [if_pos (by rfl)]; rfl
      | right =>
          have hne : sibling.root ≠ hole := by
            intro heq
            cases hole with
            | none => exact hsome rfl
            | some y => exact hhole y (.tail _ (List.mem_append_left _ (root_mem heq))) rfl
          rw [if_neg (by exact hne)]
          rfl
    · rw [modify_entry_self, hp, entryOf_setChild]
    · rintro rfl
      exact hz List.mem_cons_self

/-! ### Rotation -/

theorem rbRotate_ok {e : Color} {m : RbTree T} {y : T} {r : RbTree T}
    (hat : h.At path (join d c a x (join d e m y r))) :
    ∃ h', rbRotate d h (some x) = .ok h' ∧ h'.At path (join d e (join d c a x m) y r) := by
  obtain ⟨hx, ha, -, hpath, hna, -, hnp, hxa, hxY, hxp, haY, hap, hYp⟩ := at_join.mp hat
  obtain ⟨hy, hm, hr, -, hnm, hnr, -, hym, hyr, -, hmr, -, -⟩ :=
    at_join.mp
      (at_cons.mpr (by rwa [join_other]) : h.At (⟨d.other, c, x, a⟩ :: path) (join d e m y r))
  rw [root_join] at hx
  have hin : ∀ z, z = y ∨ z ∈ m.inorder ∨ z ∈ r.inorder → z ∈ (join d e m y r).inorder :=
    fun z => mem_inorder_join.mpr
  have hxy : x ≠ y := fun heq => hxY (hin x (.inl heq))
  have hxm : x ∉ m.inorder := fun hmem => hxY (hin x (.inr (.inl hmem)))
  have hxr : x ∉ r.inorder := fun hmem => hxY (hin x (.inr (.inr hmem)))
  have hya : y ∉ a.inorder := fun hmem => haY hmem (hin y (.inl rfl))
  have hyp : y ∉ outside path := fun hmem => hYp (hin y (.inl rfl)) hmem
  have ham : a.inorder.Disjoint m.inorder := fun z hz hz' => haY hz (hin z (.inr (.inl hz')))
  have har : a.inorder.Disjoint r.inorder := fun z hz hz' => haY hz (hin z (.inr (.inr hz')))
  have hmp : m.inorder.Disjoint (outside path) := fun z hz => hYp (hin z (.inr (.inl hz)))
  have hrp : r.inorder.Disjoint (outside path) := fun z hz => hYp (hin z (.inr (.inr hz)))
  -- The subtree in the middle goes below `x`.
  obtain ⟨h₁, hcall₁⟩ : ∃ h₁, h.modify x (fun e => e.setChild m.root d.other) = h₁ := ⟨_, rfl⟩
  have hx₁ : h₁.entry x = entryOf d a.root m.root (above path) c := by
    rw [← hcall₁, modify_entry_self, hx, entryOf_setChild_other]
  have hsame₁ : ∀ z, z ≠ x → h₁.entry z = h.entry z := fun z hz => by
    rw [← hcall₁, modify_entry_of_ne h hz]
  have hy₁ := (hsame₁ y hxy.symm).trans hy
  obtain ⟨h₂, hcall₂, hm₂, hroot₂, hsame₂⟩ :=
    reparent_ok (hm.congr fun z hz => hsame₁ z fun heq => hxm (heq ▸ hz)) hnm (some x)
  have hx₂ := (hsame₂ x hxm).trans hx₁
  have hy₂ := (hsame₂ y hym).trans hy₁
  -- `y` goes to the place.
  obtain ⟨h₃, hcall₃⟩ : ∃ h₃, h₂.modify y (fun e => { e with parent := above path }) = h₃ :=
    ⟨_, rfl⟩
  have hy₃ : h₃.entry y = entryOf d m.root r.root (above path) e := by
    rw [← hcall₃, modify_entry_self, hy₂, entryOf_setParent]
  have hsame₃ : ∀ z, z ≠ y → h₃.entry z = h₂.entry z := fun z hz => by
    rw [← hcall₃, modify_entry_of_ne h₂ hz]
  have hx₃ := (hsame₃ x hxy).trans hx₂
  have hout₃ : ∀ z ∈ outside path, h₃.entry z = h.entry z := fun z hz => by
    have hzx : z ≠ x := fun heq => hxp (heq ▸ hz)
    have hzy : z ≠ y := fun heq => hyp (heq ▸ hz)
    rw [hsame₃ z hzy, hsame₂ z fun hzm => hmp hzm hz, hsame₁ z hzx]
  have hroot₃ : h₃.root = h.root := by
    rw [← hcall₃, modify_root, hroot₂, ← hcall₁, modify_root]
  obtain ⟨h₄, hcall₄, hpath₄, hsame₄⟩ := rbReplace_ok (hpath.congr hroot₃ hout₃)
    (fun z hz heq => hxp (Option.some.inj heq ▸ hz)) hnp (Option.some_ne_none x) (some y)
  have hx₄ := (hsame₄ x hxp).trans hx₃
  have hy₄ := (hsame₄ y hyp).trans hy₃
  obtain ⟨h₅, hcall₅⟩ : ∃ h₅, h₄.modify y (fun e => e.setChild (some x) d) = h₅ := ⟨_, rfl⟩
  have hy₅ : h₅.entry y = entryOf d (some x) r.root (above path) e := by
    rw [← hcall₅, modify_entry_self, hy₄, entryOf_setChild]
  have hx₅ : h₅.entry x = entryOf d a.root m.root (above path) c := by
    rw [← hcall₅, modify_entry_of_ne h₄ hxy, hx₄]
  obtain ⟨h₆, hcall₆⟩ : ∃ h₆, h₅.modify x (fun e => { e with parent := some y }) = h₆ := ⟨_, rfl⟩
  have hx₆ : h₆.entry x = entryOf d a.root m.root (some y) c := by
    rw [← hcall₆, modify_entry_self, hx₅, entryOf_setParent]
  have hy₆ : h₆.entry y = entryOf d (some x) r.root (above path) e := by
    rw [← hcall₆, modify_entry_of_ne h₅ hxy.symm, hy₅]
  have hsame₆ : ∀ z, z ≠ x → z ≠ y → h₆.entry z = h₄.entry z := fun z hzx hzy => by
    rw [← hcall₆, modify_entry_of_ne h₅ hzx, ← hcall₅, modify_entry_of_ne h₄ hzy]
  have hkept : ∀ z, z ≠ x → z ≠ y → z ∉ m.inorder → z ∉ outside path → h₆.entry z = h.entry z :=
    fun z hzx hzy hzm hzp => by
      rw [hsame₆ z hzx hzy, hsame₄ z hzp, hsame₃ z hzy, hsame₂ z hzm, hsame₁ z hzx]
  refine ⟨h₆, ?_,
    represents_join.mpr ⟨by rw [root_join]; exact hy₆, represents_join.mpr ⟨hx₆, ?_, ?_⟩, ?_⟩,
    ?_, ?_⟩
  · rw [rbRotate]
    simp only [rbChild_some, rbParent_some, rbSetChild, rbSetParent, rbModify_some, bind,
      Except.bind, hx, entryOf_child_other, hy, entryOf_child, hcall₁, hx₁, hy₁]
    simp only [rbSetParent] at hcall₂
    simp only [hcall₂, hx₂, entryOf_parent, hcall₃, hy₃, hcall₄, hcall₅, hcall₆]
  · exact ha.congr fun z hz => hkept z (fun heq => hxa (heq ▸ hz)) (fun heq => hya (heq ▸ hz))
      (fun hzm => ham hz hzm) (fun hzp => hap hz hzp)
  · refine hm₂.congr fun z hz => ?_
    have hzx : z ≠ x := fun heq => hxm (heq ▸ hz)
    have hzy : z ≠ y := fun heq => hym (heq ▸ hz)
    rw [hsame₆ z hzx hzy, hsame₄ z fun hzp => hmp hz hzp, hsame₃ z hzy]
  · exact hr.congr fun z hz => hkept z (fun heq => hxr (heq ▸ hz)) (fun heq => hyr (heq ▸ hz))
      (fun hzm => hmr hzm hz) (fun hzp => hrp hz hzp)
  · rw [root_join]
    refine hpath₄.congr ?_ fun z hz => hsame₆ z (fun heq => hxp (heq ▸ hz)) fun heq =>
      hyp (heq ▸ hz)
    rw [← hcall₆, modify_root, ← hcall₅, modify_root]
  · rw [inorder_rotate]
    exact hat.nodup

end Ztmux.Compat
