import Ztmux.Compat.Tree

/-!
The tree that the entries represent.

`h.At path t` says that the entries of the elements are linked as the tree is, read at a place:
each child's parent pointer is the element that points to it. A step of the source at a place
changes a few entries and leaves those of the elements elsewhere alone.
-/

namespace Ztmux.Compat

open RedBlack RedBlack.RbTree

variable {T : Type} [DecidableEq T]

/-! ### Entries -/

/-- The entry with a given child on side `d` and another on the other side. -/
def entryOf (d : Side) (a b parent : Option T) (color : Color) : Entry T :=
  match d with
  | .left => ⟨a, b, parent, color⟩
  | .right => ⟨b, a, parent, color⟩

section Entries

omit [DecidableEq T]

@[simp] theorem entryOf_child (d : Side) (a b p : Option T) (c : Color) :
    (entryOf d a b p c).child d = a := by cases d <;> rfl

@[simp] theorem entryOf_child_other (d : Side) (a b p : Option T) (c : Color) :
    (entryOf d a b p c).child d.other = b := by cases d <;> rfl

@[simp] theorem entryOf_parent (d : Side) (a b p : Option T) (c : Color) :
    (entryOf d a b p c).parent = p := by cases d <;> rfl

@[simp] theorem entryOf_color (d : Side) (a b p : Option T) (c : Color) :
    (entryOf d a b p c).color = c := by cases d <;> rfl

@[simp] theorem entryOf_setChild (d : Side) (a b p q : Option T) (c : Color) :
    (entryOf d a b p c).setChild q d = entryOf d q b p c := by cases d <;> rfl

@[simp] theorem entryOf_setChild_other (d : Side) (a b p q : Option T) (c : Color) :
    (entryOf d a b p c).setChild q d.other = entryOf d a q p c := by cases d <;> rfl

theorem entryOf_setParent (d : Side) (a b p q : Option T) (c : Color) :
    { entryOf d a b p c with parent := q } = entryOf d a b q c := by cases d <;> rfl

theorem entryOf_setColor (d : Side) (a b p : Option T) (c c' : Color) :
    { entryOf d a b p c with color := c' } = entryOf d a b p c' := by cases d <;> rfl

end Entries

section Reads

omit [DecidableEq T]

@[simp] theorem rbEntry_some (h : Heap T) (x : T) : rbEntry h (some x) = .ok (h.entry x) := rfl

@[simp] theorem rbChild_some (d : Side) (h : Heap T) (x : T) :
    rbChild d h (some x) = .ok ((h.entry x).child d) := rfl

@[simp] theorem rbParent_some (h : Heap T) (x : T) :
    rbParent h (some x) = .ok (h.entry x).parent := rfl

@[simp] theorem rbColor_some (h : Heap T) (x : T) : rbColor h (some x) = .ok (h.entry x).color :=
  rfl

end Reads

@[simp] theorem rbModify_some (h : Heap T) (x : T) (f : Entry T → Entry T) :
    rbModify h (some x) f = .ok (h.modify x f) := rfl

@[simp] theorem modify_entry_self (h : Heap T) (x : T) (f : Entry T → Entry T) :
    (h.modify x f).entry x = f (h.entry x) := Function.update_self _ _ _

theorem modify_entry_of_ne (h : Heap T) {x y : T} (hne : y ≠ x) (f : Entry T → Entry T) :
    (h.modify x f).entry y = h.entry y := Function.update_of_ne hne _ _

@[simp] theorem modify_root (h : Heap T) (x : T) (f : Entry T → Entry T) :
    (h.modify x f).root = h.root := rfl

/-! ### Representation -/

section Represents

omit [DecidableEq T]

/-- The entries of the elements of a tree below `parent`. -/
def Represents (h : Heap T) (parent : Option T) : RbTree T → Prop
  | .nil => True
  | .node c l x r => h.entry x = ⟨l.root, r.root, parent, c⟩ ∧ Represents h (some x) l ∧
      Represents h (some x) r

theorem represents_join {h : Heap T} {p : Option T} {d : Side} {c : Color} {a : RbTree T} {x : T}
    {b : RbTree T} : Represents h p (join d c a x b) ↔
      h.entry x = entryOf d a.root b.root p c ∧ Represents h (some x) a ∧
      Represents h (some x) b := by
  cases d with
  | left => rfl
  | right => exact and_congr_right fun _ => and_comm

/-- The element above a place. -/
def above : List (Frame T) → Option T
  | [] => none
  | f :: _ => some f.elm

/-- The entries of the elements outside a place, where `hole` is the root of the subtree at it. -/
def Surrounds (h : Heap T) (hole : Option T) : List (Frame T) → Prop
  | [] => h.root = hole
  | f :: path => h.entry f.elm = entryOf f.side hole f.sibling.root (above path) f.color ∧
      Represents h (some f.elm) f.sibling ∧ Surrounds h (some f.elm) path

/-- Two heaps have the same entries for some elements. -/
def SameOn (h h' : Heap T) (xs : List T) : Prop := ∀ x ∈ xs, h'.entry x = h.entry x

variable {h h' : Heap T} {p : Option T} {path : List (Frame T)} {t : RbTree T}

theorem Represents.congr (ht : Represents h p t) (hsame : SameOn h h' t.inorder) :
    Represents h' p t := by
  induction t generalizing p with
  | nil => trivial
  | node c l x r ihl ihr =>
      obtain ⟨hx, hl, hr⟩ := ht
      refine ⟨(hsame x (by simp [inorder])).trans hx, ihl hl fun z hz => hsame z ?_,
        ihr hr fun z hz => hsame z ?_⟩
      · simp [inorder, hz]
      · simp [inorder, hz]

theorem Surrounds.congr {hole : Option T} (hpath : Surrounds h hole path) (hroot : h'.root = h.root)
    (hsame : SameOn h h' (outside path)) : Surrounds h' hole path := by
  induction path generalizing hole with
  | nil => exact hroot.trans hpath
  | cons f path ih =>
      obtain ⟨hx, hsibling, hpath⟩ := hpath
      refine ⟨(hsame _ List.mem_cons_self).trans hx, hsibling.congr fun z hz => hsame z ?_,
        ih hpath fun z hz => hsame z ?_⟩
      · exact .tail _ (List.mem_append_left _ hz)
      · exact .tail _ (List.mem_append_right _ hz)

/-- A tree read at a place. -/
structure Heap.At (h : Heap T) (path : List (Frame T)) (t : RbTree T) : Prop where
  tree : Represents h (above path) t
  around : Surrounds h t.root path
  nodup : (t.inorder ++ outside path).Nodup

/-- Up to the node above a place, or down from it. -/
theorem at_cons {d : Side} {c : Color} {a : RbTree T} {x : T} {b : RbTree T} :
    h.At (⟨d, c, x, b⟩ :: path) a ↔ h.At path (join d c a x b) := by
  have hperm : (a.inorder ++ outside (⟨d, c, x, b⟩ :: path)).Perm
      ((join d c a x b).inorder ++ outside path) := by
    refine List.Perm.trans ?_ ((inorder_join_perm d c a x b).symm.append_right _)
    simp [outside]
  constructor
  · rintro ⟨ha, ⟨hx, hb, hpath⟩, hnodup⟩
    exact ⟨represents_join.mpr ⟨hx, ha, hb⟩, by rwa [root_join], hperm.nodup_iff.mp hnodup⟩
  · rintro ⟨ht, hpath, hnodup⟩
    obtain ⟨hx, ha, hb⟩ := represents_join.mp ht
    rw [root_join] at hpath
    exact ⟨ha, ⟨hx, hb, hpath⟩, hperm.nodup_iff.mpr hnodup⟩

theorem at_append {path' : List (Frame T)} : h.At (path ++ path') t ↔ h.At path' (plug path t) := by
  induction path generalizing t with
  | nil => rfl
  | cons f path ih => exact at_cons.trans ih

theorem at_plug : h.At path t ↔ h.At [] (plug path t) := by
  rw [← at_append, List.append_nil]

/-- From a child to its sibling. -/
theorem at_sibling {d : Side} {c : Color} {a : RbTree T} {x : T} {b : RbTree T} :
    h.At (⟨d, c, x, b⟩ :: path) a ↔ h.At (⟨d.other, c, x, a⟩ :: path) b := by
  rw [at_cons, at_cons, join_other]

/-- The parts of a place with a node in it. -/
structure Heap.Node (h : Heap T) (path : List (Frame T)) (d : Side) (c : Color) (a : RbTree T)
    (x : T)
    (b : RbTree T) : Prop where
  entry : h.entry x = entryOf d a.root b.root (above path) c
  near : Represents h (some x) a
  far : Represents h (some x) b
  around : Surrounds h (some x) path
  nearNodup : a.inorder.Nodup
  farNodup : b.inorder.Nodup
  pathNodup : (outside path).Nodup
  notNear : x ∉ a.inorder
  notFar : x ∉ b.inorder
  notPath : x ∉ outside path
  nearFar : a.inorder.Disjoint b.inorder
  nearPath : a.inorder.Disjoint (outside path)
  farPath : b.inorder.Disjoint (outside path)

theorem at_join {d : Side} {c : Color} {a : RbTree T} {x : T} {b : RbTree T} :
    h.At path (join d c a x b) ↔ h.Node path d c a x b := by
  have hperm := (inorder_join_perm d c a x b).append_right (outside path)
  constructor
  · rintro ⟨ht, hpath, hnodup⟩
    obtain ⟨hx, ha, hb⟩ := represents_join.mp ht
    rw [root_join] at hpath
    have hnodup := hperm.nodup_iff.mp hnodup
    rw [List.append_assoc, List.cons_append, List.nodup_append', List.nodup_cons,
      List.nodup_append', List.disjoint_cons_right, List.disjoint_append_right, List.mem_append,
      not_or] at hnodup
    obtain ⟨hna, ⟨⟨hxb, hxp⟩, hnb, hnp, hbp⟩, hxa, hab, hap⟩ := hnodup
    exact ⟨hx, ha, hb, hpath, hna, hnb, hnp, hxa, hxb, hxp, hab, hap, hbp⟩
  · rintro ⟨hx, ha, hb, hpath, hna, hnb, hnp, hxa, hxb, hxp, hab, hap, hbp⟩
    refine ⟨represents_join.mpr ⟨hx, ha, hb⟩, by rwa [root_join], hperm.nodup_iff.mpr ?_⟩
    rw [List.append_assoc, List.cons_append, List.nodup_append', List.nodup_cons,
      List.nodup_append', List.disjoint_cons_right, List.disjoint_append_right, List.mem_append,
      not_or]
    exact ⟨hna, ⟨⟨hxb, hxp⟩, hnb, hnp, hbp⟩, hxa, hab, hap⟩

/-! ### Reading at a place -/

section Reading

variable {d : Side} {c : Color} {a b : RbTree T} {x : T}

theorem Heap.At.parent (hat : h.At path t) (hroot : t.root = some x) :
    rbParent h (some x) = .ok (above path) := by
  cases t with
  | nil => cases hroot
  | node c l y r =>
      obtain rfl : y = x := Option.some.inj hroot
      rw [rbParent_some, hat.tree.1]

theorem Heap.At.color_eq (hat : h.At path t) (hroot : t.root = some x) :
    rbColor h (some x) = .ok t.color := by
  cases t with
  | nil => cases hroot
  | node c l y r =>
      obtain rfl : y = x := Option.some.inj hroot
      rw [rbColor_some, hat.tree.1]
      rfl

theorem Heap.At.child (hat : h.At path (join d c a x b)) : rbChild d h (some x) = .ok a.root := by
  rw [rbChild_some, (at_join.mp hat).entry, entryOf_child]

theorem Heap.At.child_other (hat : h.At path (join d c a x b)) :
    rbChild d.other h (some x) = .ok b.root := by
  rw [rbChild_some, (at_join.mp hat).entry, entryOf_child_other]

/-- The subtrees on the two sides of an element are different when one is not empty. -/
theorem Heap.At.root_ne (hat : h.At path (join d c a x b)) (hne : a.root ≠ none ∨ b.root ≠ none) :
    a.root ≠ b.root := by
  intro heq
  obtain ⟨y, hy⟩ : ∃ y, a.root = some y := by
    apply Option.ne_none_iff_exists'.mp
    rcases hne with hne | hne
    · exact hne
    · rwa [heq]
  exact (at_join.mp hat).nearFar (root_mem hy) (root_mem (heq ▸ hy))

end Reading

end Represents

variable {h : Heap T} {path : List (Frame T)} {d : Side} {c : Color} {a b t : RbTree T} {x : T}

omit [DecidableEq T] in
theorem Heap.At.isRed_eq (hat : h.At path t) : isRed h t.root = .ok (decide (t.color = .red)) := by
  cases t with
  | nil => rfl
  | node c l x r =>
      rw [isRed, if_neg (by exact Option.some_ne_none x)]
      change (rbColor h (some x) >>= _) = _
      rw [hat.color_eq rfl]
      rfl

theorem Heap.At.sideOf_eq (hat : h.At path (join d c a x b)) (hne : a.root ≠ none ∨ b.root ≠ none) :
    sideOf h (some x) a.root = .ok d := by
  have hroots := hat.root_ne hne
  cases d with
  | left =>
      rw [sideOf, hat.child]
      exact congrArg Except.ok (if_pos rfl)
  | right =>
      rw [sideOf, show Side.left = Side.right.other from rfl, hat.child_other]
      exact congrArg Except.ok (if_neg hroots.symm)

end Ztmux.Compat
