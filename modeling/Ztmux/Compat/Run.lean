import Ztmux.Compat.Walk

/-!
Runs of insertions and removals, compared with a set.

What each call keeps is that the entries are linked as a red-black tree whose elements, in
order, are those of the set.
-/

namespace Ztmux.Compat

open RedBlack RedBlack.RbTree

variable {T : Type} [DecidableEq T] {K : Type} [LinearOrder K] (key : T → K)

inductive Call (T : Type)
  | insert (elm : T)
  | remove (elm : T)

def rbCall (fuel : Nat) (h : Heap T) : Call T → Exec (Heap T)
  | .insert elm => do pure (← rbInsert key fuel h elm).1
  | .remove elm => rbRemove fuel h elm

def rbRun (fuel : Nat) : Heap T → List (Call T) → Exec (Heap T)
  | h, [] => pure h
  | h, call :: calls => do rbRun fuel (← rbCall key fuel h call) calls

/-! ### The set -/

/-- The set that a call leaves: an element with the key of another one does not come in. -/
def setAfter (s : Finset T) : Call T → Finset T
  | .insert x => if ∃ y ∈ s, key y = key x then s else insert x s
  | .remove x => s.erase x

/-- Only elements that are in the set are removed. -/
def Contained : Finset T → List (Call T) → Prop
  | _, [] => True
  | s, .insert x :: calls => Contained (setAfter key s (.insert x)) calls
  | s, .remove x :: calls => x ∈ s ∧ Contained (setAfter key s (.remove x)) calls

variable {key} {h : Heap T} {s : Finset T}

/-- What each call keeps. -/
def Heap.Keeps (h : Heap T) (key : T → K) (s : Finset T) : Prop :=
  ∃ xs : List T, h.Holds xs ∧ Sorted key xs ∧ xs.toFinset = s

theorem keeps_empty (hroot : h.root = none) (key : T → K) : h.Keeps key ∅ :=
  ⟨[], ⟨.nil, 0, ⟨trivial, hroot, List.nodup_nil⟩, .nil, rfl⟩, List.Pairwise.nil, rfl⟩

omit [DecidableEq T] in
theorem Sorted.eq_of_key {xs : List T} (hs : Sorted key xs) {x y : T} (hx : x ∈ xs) (hy : y ∈ xs)
    (hkey : key x = key y) : x = y := by
  have hnodup : (xs.map key).Nodup := List.pairwise_map.mpr (hs.imp fun hlt => hlt.ne)
  exact List.inj_on_of_nodup_map hnodup hx hy hkey

theorem Heap.Keeps.insert (hkeeps : h.Keeps key s) (x : T) :
    (∃ y ∈ s, key y = key x ∧ Returns (fun fuel => rbInsert key fuel h x) (h, some y)) ∨
    (∀ y ∈ s, key y ≠ key x) ∧ ∃ h' : Heap T, h'.Keeps key (insert x s) ∧
      Returns (fun fuel => rbInsert key fuel h x) (h', none) := by
  obtain ⟨xs, hholds, hs, rfl⟩ := hkeeps
  rcases rbInsert_ok hholds hs x with
      ⟨y, hy, hkey, hret⟩ | ⟨hno, pre, post, h', rfl, hs', hholds', hret⟩
  · exact .inl ⟨y, List.mem_toFinset.mpr hy, hkey, hret⟩
  · refine .inr ⟨fun y hy => hno y (List.mem_toFinset.mp hy), h', ⟨_, hholds', hs', ?_⟩, hret⟩
    ext y
    simp only [List.mem_toFinset, List.mem_append, List.mem_cons, Finset.mem_insert]
    exact or_left_comm

theorem Heap.Keeps.remove (hkeeps : h.Keeps key s) {x : T} (hx : x ∈ s) :
    ∃ h' : Heap T, h'.Keeps key (s.erase x) ∧ Returns (fun fuel => rbRemove fuel h x) h' := by
  obtain ⟨xs, ⟨t, m, hat, hbalanced, rfl⟩, hs, rfl⟩ := hkeeps
  have hnodup : t.inorder.Nodup := (List.nodup_append.mp hat.nodup).1
  obtain ⟨path, c, a, b, rfl⟩ := exists_place (List.mem_toFinset.mp hx) .left
  obtain ⟨k, n, hsub, hfits⟩ := Fits.at_place hbalanced
  obtain ⟨h', hret, hholds⟩ := rbRemove_ok (at_plug.mpr hat) hsub hfits
  refine ⟨h', ⟨_, hholds, hs.sublist List.erase_sublist, ?_⟩, hret⟩
  ext y
  rw [List.mem_toFinset, hnodup.mem_erase_iff, Finset.mem_erase, List.mem_toFinset]

theorem rbCall_keeps (hkeeps : h.Keeps key s) {call : Call T} {calls : List (Call T)}
    (hcalls : Contained key s (call :: calls)) :
    ∃ h' : Heap T, h'.Keeps key (setAfter key s call) ∧
    Returns (fun fuel => rbCall key fuel h call) h' ∧
      Contained key (setAfter key s call) calls := by
  cases call with
  | insert x =>
      rcases hkeeps.insert x with ⟨y, hy, hkey, hret⟩ | ⟨hno, h', hkeeps', hret⟩
      · refine ⟨h, ?_, hret.bind (returns_pure h), hcalls⟩
        rwa [setAfter, if_pos ⟨y, hy, hkey⟩]
      · refine ⟨h', ?_, hret.bind (returns_pure h'), hcalls⟩
        rwa [setAfter, if_neg fun ⟨y, hy, hkey⟩ => hno y hy hkey]
  | remove x =>
      obtain ⟨hx, hcalls⟩ := hcalls
      obtain ⟨h', hkeeps', hret⟩ := hkeeps.remove hx
      exact ⟨h', hkeeps', hret, hcalls⟩

theorem rbRun_keeps {calls : List (Call T)} (hkeeps : h.Keeps key s)
    (hcalls : Contained key s calls) :
    ∃ h' : Heap T, h'.Keeps key (calls.foldl (setAfter key) s) ∧
      Returns (fun fuel => rbRun key fuel h calls) h' := by
  induction calls generalizing h s with
  | nil => exact ⟨h, hkeeps, returns_pure h⟩
  | cons call calls ih =>
      obtain ⟨h₁, hkeeps₁, hret₁, hcalls₁⟩ := rbCall_keeps hkeeps hcalls
      obtain ⟨h', hkeeps', hret'⟩ := ih hkeeps₁ hcalls₁
      exact ⟨h', hkeeps', hret₁.bind hret'⟩

/-! ### What is seen from outside -/

/-- The links and colours of the elements of a set. -/
structure RedBlackTree (key : T → K) (h : Heap T) (s : Finset T) (t : RbTree T) : Prop where
  head : h.root = t.root
  links : Represents h none t
  parents : ∀ x ∈ s, ∀ d y, (h.entry x).child d = some y → (h.entry y).parent = some x
  increasing : Sorted key t.inorder
  black_root : t.color = .black
  red_child : t.NoRedRed
  black_paths : ∃ n, ∀ m ∈ t.blackCounts, m = n
  elements : ∀ x, x ∈ t.inorder ↔ x ∈ s

/-- What the calls that read the tree, and an insertion, answer. -/
structure Answers (key : T → K) (h : Heap T) (s : Finset T) (t : RbTree T) : Prop where
  find_by : ∀ q, ∃ r, Returns (fun fuel => rbFindBy (fun x => compare q (key x)) fuel h h.root) r ∧
    ∀ y, r = some y ↔ y ∈ s ∧ key y = q
  find : ∀ x, ∃ r, Returns (fun fuel => rbFind key fuel h x) r ∧
    ∀ y, r = some y ↔ y ∈ s ∧ key y = key x
  insert_equal : ∀ x, ∀ y ∈ s, key y = key x →
    Returns (fun fuel => rbInsert key fuel h x) (h, some y)
  insert_new : ∀ x, (∀ y ∈ s, key y ≠ key x) →
    ∃ h', Returns (fun fuel => rbInsert key fuel h x) (h', none)
  remove : ∀ x ∈ s, ∃ h', Returns (fun fuel => rbRemove fuel h x) h'
  walk : Returns (fun fuel => rbWalk fuel h) t.inorder

omit [DecidableEq T] in
theorem Heap.At.parents {t : RbTree T} (hat : h.At [] t) {x y : T} (hx : x ∈ t.inorder) {d : Side}
    (hchild : (h.entry x).child d = some y) : (h.entry y).parent = some x := by
  obtain ⟨path, c, a, b, rfl⟩ := exists_place hx d
  have hat : h.At path (join d c a x b) := at_plug.mpr hat
  have hroot : a.root = some y := by
    have hread := hat.child
    rw [rbChild_some, hchild] at hread
    exact (Except.ok.inj hread).symm
  exact Except.ok.inj ((at_cons.mpr hat).parent hroot)

omit [DecidableEq T] in
theorem Sorted.find?_eq_some {xs : List T} (hs : Sorted key xs) {q : K} {y : T} :
    xs.find? (fun x => key x = q) = some y ↔ y ∈ xs ∧ key y = q := by
  constructor
  · intro hfind
    exact ⟨List.mem_of_find?_eq_some hfind, by simpa using List.find?_some hfind⟩
  · rintro ⟨hy, rfl⟩
    obtain ⟨z, hz⟩ : ∃ z, xs.find? (fun x => key x = key y) = some z :=
      Option.isSome_iff_exists.mp (List.find?_isSome.mpr ⟨y, hy, by simp⟩)
    have hkey : key z = key y := by simpa using List.find?_some hz
    rw [hz, hs.eq_of_key (List.mem_of_find?_eq_some hz) hy hkey]

theorem Heap.Keeps.tree (hkeeps : h.Keeps key s) :
    ∃ t, RedBlackTree key h s t ∧ Answers key h s t := by
  obtain ⟨xs, ⟨t, m, hat, hbalanced, rfl⟩, hs, rfl⟩ := id hkeeps
  have hroot : h.root = t.root := hat.around
  have hfind : ∀ q, ∃ r, Returns (fun fuel => rbFindBy (fun x => compare q (key x)) fuel h h.root)
      r ∧
      ∀ y, r = some y ↔ y ∈ t.inorder.toFinset ∧ key y = q := fun q => by
    refine ⟨_, hroot ▸ rbFindBy_ok hat hs q, fun y => ?_⟩
    rw [hs.find?_eq_some, List.mem_toFinset]
  refine ⟨t, ⟨hroot, hat.tree, fun x hx d y => hat.parents (List.mem_toFinset.mp hx), hs,
    hbalanced.color_eq, hbalanced.noRedRed, ⟨m, hbalanced.blackCounts_eq⟩,
    fun x => List.mem_toFinset.symm⟩, ⟨hfind, fun x => hfind (key x), fun x y hy hkey => ?_,
    fun x hno => ?_, fun x hx => ?_, rbWalk_ok hat⟩⟩
  · rcases hkeeps.insert x with ⟨z, hz, hkey', hret⟩ | ⟨hno, -⟩
    · have hzy : z = y := hs.eq_of_key (List.mem_toFinset.mp hz) (List.mem_toFinset.mp hy)
        (hkey'.trans hkey.symm)
      rwa [← hzy]
    · exact absurd hkey (hno y hy)
  · rcases hkeeps.insert x with ⟨z, hz, hkey, -⟩ | ⟨-, h', -, hret⟩
    · exact absurd hkey (hno z hz)
    · exact ⟨h', hret⟩
  · obtain ⟨h', -, hret⟩ := hkeeps.remove hx
    exact ⟨h', hret⟩

/-- Every run of insertions and removals from an empty head returns, with a red-black tree of the
elements that are in the set. -/
theorem rb_run (key : T → K) (h : Heap T) (hempty : h.root = none) (calls : List (Call T))
    (hcalls : Contained key ∅ calls) :
    ∃ h' t, Returns (fun fuel => rbRun key fuel h calls) h' ∧
      RedBlackTree key h' (calls.foldl (setAfter key) ∅) t ∧
      Answers key h' (calls.foldl (setAfter key) ∅) t := by
  obtain ⟨h', hkeeps, hret⟩ := rbRun_keeps (keeps_empty hempty key) hcalls
  obtain ⟨t, htree, hanswers⟩ := hkeeps.tree
  exact ⟨h', t, hret, htree, hanswers⟩

/-- A number that is there already does not come in again. -/
theorem rb_run_numbers :
    ∃ h' t,
      Returns (fun fuel => rbRun (id : Nat → Nat) fuel ⟨none, fun _ => ⟨none, none, none, .red⟩⟩
        [.insert 2, .insert 1, .insert 3, .insert 1, .remove 2]) h' ∧
      RedBlackTree id h' {1, 3} t ∧ Answers id h' {1, 3} t := by
  have hrun := rb_run (id : Nat → Nat) ⟨none, fun _ => ⟨none, none, none, .red⟩⟩ rfl
    [.insert 2, .insert 1, .insert 3, .insert 1, .remove 2] (by simp [Contained, setAfter])
  rwa [show List.foldl (setAfter id) ∅ [.insert 2, .insert 1, .insert 3, .insert 1, .remove 2] =
    ({1, 3} : Finset Nat) by decide] at hrun

end Ztmux.Compat
