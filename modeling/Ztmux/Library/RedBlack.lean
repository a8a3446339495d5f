import Mathlib

/-!
Red-black trees and the places in them.

A place is a subtree and the frames above it, innermost first. A tree can be read at any of
its places, and what an algorithm does at one place is undone by `plug`.

The two sides of a tree are mirror images, so a node is also built by `join` from the subtree
on a given side and the one on the other.
-/

namespace Ztmux.RedBlack

inductive Side
  | left
  | right
  deriving DecidableEq, Repr

def Side.other : Side → Side
  | .left => .right
  | .right => .left

@[simp] theorem Side.other_other (d : Side) : d.other.other = d := by cases d <;> rfl

@[simp] theorem Side.other_ne (d : Side) : d.other ≠ d := by cases d <;> decide

theorem Side.eq_or (d e : Side) : e = d ∨ e = d.other := by cases d <;> cases e <;> decide

inductive Color
  | red
  | black
  deriving DecidableEq, Repr

inductive RbTree (T : Type*)
  | nil
  | node (color : Color) (left : RbTree T) (elm : T) (right : RbTree T)

namespace RbTree

variable {T : Type*}

def root : RbTree T → Option T
  | nil => none
  | node _ _ x _ => some x

def inorder : RbTree T → List T
  | nil => []
  | node _ l x r => l.inorder ++ x :: r.inorder

/-- The node with one subtree on side `d` and another on the other side. -/
def join (d : Side) (c : Color) (a : RbTree T) (x : T) (b : RbTree T) : RbTree T :=
  match d with
  | .left => node c a x b
  | .right => node c b x a

@[simp] theorem root_join (d : Side) (c : Color) (a : RbTree T) (x : T) (b : RbTree T) :
    (join d c a x b).root = some x := by cases d <;> rfl

theorem join_other (d : Side) (c : Color) (a : RbTree T) (x : T) (b : RbTree T) :
    join d.other c a x b = join d c b x a := by cases d <;> rfl

theorem root_eq_none {t : RbTree T} : t.root = none ↔ t = nil := by
  cases t <;> simp [root]

theorem root_mem {t : RbTree T} {y : T} (hroot : t.root = some y) : y ∈ t.inorder := by
  cases t with
  | nil => cases hroot
  | node c l z r =>
      obtain rfl : z = y := Option.some.inj hroot
      simp [inorder]

theorem exists_join {t : RbTree T} (h : t ≠ nil) (d : Side) : ∃ c a x b, t = join d c a x b := by
  cases t with
  | nil => exact absurd rfl h
  | node c l x r =>
      cases d with
      | left => exact ⟨c, l, x, r, rfl⟩
      | right => exact ⟨c, r, x, l, rfl⟩

theorem join_induction (d : Side) {motive : RbTree T → Prop} (nil : motive nil)
    (join : ∀ c a x b, motive a → motive b → motive (join d c a x b)) (t : RbTree T) :
    motive t := by
  induction t with
  | nil => exact nil
  | node c l x r ihl ihr =>
      cases d with
      | left => exact join c l x r ihl ihr
      | right => exact join c r x l ihr ihl

theorem inorder_join_perm (d : Side) (c : Color) (a : RbTree T) (x : T) (b : RbTree T) :
    (join d c a x b).inorder.Perm (a.inorder ++ x :: b.inorder) := by
  cases d with
  | left => exact .refl _
  | right =>
      refine List.perm_append_comm.trans ?_
      rw [List.cons_append]
      exact List.perm_middle.symm

theorem mem_inorder_join {d : Side} {c : Color} {a : RbTree T} {x : T} {b : RbTree T} {z : T} :
    z ∈ (join d c a x b).inorder ↔ z = x ∨ z ∈ a.inorder ∨ z ∈ b.inorder := by
  rw [(inorder_join_perm d c a x b).mem_iff, List.mem_append, List.mem_cons, or_left_comm]

/-! ### Rotation -/

theorem inorder_rotate (d : Side) (c e : Color) (a : RbTree T) (x : T) (m : RbTree T) (y : T)
    (r : RbTree T) :
    (join d e (join d c a x m) y r).inorder = (join d c a x (join d e m y r)).inorder := by
  cases d <;> simp [join, inorder]

/-! ### Balance -/

/-- A subtree with a root of the given colour (an empty one counts as black), without a red node
that has a red child, and with the given number of black nodes on every path. -/
inductive Balanced : Color → Nat → RbTree T → Prop
  | nil : Balanced .black 0 nil
  | red {n : Nat} {l : RbTree T} {x : T} {r : RbTree T} :
      Balanced .black n l → Balanced .black n r → Balanced .red n (node .red l x r)
  | black {c c' : Color} {n : Nat} {l : RbTree T} {x : T} {r : RbTree T} :
      Balanced c n l → Balanced c' n r → Balanced .black (n + 1) (node .black l x r)

theorem balanced_join_red {d : Side} {k : Color} {n : Nat} {a : RbTree T} {x : T} {b : RbTree T} :
    Balanced k n (join d .red a x b) ↔ k = .red ∧ Balanced .black n a ∧ Balanced .black n b := by
  constructor
  · cases d <;> (rintro (_ | ⟨hl, hr⟩ | _))
    · exact ⟨rfl, hl, hr⟩
    · exact ⟨rfl, hr, hl⟩
  · rintro ⟨rfl, ha, hb⟩
    cases d
    · exact .red ha hb
    · exact .red hb ha

theorem balanced_join_black {d : Side} {k : Color} {n : Nat} {a : RbTree T} {x : T} {b : RbTree T} :
    Balanced k n (join d .black a x b) ↔
      k = .black ∧ ∃ m c c', n = m + 1 ∧ Balanced c m a ∧ Balanced c' m b := by
  constructor
  · cases d <;> (rintro (_ | _ | ⟨hl, hr⟩))
    · exact ⟨rfl, _, _, _, rfl, hl, hr⟩
    · exact ⟨rfl, _, _, _, rfl, hr, hl⟩
  · rintro ⟨rfl, m, c, c', rfl, ha, hb⟩
    cases d
    · exact .black ha hb
    · exact .black hb ha

theorem Balanced.join_color {d : Side} {k c : Color} {n : Nat} {a : RbTree T} {x : T} {b : RbTree T}
    (h : Balanced k n (join d c a x b)) : k = c := by
  cases c with
  | red => exact (balanced_join_red.mp h).1
  | black => exact (balanced_join_black.mp h).1

/-- An empty tree counts as black. -/
def color : RbTree T → Color
  | nil => .black
  | node c _ _ _ => c

@[simp] theorem color_join (d : Side) (c : Color) (a : RbTree T) (x : T) (b : RbTree T) :
    (join d c a x b).color = c := by cases d <;> rfl

theorem Balanced.color_eq {k : Color} {n : Nat} {t : RbTree T} (h : Balanced k n t) :
    t.color = k := by
  cases h <;> rfl

theorem Balanced.black_of_ne {k : Color} {n : Nat} {t : RbTree T} (h : Balanced k n t)
    (hc : t.color ≠ .red) : Balanced .black n t := by
  cases k with
  | red => exact absurd h.color_eq hc
  | black => exact h

theorem Balanced.blacken {d : Side} {k c : Color} {n : Nat} {a : RbTree T} {x : T} {b : RbTree T}
    (h : Balanced k n (join d c a x b)) : ∃ m, Balanced .black m (join d .black a x b) := by
  cases c with
  | red =>
      obtain ⟨-, ha, hb⟩ := balanced_join_red.mp h
      exact ⟨n + 1, balanced_join_black.mpr ⟨rfl, n, _, _, rfl, ha, hb⟩⟩
  | black => exact ⟨n, h.join_color ▸ h⟩

theorem inorder_join_color (d : Side) (c c' : Color) (a : RbTree T) (x : T) (b : RbTree T) :
    (join d c a x b).inorder = (join d c' a x b).inorder := by cases d <;> rfl

theorem inorder_join_congr {d : Side} {c c' : Color} {a a' : RbTree T} {x : T} {b b' : RbTree T}
    (ha : a.inorder = a'.inorder) (hb : b.inorder = b'.inorder) :
    (join d c a x b).inorder = (join d c' a' x b').inorder := by
  cases d <;> simp [join, inorder, ha, hb]

/-- The numbers of black nodes on the paths to the empty subtrees. -/
def blackCounts : RbTree T → List Nat
  | nil => [0]
  | node c l _ r => (l.blackCounts ++ r.blackCounts).map fun n => if c = .black then n + 1 else n

/-- No red node has a red child. -/
def NoRedRed : RbTree T → Prop
  | nil => True
  | node c l _ r => l.NoRedRed ∧ r.NoRedRed ∧
      (c = .red → ∀ c' a x b, (l = node c' a x b ∨ r = node c' a x b) → c' = .black)

theorem Balanced.blackCounts_eq {k : Color} {n : Nat} {t : RbTree T} (h : Balanced k n t) :
    ∀ m ∈ t.blackCounts, m = n := by
  induction h with
  | nil => simp [blackCounts]
  | red _ _ ihl ihr =>
      intro m hm
      simp only [blackCounts, List.map_append, List.mem_append, List.mem_map] at hm
      rcases hm with ⟨m', hm', rfl⟩ | ⟨m', hm', rfl⟩
      · exact ihl m' hm'
      · exact ihr m' hm'
  | black _ _ ihl ihr =>
      intro m hm
      simp only [blackCounts, List.map_append, List.mem_append, List.mem_map] at hm
      rcases hm with ⟨m', hm', rfl⟩ | ⟨m', hm', rfl⟩
      · exact congrArg (· + 1) (ihl m' hm')
      · exact congrArg (· + 1) (ihr m' hm')

theorem Balanced.node_color {k c : Color} {n : Nat} {l : RbTree T} {x : T} {r : RbTree T}
    (h : Balanced k n (node c l x r)) : c = k := by
  cases h <;> rfl

theorem Balanced.noRedRed {k : Color} {n : Nat} {t : RbTree T} (h : Balanced k n t) :
    t.NoRedRed := by
  induction h with
  | nil => exact trivial
  | red hl hr ihl ihr =>
      refine ⟨ihl, ihr, fun _ c' a x b heq => ?_⟩
      rcases heq with rfl | rfl
      · exact hl.node_color
      · exact hr.node_color
  | black _ _ ihl ihr => exact ⟨ihl, ihr, fun heq => nomatch heq⟩

end RbTree

/-! ### Places -/

/-- A node without the subtree on one side. -/
structure Frame (T : Type*) where
  side : Side
  color : Color
  elm : T
  sibling : RbTree T

variable {T : Type*}

open RedBlack.RbTree

def Frame.plug (f : Frame T) (t : RbTree T) : RbTree T := join f.side f.color t f.elm f.sibling

def plug : List (Frame T) → RbTree T → RbTree T
  | [], t => t
  | f :: path, t => plug path (f.plug t)

/-- The elements outside the place. -/
def outside : List (Frame T) → List T
  | [] => []
  | f :: path => f.elm :: (f.sibling.inorder ++ outside path)

/-- The elements to the left of the place, and those to the right. -/
def before : List (Frame T) → List T
  | [] => []
  | f :: path =>
      match f.side with
      | .left => before path
      | .right => before path ++ (f.sibling.inorder ++ [f.elm])

def after : List (Frame T) → List T
  | [] => []
  | f :: path =>
      match f.side with
      | .left => f.elm :: f.sibling.inorder ++ after path
      | .right => after path

theorem inorder_plug (path : List (Frame T)) (t : RbTree T) :
    (plug path t).inorder = before path ++ t.inorder ++ after path := by
  induction path generalizing t with
  | nil => simp [plug, before, after]
  | cons f path ih =>
      obtain ⟨d, c, x, b⟩ := f
      rw [plug, ih]
      cases d <;> simp [before, after, Frame.plug, join, inorder]

theorem inorder_plug_perm (path : List (Frame T)) (t : RbTree T) :
    (plug path t).inorder.Perm (t.inorder ++ outside path) := by
  induction path generalizing t with
  | nil => rw [plug, outside, List.append_nil]
  | cons f path ih =>
      refine (ih (f.plug t)).trans (((inorder_join_perm _ _ _ _ _).append_right _).trans ?_)
      simp [outside]

theorem plug_congr {path : List (Frame T)} {t t' : RbTree T} (h : t.inorder = t'.inorder) :
    (plug path t).inorder = (plug path t').inorder := by
  rw [inorder_plug, inorder_plug, h]

theorem plug_append (path path' : List (Frame T)) (t : RbTree T) :
    plug (path ++ path') t = plug path' (plug path t) := by
  induction path generalizing t with
  | nil => rfl
  | cons f path ih => exact ih (f.plug t)

theorem before_append (path path' : List (Frame T)) :
    before (path ++ path') = before path' ++ before path := by
  induction path with
  | nil => simp [before]
  | cons f path ih =>
      obtain ⟨d, c, x, b⟩ := f
      cases d <;> simp [before, ih]

theorem after_append (path path' : List (Frame T)) :
    after (path ++ path') = after path ++ after path' := by
  induction path with
  | nil => simp [after]
  | cons f path ih =>
      obtain ⟨d, c, x, b⟩ := f
      cases d <;> simp [after, ih]

theorem before_eq_nil {path : List (Frame T)} (h : ∀ f ∈ path, f.side = .left) :
    before path = [] := by
  induction path with
  | nil => rfl
  | cons f path ih =>
      obtain ⟨d, c, x, b⟩ := f
      obtain rfl : d = .left := h _ List.mem_cons_self
      exact ih fun f hf => h f (.tail _ hf)

/-! ### Walking to a side -/

/-- The elements in the order in which a walk to side `d` meets them. -/
def RbTree.ordered (d : Side) (t : RbTree T) : List T :=
  match d with
  | .left => t.inorder.reverse
  | .right => t.inorder

@[simp] theorem ordered_nil (d : Side) : (nil : RbTree T).ordered d = [] := by cases d <;> rfl

theorem ordered_join (d : Side) (c : Color) (a : RbTree T) (x : T) (b : RbTree T) :
    (join d c a x b).ordered d = b.ordered d ++ x :: a.ordered d := by
  cases d <;> simp [ordered, join, inorder]

theorem ordered_join_other (d : Side) (c : Color) (a : RbTree T) (x : T) (b : RbTree T) :
    (join d c a x b).ordered d.other = a.ordered d.other ++ x :: b.ordered d.other := by
  rw [← ordered_join d.other c b x a, join_other]

theorem ordered_eq_reverse_other (d : Side) (t : RbTree T) :
    t.ordered d = (t.ordered d.other).reverse := by
  cases d with
  | left => rfl
  | right => exact (List.reverse_reverse _).symm

theorem ordered_ne_nil {d : Side} {t : RbTree T} (h : t ≠ nil) : t.ordered d ≠ [] := by
  obtain ⟨c, a, x, b, rfl⟩ := exists_join h d
  simp [ordered_join]

theorem mem_ordered {d : Side} {t : RbTree T} {x : T} : x ∈ t.ordered d ↔ x ∈ t.inorder := by
  cases d with
  | left => exact List.mem_reverse
  | right => rfl

theorem ordered_nodup {d : Side} {t : RbTree T} (h : t.inorder.Nodup) : (t.ordered d).Nodup := by
  cases d with
  | left => exact List.nodup_reverse.mpr h
  | right => exact h

/-- The elements that a walk from a place to side `d` meets. -/
def beyond (d : Side) : List (Frame T) → List T
  | [] => []
  | f :: path =>
      if f.side = d then beyond d path else f.elm :: (f.sibling.ordered d ++ beyond d path)

theorem beyond_eq_nil {d : Side} {path : List (Frame T)} (h : ∀ f ∈ path, f.side = d) :
    beyond d path = [] := by
  induction path with
  | nil => rfl
  | cons f path ih =>
      rw [beyond, if_pos (h f List.mem_cons_self)]
      exact ih fun f hf => h f (.tail _ hf)

/-- The walk through a tree passes a place and goes on beyond it. -/
theorem exists_ordered_plug (d : Side) (path : List (Frame T)) (t : RbTree T) :
    ∃ pre, (plug path t).ordered d = pre ++ (t.ordered d ++ beyond d path) := by
  induction path generalizing t with
  | nil => exact ⟨[], by simp [plug, beyond]⟩
  | cons f path ih =>
      obtain ⟨pre, hpre⟩ := ih (f.plug t)
      rw [plug, hpre, Frame.plug, beyond]
      rcases Side.eq_or d f.side with heq | heq
      · rw [if_pos heq, heq, ordered_join]
        exact ⟨pre ++ (f.sibling.ordered d ++ [f.elm]), by simp⟩
      · rw [if_neg (by rw [heq]; exact Side.other_ne d), heq]
        have hside := ordered_join_other d.other f.color t f.elm f.sibling
        rw [Side.other_other] at hside
        exact ⟨pre, by rw [hside]; simp⟩

theorem exists_place {t : RbTree T} {x : T} (h : x ∈ t.inorder) (d : Side) :
    ∃ path c a b, t = plug path (join d c a x b) := by
  induction t using join_induction d with
  | nil => exact absurd h List.not_mem_nil
  | join c a y b iha ihb =>
      rcases mem_inorder_join.mp h with rfl | h | h
      · exact ⟨[], c, a, b, rfl⟩
      · obtain ⟨path, c', a', b', rfl⟩ := iha h
        exact ⟨path ++ [⟨d, c, y, b⟩], c', a', b', by rw [plug_append]; rfl⟩
      · obtain ⟨path, c', a', b', rfl⟩ := ihb h
        exact ⟨path ++ [⟨d.other, c, y, a⟩], c', a', b', by
          rw [plug_append, plug, plug, Frame.plug, join_other]⟩

/-- The place takes a subtree with a root of the given colour and number of black nodes. -/
inductive Fits : Color → Nat → List (Frame T) → Prop
  | root (n : Nat) : Fits .black n []
  | red {d : Side} {n : Nat} {x : T} {b : RbTree T} {path : List (Frame T)} :
      Balanced .black n b → Fits .red n path → Fits .black n (⟨d, .red, x, b⟩ :: path)
  | black {d : Side} {k c : Color} {n : Nat} {x : T} {b : RbTree T} {path : List (Frame T)} :
      Balanced c n b → Fits .black (n + 1) path → Fits k n (⟨d, .black, x, b⟩ :: path)

theorem Fits.weaken {k : Color} {n : Nat} {path : List (Frame T)} (h : Fits k n path) :
    Fits .black n path := by
  cases h with
  | root n => exact .root n
  | red hb hpath => exact .red hb hpath
  | black hb hpath => exact .black hb hpath

theorem Fits.balanced {k : Color} {n : Nat} {path : List (Frame T)} {t : RbTree T}
    (h : Fits k n path)
    (ht : Balanced k n t) : ∃ m, Balanced .black m (plug path t) := by
  induction h generalizing t with
  | root n => exact ⟨n, ht⟩
  | red hb _ ih => exact ih (balanced_join_red.mpr ⟨rfl, ht, hb⟩)
  | black hb _ ih => exact ih (balanced_join_black.mpr ⟨rfl, _, _, _, rfl, ht, hb⟩)

theorem Fits.down {k : Color} {n : Nat} {path : List (Frame T)} (h : Fits k n path) {d : Side}
    {c : Color} {a : RbTree T} {x : T} {b : RbTree T} (ht : Balanced k n (join d c a x b)) :
    ∃ k' n', Balanced k' n' a ∧ Fits k' n' (⟨d, c, x, b⟩ :: path) := by
  cases c with
  | red =>
      obtain ⟨rfl, ha, hb⟩ := balanced_join_red.mp ht
      exact ⟨.black, n, ha, .red hb h⟩
  | black =>
      obtain ⟨rfl, m, c, c', rfl, ha, hb⟩ := balanced_join_black.mp ht
      exact ⟨c, m, ha, .black hb h⟩

theorem Fits.relabel {k : Color} {n : Nat} {path path' : List (Frame T)} {d : Side} {c : Color}
    {x y : T}
    {b : RbTree T} (h : Fits k n (path ++ ⟨d, c, x, b⟩ :: path')) :
    Fits k n (path ++ ⟨d, c, y, b⟩ :: path') := by
  induction path generalizing k n with
  | nil =>
      cases h with
      | red hb h => exact .red hb h
      | black hb h => exact .black hb h
  | cons f path ih =>
      cases h with
      | red hb h => exact .red hb (ih h)
      | black hb h => exact .black hb (ih h)

theorem Fits.at_place {path : List (Frame T)} {t : RbTree T} {m : Nat}
    (h : Balanced .black m (plug path t)) : ∃ k n, Balanced k n t ∧ Fits k n path := by
  induction path generalizing t with
  | nil => exact ⟨.black, m, h, .root m⟩
  | cons f path ih =>
      obtain ⟨k, n, ht, hpath⟩ := ih h
      exact hpath.down ht

end Ztmux.RedBlack
