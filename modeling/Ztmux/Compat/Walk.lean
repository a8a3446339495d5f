import Ztmux.Compat.Insert
import Ztmux.Compat.Remove

/-!
Walking through the tree.

A step to side `d` goes to the first element of the subtree on that side, or climbs to the first
ancestor that has the place on its other side.
-/

namespace Ztmux.Compat

open RedBlack RedBlack.RbTree

variable {T : Type} [DecidableEq T] {h : Heap T} {path : List (Frame T)} {d : Side} {c : Color}
  {t a b : RbTree T} {x : T}

omit [DecidableEq T] in
theorem rbMinMax_ok (d : Side) (hat : h.At path t) (parent : Option T) :
    Returns (fun fuel => rbMinMax d.other fuel h t.root parent)
      ((t.ordered d).head?.or parent) := by
  induction t using join_induction d generalizing path parent with
  | nil => exact .of_succ ⟨0, fun _ _ => by rw [ordered_nil]; rfl⟩
  | join c a x b iha ihb =>
      have hbelow : h.At (⟨d.other, c, x, a⟩ :: path) b := at_sibling.mp (at_cons.mpr hat)
      obtain ⟨m, hret⟩ := ihb hbelow (some x)
      have hhead : (join d c a x b).ordered d = b.ordered d ++ x :: a.ordered d := ordered_join ..
      refine .of_succ ⟨m, fun fuel hfuel => ?_⟩
      change rbMinMax d.other (fuel + 1) h (join d c a x b).root parent = _
      rw [root_join, rbMinMax, hat.child_other, ok_bind]
      refine (hret fuel hfuel).trans (congrArg Except.ok ?_)
      rw [hhead]
      cases b.ordered d with
      | nil => rfl
      | cons y ys => rfl

omit [DecidableEq T] in
theorem rbEnd_first (d : Side) (hat : h.At path t) (hne : t ≠ nil) :
    Returns (fun fuel => rbEnd d.other fuel h t.root) (t.ordered d).head? := by
  obtain ⟨path', c, y, b, rfl, hsides, hret⟩ := rbEnd_ok d.other hat hne
  obtain ⟨pre, hpre⟩ := exists_ordered_plug d.other path' (join d.other c nil y b)
  rw [beyond_eq_nil hsides, ordered_join, ordered_nil, List.append_nil] at hpre
  have hfirst : ((plug path' (join d.other c nil y b)).ordered d).head? = some y := by
    rw [ordered_eq_reverse_other, hpre, List.head?_reverse, ← List.append_assoc]
    exact List.getLast?_concat
  rw [hfirst]
  exact hret

/-! ### Climbing -/

theorem isSibling_root (hat : h.At [] t) (hroot : t.root = some x) (e : Side) :
    isSibling e h (some x) = .ok false := by
  rw [isSibling, hat.parent hroot, ok_bind, above, if_pos rfl]
  rfl

theorem isSibling_cons {f : Frame T} (hat : h.At (f :: path) t) (hroot : t.root = some x)
    (e : Side) :
    isSibling e h (some x) = .ok (decide (f.side = e)) := by
  have hup : h.At path (join f.side f.color t f.elm f.sibling) := at_cons.mp hat
  have hroots : t.root ≠ f.sibling.root :=
    hup.root_ne (.inl (by rw [hroot]; exact Option.some_ne_none x))
  rw [isSibling, hat.parent hroot, ok_bind, above, if_neg (Option.some_ne_none f.elm)]
  rcases Side.eq_or f.side e with rfl | rfl
  · rw [hup.child, ok_bind, decide_eq_true hroot, decide_eq_true rfl]
    rfl
  · rw [hup.child_other, ok_bind, decide_eq_false fun heq => hroots (hroot.trans heq.symm),
      decide_eq_false (Side.other_ne f.side).symm]
    rfl

theorem rbClimb_ok (d : Side) (hat : h.At path t) (hroot : t.root = some x) :
    Returns (fun fuel => rbClimb d fuel h (some x)) (beyond d path).head? := by
  induction path generalizing t x with
  | nil =>
      refine .of_succ ⟨0, fun fuel _ => ?_⟩
      change rbClimb d (fuel + 1) h (some x) = _
      rw [rbClimb, isSibling_root hat hroot, ok_bind]
      exact hat.parent hroot
  | cons f path ih =>
      by_cases hside : f.side = d
      · obtain ⟨m, hret⟩ := ih (at_cons.mp hat) (root_join _ _ _ _ _)
        refine .of_succ ⟨m, fun fuel hfuel => ?_⟩
        change rbClimb d (fuel + 1) h (some x) = _
        rw [rbClimb, isSibling_cons hat hroot, ok_bind, decide_eq_true hside, if_pos rfl,
          hat.parent hroot, ok_bind, beyond, if_pos hside]
        exact hret fuel hfuel
      · refine .of_succ ⟨0, fun fuel _ => ?_⟩
        change rbClimb d (fuel + 1) h (some x) = _
        rw [rbClimb, isSibling_cons hat hroot, ok_bind, decide_eq_false hside,
          if_neg Bool.false_ne_true, beyond, if_neg hside]
        exact hat.parent hroot

/-! ### A step -/

theorem rbStep_place (d : Side) (hat : h.At path (join d c a x b)) :
    Returns (fun fuel => rbStep d fuel h (some x)) (a.ordered d ++ beyond d path).head? := by
  have hroot : (join d c a x b).root = some x := root_join _ _ _ _ _
  by_cases ha : a = nil
  · subst ha
    obtain ⟨m, hret⟩ := rbClimb_ok d hat hroot
    refine ⟨m, fun fuel hfuel => ?_⟩
    change rbStep d fuel h (some x) = _
    rw [rbStep, hat.child, ok_bind, RbTree.root, if_pos rfl, ordered_nil, List.nil_append]
    rcases path with - | ⟨f, path⟩
    · rw [isSibling_root hat hroot, ok_bind, if_neg Bool.false_ne_true]
      exact hret fuel hfuel
    · rw [isSibling_cons hat hroot, ok_bind]
      rcases Side.eq_or d f.side with heq | heq
      · rw [decide_eq_false (heq ▸ (Side.other_ne d).symm), if_neg Bool.false_ne_true]
        exact hret fuel hfuel
      · rw [decide_eq_true heq, if_pos rfl, hat.parent hroot, beyond,
          if_neg (heq ▸ Side.other_ne d)]
        rfl
  · obtain ⟨m, hret⟩ := rbEnd_first d (at_cons.mpr hat) ha
    have hne : a.root ≠ none := fun heq => ha (root_eq_none.mp heq)
    refine ⟨m, fun fuel hfuel => ?_⟩
    change rbStep d fuel h (some x) = _
    rw [rbStep, hat.child, ok_bind, if_neg hne]
    refine (hret fuel hfuel).trans (congrArg Except.ok ?_)
    exact (List.head?_append_of_ne_nil _ (ordered_ne_nil ha)).symm

theorem rbStep_ok (d : Side) (hat : h.At [] t) {pre post : List T}
    (horder : t.ordered d = pre ++ x :: post) :
    Returns (fun fuel => rbStep d fuel h (some x)) post.head? := by
  have hnodup : t.inorder.Nodup := (List.nodup_append.mp hat.nodup).1
  have hx : x ∈ t.inorder := by
    rw [← mem_ordered (d := d), horder]
    simp
  obtain ⟨path, c, a, b, rfl⟩ := exists_place hx d
  obtain ⟨pre', hpre'⟩ := exists_ordered_plug d path (join d c a x b)
  rw [ordered_join, List.append_assoc, List.cons_append, ← List.append_assoc] at hpre'
  have hdup : (pre ++ x :: post).Nodup := horder ▸ ordered_nodup hnodup
  obtain ⟨-, -, hsplit⟩ := (List.append_cons_inj_of_notMem
    (fun hmem => (List.nodup_append.mp hdup).2.2 x hmem x List.mem_cons_self rfl)
    (List.nodup_cons.mp (List.nodup_append.mp hdup).2.1).1).mp (horder.symm.trans hpre')
  rw [hsplit]
  exact rbStep_place d (at_plug.mpr hat)

/-- `rb_min`, and then `rb_next` as long as there is one. -/
def rbWalk (fuel : Nat) (h : Heap T) : Exec (List T) := do rbForeach fuel h fuel (← rbMin fuel h)

theorem rbForeach_ok (hat : h.At [] t) {pre post : List T} (horder : t.inorder = pre ++ post) :
    ∃ n, ∀ fuel turns, n ≤ fuel → n ≤ turns → rbForeach fuel h turns post.head? = .ok post := by
  induction post generalizing pre with
  | nil =>
      refine ⟨1, fun fuel turns _ hturns => ?_⟩
      obtain ⟨turns, rfl⟩ : ∃ i, turns = i + 1 := ⟨turns - 1, by omega⟩
      rfl
  | cons x post ih =>
      obtain ⟨n, hrest⟩ := ih (show t.inorder = pre ++ [x] ++ post by simpa using horder)
      obtain ⟨m, hnext⟩ := rbStep_ok .right hat horder
      refine ⟨max m (n + 1), fun fuel turns hfuel hturns => ?_⟩
      obtain ⟨turns, rfl⟩ : ∃ i, turns = i + 1 := ⟨turns - 1, by omega⟩
      change (do pure (x :: (← rbForeach fuel h turns (← rbNext fuel h (some x)))) : Exec
        (List T)) = _
      rw [rbNext, show rbStep .right fuel h (some x) = _ from hnext fuel (by omega), ok_bind,
        hrest fuel turns (by omega) (by omega)]
      rfl

theorem rbWalk_ok (hat : h.At [] t) : Returns (fun fuel => rbWalk fuel h) t.inorder := by
  obtain ⟨m, hmin⟩ := rbMinMax_ok .right hat none
  obtain ⟨n, heach⟩ := rbForeach_ok hat (show t.inorder = [] ++ t.inorder from rfl)
  have hroot : h.root = t.root := hat.around
  refine ⟨max m n, fun fuel hfuel => ?_⟩
  have hfirst : rbMin fuel h = .ok t.inorder.head? := by
    rw [rbMin, hroot]
    exact (hmin fuel (by omega)).trans (congrArg Except.ok Option.or_none)
  change rbWalk fuel h = _
  rw [rbWalk, hfirst, ok_bind]
  exact heach fuel fuel (by omega) (by omega)

end Ztmux.Compat
