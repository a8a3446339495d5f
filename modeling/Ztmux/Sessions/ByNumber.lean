import Ztmux.Compat.Walk

/-!
Winlinks by a number of windows forward or back.

Both walks go round the tree that a session holds its winlinks in. Going forward the first winlink
comes after the last; going back the first one comes before itself.
-/

namespace Ztmux.Sessions

open Compat RedBlack RedBlack.RbTree

variable {T : Type} [DecidableEq T] {h : Heap T} {t : RbTree T} {wl : T}

/-- Start again at the first winlink behind the end. -/
def wrapToMin (fuel : Nat) (windows : Heap T) (wl : Option T) : Exec (Option T) :=
  if wl = none then rbMin fuel windows else pure wl

/-- The steps of `winlink_next_by_number`. -/
def nextSteps (fuel : Nat) (windows : Heap T) : Nat → Option T → Exec (Option T)
  | 0, wl => pure wl
  | n + 1, wl => do
      let next ← rbNext fuel windows wl
      let wl ← wrapToMin fuel windows next
      nextSteps fuel windows n wl

def winlinkNextByNumber (fuel : Nat) (wl : Option T) (windows : Heap T) (n : Int32) :
    Exec (Option T) :=
  nextSteps fuel windows n.toInt.toNat wl

/-- The steps of `winlink_previous_by_number`. -/
def previousSteps (fuel : Nat) (windows : Heap T) : Nat → Option T → Exec (Option T)
  | 0, wl => pure wl
  | n + 1, wl => do
      let previous ← rbPrev fuel windows wl
      let wl ← wrapToMin fuel windows previous
      previousSteps fuel windows n wl

def winlinkPreviousByNumber (fuel : Nat) (wl : Option T) (windows : Heap T) (n : Int32) :
    Exec (Option T) :=
  previousSteps fuel windows n.toInt.toNat wl

/-! ### One step -/

omit [DecidableEq T] in
theorem rbMin_ok (hat : h.At [] t) : Returns (fun fuel => rbMin fuel h) t.inorder.head? := by
  have hmin := rbMinMax_ok .right hat none
  have hroot : h.root = t.root := hat.around
  rw [Option.or_none] at hmin
  simp only [rbMin, hroot]
  exact hmin

/-- A step to side `d`, which wraps around to the first winlink. -/
theorem step_or_min (hat : h.At [] t) (d : Side) {pre post : List T}
    (horder : t.ordered d = pre ++ wl :: post) :
    Returns (fun fuel => rbStep d fuel h (some wl) >>= wrapToMin fuel h)
      (post.head?.or t.inorder.head?) := by
  refine (rbStep_ok d hat horder).bind ?_
  cases post with
  | nil => exact rbMin_ok hat
  | cons next post => exact returns_pure _

omit [DecidableEq T] in
theorem inorder_eq_at {i : Nat} (hi : i < t.inorder.length) :
    t.inorder = t.inorder.take i ++ t.inorder[i] :: t.inorder.drop (i + 1) := by
  rw [← List.drop_eq_getElem_cons hi, List.take_append_drop]

theorem next_step (hat : h.At [] t) {i : Nat} (hi : i < t.inorder.length) :
    Returns (fun fuel => rbNext fuel h t.inorder[i]? >>= wrapToMin fuel h)
      t.inorder[(i + 1) % t.inorder.length]? := by
  have hstep := step_or_min hat .right (inorder_eq_at hi)
  rw [List.getElem?_eq_getElem hi]
  rcases Nat.lt_or_ge (i + 1) t.inorder.length with hlt | hge
  · rw [List.head?_drop, List.getElem?_eq_getElem hlt, Option.some_or] at hstep
    rw [Nat.mod_eq_of_lt hlt, List.getElem?_eq_getElem hlt]
    exact hstep
  · rw [List.drop_eq_nil_of_le hge, List.head?_nil, Option.none_or, List.head?_eq_getElem?] at hstep
    rw [(by omega : i + 1 = t.inorder.length), Nat.mod_self]
    exact hstep

theorem previous_step (hat : h.At [] t) {i : Nat} (hi : i < t.inorder.length) :
    Returns (fun fuel => rbPrev fuel h t.inorder[i]? >>= wrapToMin fuel h) t.inorder[i - 1]? := by
  have horder : t.ordered .left =
      (t.inorder.drop (i + 1)).reverse ++ t.inorder[i] :: (t.inorder.take i).reverse := by
    change t.inorder.reverse = _
    conv_lhs => rw [inorder_eq_at hi]
    rw [List.reverse_append, List.reverse_cons, List.append_assoc]
    rfl
  have hstep := step_or_min hat .left horder
  rw [List.head?_reverse, List.head?_eq_getElem?] at hstep
  rw [List.getElem?_eq_getElem hi]
  cases i with
  | zero => exact hstep
  | succ i =>
      have hlast : (t.inorder.take (i + 1)).getLast? = t.inorder[i]? := by
        rw [List.getLast?_eq_getElem?, List.length_take_of_le (Nat.le_of_lt hi), Nat.add_sub_cancel,
          List.getElem?_take_of_lt (Nat.lt_add_one i)]
      rw [hlast, List.getElem?_eq_getElem (by omega : i < t.inorder.length),
        Option.some_or] at hstep
      rw [Nat.add_sub_cancel, List.getElem?_eq_getElem (by omega : i < t.inorder.length)]
      exact hstep

/-! ### Any number of steps -/

theorem nextSteps_ok (hat : h.At [] t) (n : Nat) {i : Nat} (hi : i < t.inorder.length) :
    Returns (fun fuel => nextSteps fuel h n t.inorder[i]?)
      t.inorder[(i + n) % t.inorder.length]? := by
  induction n generalizing i with
  | zero =>
      rw [Nat.add_zero, Nat.mod_eq_of_lt hi]
      exact returns_pure _
  | succ n ih =>
      have hrest := ih (Nat.mod_lt (i + 1) (Nat.zero_lt_of_lt hi))
      rw [Nat.mod_add_mod, Nat.add_right_comm, Nat.add_assoc] at hrest
      have hboth := (next_step hat hi).bind (g := fun fuel wl => nextSteps fuel h n wl) hrest
      simpa only [nextSteps, bind_assoc] using hboth

theorem previousSteps_ok (hat : h.At [] t) (n : Nat) {i : Nat} (hi : i < t.inorder.length) :
    Returns (fun fuel => previousSteps fuel h n t.inorder[i]?) t.inorder[i - n]? := by
  induction n generalizing i with
  | zero => exact returns_pure _
  | succ n ih =>
      have hrest := ih (Nat.lt_of_le_of_lt (Nat.sub_le i 1) hi)
      rw [Nat.sub_sub, Nat.add_comm 1 n] at hrest
      have hboth :=
        (previous_step hat hi).bind (g := fun fuel wl => previousSteps fuel h n wl) hrest
      simpa only [previousSteps, bind_assoc] using hboth

/-! ### There and back -/

/-- Forward and back leads to the winlink again, and so does back and forward. -/
def ThereAndBack (windows : Heap T) (wl : T) (n : Int32) : Prop :=
  Returns (fun fuel => do
    let there ← winlinkNextByNumber fuel (some wl) windows n
    winlinkPreviousByNumber fuel there windows n) (some wl) ∧
  Returns (fun fuel => do
    let there ← winlinkPreviousByNumber fuel (some wl) windows n
    winlinkNextByNumber fuel there windows n) (some wl)

omit [DecidableEq T] in
theorem inorder_inj (hat : h.At [] t) {i j : Nat} (hi : i < t.inorder.length) :
    t.inorder[i]? = t.inorder[j]? ↔ i = j := by
  have hnodup : t.inorder.Nodup := (List.nodup_append.mp hat.nodup).1
  exact ⟨fun heq => (List.getElem?_inj hi hnodup).mp heq, fun heq => heq ▸ rfl⟩

/-- Forward and back, and back and forward, are the same place exactly when no step back wraps:
`n` is no more than the winlinks after it, or it is the first; and `n` is no more than the
winlinks before it, or goes round to as many. -/
theorem thereAndBack_iff (hat : h.At [] t) {pre post : List T}
    (horder : t.inorder = pre ++ wl :: post) (n : Int32) :
    ThereAndBack h wl n ↔
      (n.toInt.toNat ≤ post.length ∨ pre = []) ∧
        (n.toInt.toNat ≤ pre.length ∨ n.toInt.toNat % t.inorder.length = pre.length) := by
  have hlength : t.inorder.length = pre.length + 1 + post.length := by
    rw [horder, List.length_append, List.length_cons]
    omega
  have hi : pre.length < t.inorder.length := by omega
  have hat' : t.inorder[pre.length]? = some wl := by
    rw [horder, List.getElem?_append_right (Nat.le_refl _), Nat.sub_self]
    rfl
  generalize hn : n.toInt.toNat = m
  have hpos : 0 < t.inorder.length := Nat.zero_lt_of_lt hi
  have hmod := Nat.mod_lt (pre.length + m) hpos
  have hback : pre.length - m < t.inorder.length := Nat.lt_of_le_of_lt (Nat.sub_le _ _) hi
  have hthere := (nextSteps_ok hat m hi).bind (g := fun fuel wl => previousSteps fuel h m wl)
    (previousSteps_ok hat m hmod)
  have hhere := (previousSteps_ok hat m hi).bind (g := fun fuel wl => nextSteps fuel h m wl)
    (nextSteps_ok hat m hback)
  rw [hat'] at hthere hhere
  have hreturns : ∀ {f : Nat → Exec (Option T)} {k : Nat}, k < t.inorder.length →
      Returns f t.inorder[k]? → (Returns f (some wl) ↔ k = pre.length) := by
    intro f k hk hf
    rw [← inorder_inj hat hk, hat']
    exact ⟨fun hwl => hf.unique hwl, fun heq => heq ▸ hf⟩
  rw [ThereAndBack]
  simp only [winlinkNextByNumber, winlinkPreviousByNumber, hn]
  rw [hreturns (Nat.lt_of_le_of_lt (Nat.sub_le _ _) hmod) hthere,
    hreturns (Nat.mod_lt _ hpos) hhere, ← List.length_eq_zero_iff]
  refine and_congr ?_ ?_
  · rcases Nat.lt_or_ge (pre.length + m) t.inorder.length with hlt | hge
    · rw [Nat.mod_eq_of_lt hlt]
      omega
    · -- round the end at least once, and back by more than that leaves
      have hround : (pre.length + m) % t.inorder.length ≤ pre.length + m - t.inorder.length := by
        rw [Nat.mod_eq_sub_mod hge]
        exact Nat.mod_le _ _
      omega
  · rcases Nat.lt_or_ge pre.length m with hlt | hge
    · rw [Nat.sub_eq_zero_of_le (Nat.le_of_lt hlt), Nat.zero_add]
      omega
    · rw [Nat.sub_add_cancel hge, Nat.mod_eq_of_lt hi]
      omega

/-! ### Two windows -/

def twoWindows : Heap Nat where
  root := some 0
  entry
    | 0 => ⟨none, some 1, none, .black⟩
    | _ => ⟨none, none, some 0, .red⟩

def twoWindowsTree : RbTree Nat := .node .black .nil 0 (.node .red .nil 1 .nil)

theorem twoWindows_at : twoWindows.At [] twoWindowsTree :=
  ⟨⟨rfl, trivial, rfl, trivial, trivial⟩, rfl, by decide⟩

theorem twoWindows_thereAndBack : ThereAndBack twoWindows 0 2 :=
  (@thereAndBack_iff _ _ _ _ 0 twoWindows_at [] [1] rfl 2).mpr (by decide)

/-- From the first window back by one, and forward by one. -/
theorem twoWindows_not_thereAndBack :
    twoWindows.At [] twoWindowsTree ∧ 0 ∈ twoWindowsTree.inorder ∧
    ¬ ThereAndBack twoWindows 0 1 := by
  refine ⟨twoWindows_at, by decide, ?_⟩
  rintro ⟨-, n, hreturns⟩
  have hhere : ∀ fuel, (do
      let there ← winlinkPreviousByNumber (fuel + 3) (some 0) twoWindows 1
      winlinkNextByNumber (fuel + 3) there twoWindows 1) = .ok (some 1) := fun _ => rfl
  have hwl := (hhere n).symm.trans (hreturns (n + 3) (Nat.le_add_right n 3))
  cases hwl

end Ztmux.Sessions
