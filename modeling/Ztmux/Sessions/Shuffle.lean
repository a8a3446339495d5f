import Ztmux.Sessions.Renumber

/-!
Making room for a window.

The winlinks from an index on are moved up by one, up to the next free index. The search for that
index ends before the greatest one and does not look at it, so an index that is in use can be taken
for a free one.
-/

namespace Ztmux.Sessions

/-! ### Model -/

/-- Put a winlink into the tree, which is not done when there is one with its index. -/
def rbInsertNew (wl : Winlink) (windows : List Winlink) : List Winlink :=
  if ∃ x ∈ windows, x.idx = wl.idx then windows else rbInsert wl windows

/-- Find the next free index: the loop over the indexes from `i` on. -/
def nextFree (windows : List Winlink) : Nat → Int → Int → Exec Int
  | 0, _, last => pure last
  | turns + 1, i, _ => do
      match ← winlinkFindByIndex windows i with
      | none => pure i
      | some _ => nextFree windows turns (i + 1) i

/-- Move everything from `last - 1` to `idx` up a bit, where `last` is `idx + n`. -/
def moveUp (idx : Int) : Nat → List Winlink → Exec (List Winlink)
  | 0, windows => pure windows
  | n + 1, windows => do
      match ← winlinkFindByIndex windows (idx + n) with
      | none => .error .nullPointer
      | some wl => moveUp idx n (rbInsertNew { wl with idx := wl.idx + 1 } (windows.erase wl))

/-- The index to make room at. -/
def shuffleIndex (wl : Winlink) (before : Bool) : Int :=
  if before then wl.idx else wrapI32 (wl.idx + 1)

def winlinkShuffleUp (windows : List Winlink) (wl : Option Winlink) (before : Bool) :
    Exec (Int × List Winlink) :=
  match wl with
  | none => pure (-1, windows)
  | some wl => do
      let idx := shuffleIndex wl before
      let last ← nextFree windows (i32Max - idx).toNat idx idx
      if last = i32Max then pure (-1, windows)
      else pure (idx, ← moveUp idx (last - idx).toNat windows)

/-! ### Moving up -/

/-- A winlink whose index is from `a` on and before `b` is moved up. -/
def shift (a b : Int) (wl : Winlink) : Winlink :=
  if a ≤ wl.idx ∧ wl.idx < b then { wl with idx := wl.idx + 1 } else wl

/-- The winlinks of a session, in the order of their indexes. -/
structure Numbered (windows : List Winlink) : Prop where
  sorted : windows.Pairwise fun a b => a.idx < b.idx
  index : ∀ wl ∈ windows, IsIndex wl.idx

/-- The indexes from `a` on and before `b` are in use. -/
def Occupied (windows : List Winlink) (a b : Int) : Prop :=
  ∀ i, a ≤ i → i < b → ∃ wl ∈ windows, wl.idx = i

def Free (windows : List Winlink) (i : Int) : Prop := ∀ wl ∈ windows, wl.idx ≠ i

variable {windows : List Winlink} {wl : Winlink} {a b idx : Int}

theorem winlinkFindByIndex_free {i : Int} (hi : 0 ≤ i) (h : Free windows i) :
    winlinkFindByIndex windows i = .ok none := by
  rw [winlinkFindByIndex, if_neg (not_lt.mpr hi)]
  exact congrArg _ (List.find?_eq_none.mpr fun x hx => by simpa using h x hx)

theorem shift_idx (a b : Int) (wl : Winlink) :
    (shift a b wl).idx = if a ≤ wl.idx ∧ wl.idx < b then wl.idx + 1 else wl.idx := by
  rw [shift]
  split_ifs <;> rfl

theorem map_shift_same (h : ∀ x ∈ windows, ¬ (a ≤ x.idx ∧ x.idx < b)) :
    windows.map (shift a b) = windows := by
  conv_rhs => rw [← List.map_id windows]
  exact List.map_congr_left fun x hx => if_neg (h x hx)

/-- The winlinks stay in order if the index behind those that move is free. -/
theorem Numbered.shift (h : Numbered windows) (hfree : Free windows b) (hb : b ≤ i32Max) :
    Numbered (windows.map (shift a b)) := by
  refine ⟨List.pairwise_map.mpr (h.sorted.imp_of_mem ?_), ?_⟩
  · intro x y hx hy hlt
    have hne := hfree y hy
    rw [shift_idx, shift_idx]
    split_ifs <;> omega
  · intro x hx
    obtain ⟨y, hy, rfl⟩ := List.mem_map.mp hx
    obtain ⟨h0, hmax⟩ := h.index y hy
    rw [IsIndex, shift_idx]
    split_ifs <;> omega

theorem Free.shift (a b : Int) (hab : a < b) (hfree : Free windows b) :
    Free (windows.map (shift a b)) a := by
  intro x hx
  obtain ⟨y, hy, rfl⟩ := List.mem_map.mp hx
  have hne := hfree y hy
  rw [shift_idx]
  split_ifs <;> omega

theorem Occupied.shift (h : Occupied windows idx a) : Occupied (windows.map (shift a b)) idx a := by
  intro i hle hlt
  obtain ⟨wl, hwl, rfl⟩ := h i hle hlt
  refine ⟨wl, List.mem_map.mpr ⟨wl, hwl, ?_⟩, rfl⟩
  rw [Sessions.shift, if_neg (by omega)]

theorem rbInsert_append {front back : List Winlink} (h : ∀ x ∈ front, x.idx < wl.idx) :
    rbInsert wl (front ++ back) = front ++ rbInsert wl back := by
  induction front with
  | nil => rfl
  | cons x front ih =>
      obtain ⟨hx, hfront⟩ := List.forall_mem_cons.mp h
      rw [List.cons_append, rbInsert, if_neg (by omega), ih hfront, List.cons_append]

theorem rbInsert_start {back : List Winlink} (h : ∀ x ∈ back, wl.idx < x.idx) :
    rbInsert wl back = wl :: back := by
  cases back with
  | nil => rfl
  | cons x back => rw [rbInsert, if_pos (h x List.mem_cons_self)]

/-- One winlink moves up when the next index is free. -/
theorem move_one (h : Numbered windows) (hwl : wl ∈ windows) (hfree : Free windows (wl.idx + 1)) :
    rbInsertNew { wl with idx := wl.idx + 1 } (windows.erase wl) =
      windows.map (shift wl.idx (wl.idx + 1)) := by
  obtain ⟨front, back, rfl⟩ := List.append_of_mem hwl
  obtain ⟨-, hback, hfront⟩ := List.pairwise_append.mp h.sorted
  have hlt : ∀ x ∈ front, x.idx < wl.idx := fun x hx => hfront x hx wl List.mem_cons_self
  have hgt : ∀ x ∈ back, wl.idx + 1 < x.idx := by
    intro x hx
    have hx₁ := (List.pairwise_cons.mp hback).1 x hx
    have hx₂ := hfree x (List.mem_append_right _ (List.mem_cons_of_mem _ hx))
    omega
  have hnotMem : wl ∉ front := fun hmem => (hlt wl hmem).ne rfl
  rw [List.erase_append_right _ hnotMem, List.erase_cons_head, rbInsertNew, if_neg, rbInsert_append,
    rbInsert_start hgt, List.map_append, List.map_cons]
  · have hfront' : front.map (Sessions.shift wl.idx (wl.idx + 1)) = front :=
      map_shift_same fun x hx => by have := hlt x hx; omega
    have hback' : back.map (Sessions.shift wl.idx (wl.idx + 1)) = back :=
      map_shift_same fun x hx => by have := hgt x hx; omega
    rw [hfront', hback', Sessions.shift, if_pos ⟨le_rfl, Int.lt_add_one_of_le le_rfl⟩]
  · exact fun x hx => by have := hlt x hx; dsimp only; omega
  · rintro ⟨x, hx, heq⟩
    dsimp only at heq
    rcases List.mem_append.mp hx with hx | hx
    · have := hlt x hx
      omega
    · have := hgt x hx
      omega

theorem moveUp_ok {n : Nat} (h : Numbered windows) (h0 : 0 ≤ idx)
    (hrun : Occupied windows idx (idx + n))
    (hfree : Free windows (idx + n)) (hmax : idx + n ≤ i32Max) :
    moveUp idx n windows = .ok (windows.map (shift idx (idx + n))) := by
  induction n generalizing windows with
  | zero =>
      have hsame : windows.map (Sessions.shift idx (idx + (0 : Nat))) = windows :=
        map_shift_same fun x _ => by omega
      rw [hsame]
      rfl
  | succ n ih =>
      rw [Nat.cast_succ, ← add_assoc] at hrun hfree hmax ⊢
      obtain ⟨wl, hwl, hidx⟩ := hrun (idx + n) (by omega) (by omega)
      have hfind : winlinkFindByIndex windows (idx + n) = .ok (some wl) := by
        rw [← hidx]
        exact winlinkFindByIndex_of_mem h.sorted hwl (by omega)
      rw [← hidx] at hfree hmax
      have hrun' : Occupied windows idx wl.idx := fun i hle hlt => hrun i hle (by omega)
      have hnext := ih (h.shift hfree hmax) (by rw [← hidx]; exact hrun'.shift)
        (by rw [← hidx]; exact Free.shift _ _ (by omega) hfree) (by omega)
      rw [moveUp, hfind, ok_bind]
      dsimp only
      rw [move_one h hwl hfree, hnext, List.map_map]
      congr 1
      apply List.map_congr_left
      intro x _
      simp only [Function.comp_apply, Sessions.shift, hidx]
      split_ifs with hat hbelow <;> first | rfl | omega | (dsimp only at hbelow; omega)

/-! ### The next free index -/

theorem nextFree_free {turns : Nat} {i f last : Int} (h : Numbered windows) (h0 : 0 ≤ i)
    (hrun : Occupied windows i f) (hfree : Free windows f) (hle : i ≤ f) (hlt : f < i + turns) :
    nextFree windows turns i last = .ok f := by
  induction turns generalizing i last with
  | zero => omega
  | succ turns ih =>
      rw [nextFree]
      rcases hle.eq_or_lt with rfl | hlt'
      · rw [winlinkFindByIndex_free h0 hfree]
        rfl
      · obtain ⟨wl, hwl, rfl⟩ := hrun i le_rfl hlt'
        rw [winlinkFindByIndex_of_mem h.sorted hwl h0]
        exact ih (by omega) (fun i hle => hrun i (by omega)) (by omega)
          (by rw [Nat.cast_succ] at hlt; omega)

/-- When all the indexes are in use the last one is taken for the free one. -/
theorem nextFree_full {turns : Nat} {i last : Int} (h : Numbered windows) (h0 : 0 ≤ i)
    (hrun : Occupied windows i (i + turns)) (hturns : turns ≠ 0) :
    nextFree windows turns i last = .ok (i + turns - 1) := by
  induction turns generalizing i last with
  | zero => exact absurd rfl hturns
  | succ turns ih =>
      rw [Nat.cast_succ] at hrun ⊢
      obtain ⟨wl, hwl, hidx⟩ := hrun i le_rfl (by omega)
      have hfind : winlinkFindByIndex windows i = .ok (some wl) := by
        rw [← hidx]
        exact winlinkFindByIndex_of_mem h.sorted hwl (by omega)
      rw [nextFree, hfind]
      rcases Nat.eq_zero_or_pos turns with rfl | hpos
      · change Except.ok i = _
        congr 1
        omega
      · have hrest :=
          @ih (i + 1) i (by omega) (fun j hle hlt => hrun j (by omega) (by omega)) hpos.ne'
        change nextFree windows turns (i + 1) i = _
        rw [hrest]
        congr 1
        omega

theorem exists_first_free {i : Int} (hle : idx ≤ i) (hfree : Free windows i) :
    ∃ n : Nat, idx + n ≤ i ∧ Occupied windows idx (idx + n) ∧ Free windows (idx + n) := by
  obtain ⟨k, rfl⟩ : ∃ k : Nat, i = idx + k := ⟨(i - idx).toNat, by omega⟩
  induction k using Nat.strong_induction_on with
  | h k ih =>
      by_cases hrun : Occupied windows idx (idx + k)
      · exact ⟨k, le_rfl, hrun, hfree⟩
      · simp only [Occupied, not_forall] at hrun
        obtain ⟨j, hj, hlt, hnone⟩ := hrun
        obtain ⟨m, rfl⟩ : ∃ m : Nat, j = idx + m := ⟨(j - idx).toNat, by omega⟩
        obtain ⟨n, hn, hfirst⟩ := ih m (by omega) (by omega) fun wl hwl heq => hnone ⟨wl, hwl, heq⟩
        exact ⟨n, by omega, hfirst⟩

/-! ### Making room -/

/-- The run of winlinks at an index is moved up, and nothing else changes. -/
structure MovedUp (windows windows' : List Winlink) (idx : Int) : Prop where
  numbered : Numbered windows'
  free : Free windows' idx
  run : ∃ n : Nat, Occupied windows idx (idx + n) ∧ Free windows (idx + n) ∧
    windows' = windows.map (shift idx (idx + n))

/-- The index to make room at, without overflow. -/
def roomIndex (wl : Winlink) (before : Bool) : Int := if before then wl.idx else wl.idx + 1

/-- There is room afterwards at the index that is returned, or nothing changed. -/
def ShufflesUp (windows : List Winlink) (wl : Winlink) (before : Bool) : Prop :=
  shuffleIndex wl before = roomIndex wl before ∧
    ∃ r windows', winlinkShuffleUp windows (some wl) before = .ok (r, windows') ∧
      (r = -1 ∧ windows' = windows ∨ r = roomIndex wl before ∧
        MovedUp windows windows' (roomIndex wl before))

theorem roomIndex_bounds (h : Numbered windows) (hwl : wl ∈ windows) (before : Bool) :
    0 ≤ roomIndex wl before ∧ roomIndex wl before ≤ i32Max + 1 := by
  obtain ⟨h0, hmax⟩ := h.index wl hwl
  rw [roomIndex]
  split_ifs <;> omega

/-- There is no overflow unless there should be room behind the greatest index. -/
theorem shuffleIndex_eq_iff (h : Numbered windows) (hwl : wl ∈ windows) (before : Bool) :
    shuffleIndex wl before = roomIndex wl before ↔ roomIndex wl before ≤ i32Max := by
  obtain ⟨h0, hmax⟩ := h.index wl hwl
  rw [shuffleIndex, roomIndex]
  cases before with
  | true => exact iff_of_true rfl hmax
  | false =>
      simp only [Bool.false_eq_true, if_false]
      rcases hmax.eq_or_lt with heq | hlt
      · rw [heq]
        exact iff_of_false (by decide) (by decide)
      · refine iff_of_true (wrapI32_of_lt (by omega) ?_) (by omega)
        rw [i32Max] at hlt
        omega

theorem moveUp_length {n : Nat} {windows' : List Winlink}
    (hmove : moveUp idx n windows = .ok windows') :
    windows'.length ≤ windows.length := by
  induction n generalizing windows with
  | zero => exact (Except.ok.inj hmove ▸ le_rfl)
  | succ n ih =>
      rw [moveUp] at hmove
      obtain ⟨found, hfind, hmove⟩ := bind_eq_ok.mp hmove
      cases found with
      | none => cases hmove
      | some wl =>
          have hmem : wl ∈ windows := by
            rw [winlinkFindByIndex] at hfind
            split_ifs at hfind
            exact List.mem_of_find?_eq_some (Except.ok.inj hfind)
          have hpos := List.length_pos_of_mem hmem
          refine (ih hmove).trans ?_
          rw [rbInsertNew]
          split_ifs
          · exact (List.length_erase_le ..)
          · rw [(rbInsert_perm _ _).length_eq, List.length_cons, List.length_erase_of_mem hmem]
            omega

/-- A winlink is lost when the index to move it to is in use. -/
theorem moveUp_lost {n : Nat} {windows' : List Winlink} (h : Numbered windows) (h0 : 0 ≤ idx)
    (hlast : wl ∈ windows) (hidx : wl.idx = idx + n) (hfull : ∃ x ∈ windows, x.idx = idx + n + 1)
    (hmove : moveUp idx (n + 1) windows = .ok windows') : windows'.length < windows.length := by
  rw [moveUp, ← hidx, winlinkFindByIndex_of_mem h.sorted hlast (by omega), ok_bind] at hmove
  obtain ⟨x, hx, hxidx⟩ := hfull
  have hne : x ≠ wl := by
    rintro rfl
    omega
  have hpos := List.length_pos_of_mem hlast
  dsimp only at hmove
  rw [rbInsertNew, if_pos ⟨x, (List.mem_erase_of_ne hne).mpr hx, by rw [hxidx, hidx]⟩] at hmove
  have hle := moveUp_length hmove
  rw [List.length_erase_of_mem hlast] at hle
  omega

/-- There is room exactly when the index to make room at is one, and is the greatest or followed by
a free index before the greatest. -/
theorem shufflesUp_iff (h : Numbered windows) (hwl : wl ∈ windows) (before : Bool) :
    ShufflesUp windows wl before ↔ roomIndex wl before = i32Max ∨
      ∃ i, roomIndex wl before ≤ i ∧ i < i32Max ∧ Free windows i := by
  obtain ⟨h0, hbound⟩ := roomIndex_bounds h hwl before
  rw [ShufflesUp, shuffleIndex_eq_iff h hwl before]
  have hshuffle : roomIndex wl before ≤ i32Max → winlinkShuffleUp windows (some wl) before = (do
      let last ← nextFree windows (i32Max - roomIndex wl before).toNat (roomIndex wl before)
        (roomIndex wl before)
      if last = i32Max then pure (-1, windows)
      else pure (roomIndex wl before, ← moveUp (roomIndex wl before)
        (last - roomIndex wl before).toNat windows)) := by
    intro hmax
    rw [winlinkShuffleUp, (shuffleIndex_eq_iff h hwl before).mpr hmax]
  generalize roomIndex wl before = idx at *
  constructor
  · rintro ⟨hmax, r, windows', hreturns, hcase⟩
    by_contra hfail
    rw [not_or, not_exists] at hfail
    obtain ⟨hlt, hfull⟩ := hfail
    obtain ⟨n, rfl⟩ : ∃ n : Nat, idx = i32Max - n - 1 := ⟨(i32Max - idx - 1).toNat, by omega⟩
    have hrun : Occupied windows (i32Max - n - 1) i32Max := by
      intro i hle hlt
      by_contra hnone
      exact hfull i ⟨hle, hlt, fun wl hwl heq => hnone ⟨wl, hwl, heq⟩⟩
    have hturns : (i32Max - (i32Max - n - 1)).toNat = n + 1 := by omega
    have hfree := @nextFree_full _ (n + 1) _ (i32Max - n - 1) h h0
      (by rw [Nat.cast_succ]; exact fun i hle hlt => hrun i hle (by omega)) (Nat.succ_ne_zero n)
    have hlast : i32Max - n - 1 + ((n + 1 : Nat) : Int) - 1 = i32Max - 1 := by omega
    rw [hshuffle hmax, hturns, hfree, ok_bind, hlast, if_neg (by decide),
      (by omega : (i32Max - 1 - (i32Max - n - 1)).toNat = n)] at hreturns
    obtain ⟨windows₁, hmove, hpure⟩ := bind_eq_ok.mp hreturns
    obtain ⟨rfl, rfl⟩ := Prod.mk.inj (Except.ok.inj hpure)
    rcases hcase with ⟨hminus, -⟩ | ⟨-, hmoved⟩
    · omega
    · obtain ⟨k, -, -, hmap⟩ := hmoved.run
      cases n with
      | zero =>
          obtain rfl := Except.ok.inj hmove
          obtain ⟨x, hx, hidx⟩ := hrun _ le_rfl (by omega)
          exact hmoved.free x hx hidx
      | succ n =>
          obtain ⟨x, hx, hidx⟩ :=
            hrun (i32Max - ((n + 1 : Nat) : Int) - 1 + n) (by omega) (by omega)
          obtain ⟨y, hy, hyidx⟩ :=
            hrun (i32Max - ((n + 1 : Nat) : Int) - 1 + n + 1) (by omega) (by omega)
          have hlost := moveUp_lost h h0 hx hidx ⟨y, hy, hyidx⟩ hmove
          rw [hmap, List.length_map] at hlost
          exact lt_irrefl _ hlost
  · intro hroom
    have hmax : idx ≤ i32Max := by
      rcases hroom with heq | ⟨i, hle, hlt, -⟩
      · exact heq.le
      · omega
    refine ⟨hmax, ?_⟩
    rw [hshuffle hmax]
    rcases hroom with rfl | ⟨i, hle, hlt, hfree⟩
    · refine ⟨-1, windows, ?_, .inl ⟨rfl, rfl⟩⟩
      rw [Int.sub_self]
      rfl
    · obtain ⟨n, hn, hrun, hfree⟩ := exists_first_free hle hfree
      refine ⟨idx, windows.map (shift idx (idx + n)), ?_, .inr ⟨rfl, ?_⟩⟩
      · rw [nextFree_free h h0 hrun hfree (by omega) (by omega), ok_bind, if_neg (by omega),
          (by omega : (idx + n - idx).toNat = n), moveUp_ok h h0 hrun hfree (by omega)]
        rfl
      · refine ⟨h.shift hfree (by omega), ?_, n, hrun, hfree, rfl⟩
        rcases Nat.eq_zero_or_pos n with rfl | hpos
        · rw [map_shift_same fun x _ => by omega]
          simpa using hfree
        · exact Free.shift _ _ (by omega) hfree

/-- Windows 0 and 1, and a third one at the last index but one. -/
def crowded : List Winlink := [⟨0, 0, 0⟩, ⟨1, 1, 1⟩, ⟨2, i32Max - 1, 2⟩]

theorem crowded_numbered : Numbered crowded := by
  refine ⟨by decide, fun wl hwl => ?_⟩
  simp only [crowded, List.mem_cons, List.not_mem_nil, or_false] at hwl
  rcases hwl with rfl | rfl | rfl <;> exact ⟨by decide, by decide⟩

theorem crowded_shufflesUp : ShufflesUp crowded ⟨0, 0, 0⟩ true :=
  (shufflesUp_iff crowded_numbered (by decide) true).mpr
    (.inr ⟨2, by decide, by decide, (by decide : ∀ wl ∈ crowded, wl.idx ≠ 2)⟩)

/-- The index of the third window is returned, and it is still there. -/
theorem crowded_not_shufflesUp : Numbered crowded ∧
    winlinkShuffleUp crowded (some ⟨2, i32Max - 1, 2⟩) true = .ok (i32Max - 1, crowded) ∧
    ¬ ShufflesUp crowded ⟨2, i32Max - 1, 2⟩ true := by
  have hresult : winlinkShuffleUp crowded (some ⟨2, i32Max - 1, 2⟩) true =
      .ok (i32Max - 1, crowded) := by
    decide +kernel
  refine ⟨crowded_numbered, hresult, ?_⟩
  rintro ⟨-, r, windows', hreturns, hcase⟩
  rw [hresult] at hreturns
  obtain ⟨rfl, rfl⟩ := Prod.mk.inj (Except.ok.inj hreturns)
  rcases hcase with ⟨hminus, -⟩ | ⟨-, hmoved⟩
  · exact absurd hminus (by decide)
  · exact hmoved.free ⟨2, i32Max - 1, 2⟩ (by decide) rfl

end Ztmux.Sessions
