import Ztmux.Sessions.Current
import Ztmux.Sessions.Group

/-!
Linking a window to a session and unlinking it.

A call on one session leaves the others alone: it only touches the flags of winlinks of that
session, gives new winlinks new addresses, and counts each window for the winlinks it adds and
takes away.
-/

namespace Ztmux.Sessions

/-! ### The frame of a call -/

/-- The references to a window that the winlinks of a session hold. -/
def World.contributed (σ : World) (s : SessionId) (w : Window) : UInt32 :=
  UInt32.ofNat ((σ.sessions s).windows.countP fun wl => wl.window = w)

/-- A call on one session. -/
structure Changes (s : SessionId) (σ σ' : World) : Prop where
  others : ∀ t, t ≠ s → σ'.sessions t = σ.sessions t
  visited : ∀ p, p < σ.fresh → p ∉ (σ.sessions s).ptrs → σ'.visited p = σ.visited p
  fresh : σ.fresh ≤ σ'.fresh
  ptrs : ∀ p ∈ (σ'.sessions s).ptrs, p ∈ (σ.sessions s).ptrs ∨ σ.fresh ≤ p
  group : σ'.group = σ.group
  baseIndex : (σ'.sessions s).baseIndex = (σ.sessions s).baseIndex
  references : ∀ w, σ'.references w - σ'.contributed s w = σ.references w - σ.contributed s w

variable {σ σ' : World} {s : SessionId}

theorem Moves.changes (h : Moves s σ σ') : Changes s σ σ' where
  others := h.others
  visited p _ hp := h.visited p hp
  fresh := h.fresh.ge
  ptrs p hp := .inl (by rwa [h.ptrs] at hp)
  group := h.group
  baseIndex := h.baseIndex
  references w := by rw [World.contributed, World.contributed, h.windows, h.references]

theorem Changes.trans {σ₁ σ₂ σ₃ : World} (h₁ : Changes s σ₁ σ₂) (h₂ : Changes s σ₂ σ₃) :
    Changes s σ₁ σ₃ where
  others t ht := (h₂.others t ht).trans (h₁.others t ht)
  visited p hp hnot := by
    have hp₂ : p ∉ (σ₂.sessions s).ptrs := fun hmem =>
      (h₁.ptrs p hmem).elim hnot (Nat.not_le.mpr hp)
    rw [h₂.visited p (hp.trans_le h₁.fresh) hp₂, h₁.visited p hp hnot]
  fresh := h₁.fresh.trans h₂.fresh
  ptrs p hp := by
    rcases h₂.ptrs p hp with hp | hp
    · exact h₁.ptrs p hp
    · exact .inr (h₁.fresh.trans hp)
  group := h₂.group.trans h₁.group
  baseIndex := h₂.baseIndex.trans h₁.baseIndex
  references w := (h₂.references w).trans (h₁.references w)

theorem World.Linked.congr (h : σ.Linked s) (hs : σ'.sessions s = σ.sessions s)
    (hfresh : σ.fresh ≤ σ'.fresh)
    (hvisited : ∀ p ∈ (σ.sessions s).ptrs, σ'.visited p = σ.visited p) :
    σ'.Linked s where
  sorted := by rw [hs]; exact h.sorted
  range := by rw [hs]; exact h.range
  nodup := by rw [hs]; exact h.nodup
  fresh p hp := by
    rw [hs] at hp
    exact (h.fresh p hp).trans_le hfresh
  stacked := by
    rw [hs]
    exact ⟨h.stacked.nodup, h.stacked.mem,
      fun p hp => by rw [hvisited p hp, h.stacked.visited p hp]⟩

theorem World.Valid.congr (h : σ.Valid s) (hs : σ'.sessions s = σ.sessions s)
    (hfresh : σ.fresh ≤ σ'.fresh)
    (hvisited : ∀ p ∈ (σ.sessions s).ptrs, σ'.visited p = σ.visited p) :
    σ'.Valid s :=
  ⟨h.toLinked.congr hs hfresh hvisited, by rw [hs]; exact h.current⟩

/-- Another session with winlinks of its own stays valid. -/
theorem Changes.valid (h : Changes s σ σ') {t : SessionId} (ht : t ≠ s) (hvalid : σ.Valid t)
    (hdisjoint : (σ.sessions t).ptrs.Disjoint (σ.sessions s).ptrs) : σ'.Valid t :=
  hvalid.congr (h.others t ht) h.fresh fun p hp =>
    h.visited p (hvalid.fresh p hp) fun hmem => hdisjoint hp hmem

/-! ### Free indexes -/

def IsIndex (i : Int) : Prop := 0 ≤ i ∧ i ≤ i32Max

theorem nextIndex_ok (windows : List Winlink) (turns : Nat) {i : Int} (hi : IsIndex i) :
    ∃ r, nextIndex windows turns i = .ok r ∧
      (r = -1 ∨ IsIndex r ∧ ∀ wl ∈ windows, wl.idx ≠ r) := by
  induction turns generalizing i with
  | zero => exact ⟨-1, rfl, .inl rfl⟩
  | succ turns ih =>
      rw [nextIndex, winlinkFindByIndex, if_neg (by have := hi.1; omega)]
      cases hfind : windows.find? fun wl => wl.idx = i with
      | none =>
          refine ⟨i, rfl, .inr ⟨hi, fun wl hwl heq => ?_⟩⟩
          simpa [heq] using List.find?_eq_none.mp hfind wl hwl
      | some wl =>
          apply ih
          obtain ⟨h0, hmax⟩ := hi
          rw [IsIndex]
          split_ifs with hlast
          · exact ⟨le_rfl, by decide⟩
          · omega

theorem winlinkIndex_ok (windows : List Winlink) {idx : Int} (h0 : -2 ^ 31 ≤ idx)
    (hmax : idx ≤ i32Max) :
    ∃ found, winlinkIndex windows idx = .ok found ∧
      ∀ i, found = some i → IsIndex i ∧ ∀ wl ∈ windows, wl.idx ≠ i := by
  rw [winlinkIndex]
  split_ifs with hneg
  · have hstart : IsIndex (wrapI32 (-idx - 1)) := by
      rw [wrapI32_of_lt (by omega) (by omega)]
      rw [IsIndex, i32Max]
      omega
    obtain ⟨r, hr, hcase⟩ := nextIndex_ok windows (2 ^ 31) hstart
    rw [winlinkNextIndex, hr]
    refine ⟨_, rfl, fun i hi => ?_⟩
    split_ifs at hi with hnone
    obtain rfl := Option.some.inj hi
    exact hcase.resolve_left hnone
  · rw [winlinkFindByIndex, if_neg hneg]
    cases hfind : windows.find? fun wl => wl.idx = idx with
    | some wl => exact ⟨none, rfl, fun i hi => by cases hi⟩
    | none =>
        refine ⟨some idx, rfl, fun i hi => ?_⟩
        obtain rfl := Option.some.inj hi
        refine ⟨⟨by omega, hmax⟩, fun wl hwl heq => ?_⟩
        simpa [heq] using List.find?_eq_none.mp hfind wl hwl

/-! ### The tree -/

theorem rbInsert_perm (wl : Winlink) (windows : List Winlink) :
    (rbInsert wl windows).Perm (wl :: windows) := by
  induction windows with
  | nil => exact .refl _
  | cons x xs ih =>
      rw [rbInsert]
      split_ifs with hlt
      · exact .refl _
      · exact (ih.cons x).trans (.swap wl x xs)

theorem rbInsert_sorted {wl : Winlink} {windows : List Winlink}
    (h : windows.Pairwise fun a b => a.idx < b.idx) (hnew : ∀ x ∈ windows, x.idx ≠ wl.idx) :
    (rbInsert wl windows).Pairwise fun a b => a.idx < b.idx := by
  induction windows with
  | nil => exact List.pairwise_singleton _ _
  | cons x xs ih =>
      obtain ⟨hx, hxs⟩ := List.pairwise_cons.mp h
      rw [rbInsert]
      split_ifs with hlt
      · refine List.pairwise_cons.mpr ⟨fun y hy => ?_, h⟩
        rcases List.mem_cons.mp hy with rfl | hy
        · exact hlt
        · exact hlt.trans (hx y hy)
      · refine List.pairwise_cons.mpr ⟨fun y hy => ?_, ih hxs fun y hy => hnew y (.tail _ hy)⟩
        rcases List.mem_cons.mp ((rbInsert_perm wl xs).mem_iff.mp hy) with rfl | hy
        · have := hnew x List.mem_cons_self
          omega
        · exact hx y hy

theorem rbInsert_end {wl : Winlink} {windows : List Winlink} (h : ∀ x ∈ windows, x.idx < wl.idx) :
    rbInsert wl windows = windows ++ [wl] := by
  induction windows with
  | nil => rfl
  | cons x xs ih =>
      have hx := h x List.mem_cons_self
      rw [rbInsert, if_neg (by omega), ih fun y hy => h y (.tail _ hy), List.cons_append]

/-! ### Attaching -/

/-- What a new winlink to a window changes beside the tree. -/
def World.add (σ : World) (w : Window) : World :=
  { σ with
    fresh := σ.fresh + 1
    visited := Function.update σ.visited σ.fresh false
    alerts := Function.update σ.alerts σ.fresh 0
    winlinks := Function.update σ.winlinks w (σ.winlinks w ++ [σ.fresh])
    references := Function.update σ.references w (σ.references w + 1) }

theorem winlinkAdd_eq (σ : World) (windows : List Winlink) (idx : Int) (w : Window) :
    winlinkAdd σ windows idx w = (winlinkIndex windows idx).map
      (Option.map fun i => (σ.add w, rbInsert ⟨σ.fresh, i, w⟩ windows, ⟨σ.fresh, i, w⟩)) := by
  rw [winlinkAdd]
  rcases winlinkIndex windows idx with fault | _ | i <;> rfl

theorem contributed_of_perm {x : Winlink}
    (h : (σ'.sessions s).windows.Perm (x :: (σ.sessions s).windows))
    (w : Window) : σ'.contributed s w = σ.contributed s w + if x.window = w then 1 else 0 := by
  rw [World.contributed, h.countP_eq, List.countP_cons, UInt32.ofNat_add]
  simp only [decide_eq_true_eq]
  split_ifs <;> rfl

theorem references_update (references : Window → UInt32) (w v : Window) (n : UInt32) :
    Function.update references w (references w + n) v = references v + if w = v then n else 0 := by
  rw [Function.update_apply]
  split_ifs with h h' h'
  · rw [h]
  · exact absurd h.symm h'
  · exact absurd h'.symm h
  · rw [add_zero]

theorem add_changes (h : σ.Valid s) {i : Int} (hi : IsIndex i)
    (hnew : ∀ wl ∈ (σ.sessions s).windows, wl.idx ≠ i) (w : Window) :
    let σ' := (σ.add w).modify s fun x =>
      { x with windows := rbInsert ⟨σ.fresh, i, w⟩ (σ.sessions s).windows }
    Changes s σ σ' ∧ σ'.Valid s ∧ (σ.Apart s → σ'.Apart s) := by
  intro σ'
  have hsession : σ'.sessions s = { σ.sessions s with
      windows := rbInsert ⟨σ.fresh, i, w⟩ (σ.sessions s).windows } := Function.update_self _ _ _
  have hperm : (σ'.sessions s).windows.Perm (⟨σ.fresh, i, w⟩ :: (σ.sessions s).windows) := by
    rw [hsession]
    exact rbInsert_perm _ _
  have hptrs : (σ'.sessions s).ptrs.Perm (σ.fresh :: (σ.sessions s).ptrs) := hperm.map _
  have hfresh : σ.fresh ∉ (σ.sessions s).ptrs := fun hmem => absurd (h.fresh _ hmem) (lt_irrefl _)
  refine ⟨⟨fun t ht => Function.update_of_ne ht _ _, fun p hp _ => Function.update_of_ne hp.ne _ _,
    Nat.le_succ _, fun p hp => ?_, rfl, by rw [hsession], fun v => ?_⟩,
    ⟨⟨?_, ?_, ?_, ?_, ?_⟩, ?_⟩, fun hapart => ?_⟩
  · rcases List.mem_cons.mp (hptrs.mem_iff.mp hp) with rfl | hp
    · exact .inr le_rfl
    · exact .inl hp
  · rw [contributed_of_perm hperm]
    change Function.update σ.references w (σ.references w + 1) v - _ = _
    rw [references_update]
    exact add_sub_add_right_eq_sub _ _ _
  · rw [hsession]
    exact rbInsert_sorted h.sorted hnew
  · intro wl hwl
    rcases List.mem_cons.mp (hperm.mem_iff.mp hwl) with rfl | hwl
    · exact hi
    · exact h.range wl hwl
  · exact hptrs.nodup_iff.mpr (List.nodup_cons.mpr ⟨hfresh, h.nodup⟩)
  · intro p hp
    rcases List.mem_cons.mp (hptrs.mem_iff.mp hp) with rfl | hp
    · exact Nat.lt_succ_self _
    · exact (h.fresh p hp).trans (Nat.lt_succ_self _)
  · rw [hsession] at hptrs ⊢
    refine ⟨h.stacked.nodup, fun p hp => hptrs.mem_iff.mpr (.tail _ (h.stacked.mem p hp)),
      fun p hp => ?_⟩
    change Function.update σ.visited σ.fresh false p = true ↔ p ∈ (σ.sessions s).lastw
    rcases List.mem_cons.mp (hptrs.mem_iff.mp hp) with rfl | hp
    · simpa using fun hmem => hfresh (h.stacked.mem _ hmem)
    · rw [Function.update_of_ne (h.fresh p hp).ne]
      exact h.stacked.visited p hp
  · obtain ⟨c, hc, hcurw⟩ := h.current
    exact ⟨c, hptrs.mem_iff.mpr (.tail _ hc), by rw [hsession]; exact hcurw⟩
  · rw [World.Apart, hsession]
    exact hapart

/-! ### Detaching -/

def Session.without (x : Session) (wl : Winlink) : Session :=
  { x with lastw := x.lastw.erase wl.ptr, windows := x.windows.erase wl }

theorem removeWinlink_eq (h : σ.Linked s) {wl : Winlink} (hwl : wl ∈ (σ.sessions s).windows) :
    removeWinlink σ s wl =
      { σ.modify s (Session.without · wl) with
        alerts := Function.update σ.alerts wl.ptr 0
        visited := Function.update σ.visited wl.ptr false
        winlinks := Function.update σ.winlinks wl.window ((σ.winlinks wl.window).erase wl.ptr)
        references := Function.update σ.references wl.window (σ.references wl.window - 1) } := by
  have hlinked : { σ with alerts := Function.update σ.alerts wl.ptr 0 }.Linked s :=
    h.congr rfl le_rfl fun _ _ => rfl
  rw [removeWinlink, winlinkStackRemove_eq hlinked (List.mem_map_of_mem hwl)]
  simp [unlink, World.modify, Session.without]

theorem removeWinlink_changes (h : σ.Valid s) {wl : Winlink} (hwl : wl ∈ (σ.sessions s).windows)
    (hcurw : (σ.sessions s).curw ≠ some wl.ptr) :
    Changes s σ (removeWinlink σ s wl) ∧ (removeWinlink σ s wl).Valid s ∧
      (σ.Apart s → (removeWinlink σ s wl).Apart s) := by
  rw [removeWinlink_eq h.toLinked hwl]
  set σ' : World := { σ.modify s (Session.without · wl) with
    alerts := Function.update σ.alerts wl.ptr 0
    visited := Function.update σ.visited wl.ptr false
    winlinks := Function.update σ.winlinks wl.window ((σ.winlinks wl.window).erase wl.ptr)
    references := Function.update σ.references wl.window (σ.references wl.window - 1) } with hσ'
  have hsession : σ'.sessions s = (σ.sessions s).without wl := Function.update_self _ _ _
  have hperm : (σ.sessions s).windows.Perm (wl :: (σ'.sessions s).windows) := by
    rw [hsession]
    exact List.perm_cons_erase hwl
  have hptrs : (σ.sessions s).ptrs.Perm (wl.ptr :: (σ'.sessions s).ptrs) := hperm.map _
  have hsub : (σ'.sessions s).windows.Sublist (σ.sessions s).windows := by
    rw [hsession]
    exact List.erase_sublist
  obtain ⟨hgone, hnodup⟩ := List.nodup_cons.mp (hptrs.nodup_iff.mp h.nodup)
  have hin : ∀ p ∈ (σ'.sessions s).ptrs, p ∈ (σ.sessions s).ptrs := fun p hp =>
    hptrs.mem_iff.mpr (.tail _ hp)
  have hout : ∀ p ∈ (σ.sessions s).ptrs, p ≠ wl.ptr → p ∈ (σ'.sessions s).ptrs := fun p hp hne =>
    (List.mem_cons.mp (hptrs.mem_iff.mp hp)).resolve_left hne
  refine ⟨⟨fun t ht => Function.update_of_ne ht _ _, fun p _ hp => ?_, le_rfl,
    fun p hp => .inl (hin p hp), rfl, by rw [hsession]; rfl, fun v => ?_⟩,
    ⟨⟨h.sorted.sublist hsub, fun x hx => h.range x (hsub.subset hx), hnodup,
      fun p hp => h.fresh p (hin p hp), ?_⟩, ?_⟩, fun hapart => ?_⟩
  · exact Function.update_of_ne (fun heq : p = wl.ptr => hp (heq ▸ List.mem_map_of_mem hwl)) _ _
  · rw [contributed_of_perm hperm]
    change Function.update σ.references wl.window (σ.references wl.window - 1) v - _ = _
    rw [sub_eq_add_neg (σ.references wl.window), references_update]
    split_ifs
    · rw [← sub_eq_add_neg, sub_sub, add_comm]
    · rw [add_zero, add_zero]
  · have herase := h.stacked.erase wl.ptr
    rw [hsession] at hout hin ⊢
    refine ⟨herase.nodup, fun p hp => ?_, fun p hp => herase.visited p (hin p hp)⟩
    obtain ⟨hne, hp⟩ := h.stacked.nodup.mem_erase_iff.mp hp
    exact hout p (h.stacked.mem p hp) hne
  · obtain ⟨c, hc, hc'⟩ := h.current
    refine ⟨c, hout c hc fun heq => hcurw (heq ▸ hc'), ?_⟩
    rw [hsession]
    exact hc'
  · rw [World.Apart, hsession]
    exact fun p hp => hapart p (List.mem_of_mem_erase hp)

/-- With two windows, the session leaves the winlink before it is removed. -/
theorem leave_remove (h : σ.Valid s) {p : Nat} (hp : p ∈ (σ.sessions s).ptrs)
    (hlength : 2 ≤ (σ.sessions s).windows.length) :
    ∃ σ₁, ∃ wl ∈ (σ.sessions s).windows, wl.ptr = p ∧ leaveRemoved σ s p = .ok σ₁ ∧
      deref (σ₁.sessions s).windows p = .ok wl ∧ Changes s σ (removeWinlink σ₁ s wl) ∧
      (removeWinlink σ₁ s wl).Valid s ∧ (σ.Apart s → (removeWinlink σ₁ s wl).Apart s) ∧
      ((removeWinlink σ₁ s wl).sessions s).windows = (σ.sessions s).windows.erase wl := by
  obtain ⟨σ₁, hleave, hmoved, hcurw⟩ : ∃ σ₁, leaveRemoved σ s p = .ok σ₁ ∧ Moved s σ σ₁ ∧
      (σ₁.sessions s).curw ≠ some p := by
    rw [leaveRemoved]
    split_ifs with hcurw
    · obtain ⟨σ₁, q, hq, hleave, hmoved, hnew⟩ := leaveCurrent_ok h hcurw
      refine ⟨σ₁, hleave, hmoved, fun heq => replacement_ne h hlength (c := p) ?_⟩
      rw [hq, ← hnew, heq]
    · exact ⟨σ, rfl, h.moved, hcurw⟩
  obtain ⟨wl, hwl, rfl, hderef⟩ := deref_of_mem hp
  rw [← hmoved.windows] at hwl hderef
  obtain ⟨hchanges, hvalid, hapart⟩ := removeWinlink_changes hmoved.valid hwl hcurw
  refine ⟨σ₁, wl,
    by rwa [← hmoved.windows], rfl, hleave, hderef, hmoved.toMoves.changes.trans hchanges,
    hvalid, fun h => hapart (hmoved.apart h), ?_⟩
  rw [removeWinlink_eq hmoved.valid.toLinked hwl, ← hmoved.windows]
  exact congrArg Session.windows (modify_sessions_self σ₁ s (Session.without · wl))

end Ztmux.Sessions
