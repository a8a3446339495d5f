import Ztmux.Sessions.Renumber

/-!
Runs of calls on a session that is in no group.

The flags, the stack, the current winlink and the references stay in step along every run of
admissible calls. Renumbering is admissible when no window is on the stack twice and the current
winlink is not the first to a window on the stack: a stack entry is looked up by its window.
-/

namespace Ztmux.Sessions

/-- The session is valid, its current winlink is not on the stack, and each window counts its
winlinks beside a number of references from elsewhere. -/
structure World.Sound (base : Window → UInt32) (σ : World) (s : SessionId) : Prop
    extends σ.Valid s where
  apart : σ.Apart s
  counted : ∀ w, σ.references w = base w + σ.contributed s w

/-- A call gets winlinks of the session and indexes that are `i32`, and a detach leaves a window. -/
def Admissible (σ : World) (s : SessionId) : Call → Prop
  | .attach _ idx => -2 ^ 31 ≤ idx ∧ idx ≤ i32Max
  | .detach p => p ∈ (σ.sessions s).ptrs ∧ 2 ≤ (σ.sessions s).windows.length
  | .setCurrent p => ∀ q, p = some q → q ∈ (σ.sessions s).ptrs
  | .select idx => 0 ≤ idx
  | .renumber => (σ.sessions s).Renumbers ∧ (σ.sessions s).CurrentKept
  | _ => True

variable {σ σ' : World} {s : SessionId} {base : Window → UInt32}

theorem sessionGroupSynchronizeFrom_alone (h : s ∉ σ.group) :
    sessionGroupSynchronizeFrom σ s = .ok σ := if_neg h

theorem Moved.exec_ok {call : Exec (World × Int)} (h : ∃ σ' r, call = .ok (σ', r) ∧ Moved s σ σ') :
    ∃ σ', (do pure (← call).1 : Exec World) = .ok σ' ∧ Changes s σ σ' ∧ σ'.Valid s ∧
      (σ.Apart s → σ'.Apart s) := by
  obtain ⟨σ', r, rfl, hmoved⟩ := h
  exact ⟨σ', rfl, hmoved.toMoves.changes, hmoved.valid, hmoved.apart⟩

theorem attach_ok (hgroup : s ∉ σ.group) (h : σ.Valid s) (w : Window) {idx : Int}
    (h0 : -2 ^ 31 ≤ idx) (hmax : idx ≤ i32Max) :
    ∃ σ', exec σ s (.attach w idx) = .ok σ' ∧ Changes s σ σ' ∧ σ'.Valid s ∧
      (σ.Apart s → σ'.Apart s) := by
  obtain ⟨found, hfound, hfree⟩ := winlinkIndex_ok (σ.sessions s).windows h0 hmax
  rw [exec, sessionAttach, winlinkAdd_eq, hfound]
  cases found with
  | none => exact ⟨σ, rfl, h.moved.toMoves.changes, h, id⟩
  | some i =>
      obtain ⟨hi, hnew⟩ := hfree i rfl
      obtain ⟨hchanges, hvalid, hapart⟩ := add_changes h hi hnew w
      refine ⟨_, ?_, hchanges, hvalid, hapart⟩
      simp only [Except.map, Option.map_some, bind, Except.bind]
      rw [sessionGroupSynchronizeFrom_alone (by rwa [hchanges.group])]
      rfl

theorem detach_ok (hgroup : s ∉ σ.group) (h : σ.Valid s) {p : Nat} (hp : p ∈ (σ.sessions s).ptrs)
    (hlength : 2 ≤ (σ.sessions s).windows.length) :
    ∃ σ', exec σ s (.detach p) = .ok σ' ∧ Changes s σ σ' ∧ σ'.Valid s ∧
      (σ.Apart s → σ'.Apart s) := by
  obtain ⟨σ₁, wl, -, -, hleave, hderef, hchanges, hvalid, hapart, -⟩ := leave_remove h hp hlength
  have hnonempty : ((removeWinlink σ₁ s wl).sessions s).windows.isEmpty = false := by
    obtain ⟨q, hq, -⟩ := hvalid.current
    exact List.isEmpty_eq_false_iff.mpr fun hnil => by simp [Session.ptrs, hnil] at hq
  refine ⟨removeWinlink σ₁ s wl, ?_, hchanges, hvalid, hapart⟩
  rw [exec, serverUnlinkWindow, sessionDetach, hleave]
  simp only [bind, Except.bind, hderef]
  rw [sessionGroupSynchronizeFrom_alone (by rwa [hchanges.group])]
  simp [pure, Except.pure, hnonempty]

theorem exec_ok (hgroup : s ∉ σ.group) (h : σ.Valid s) {call : Call} (hcall : Admissible σ s call) :
    ∃ σ', exec σ s call = .ok σ' ∧ Changes s σ σ' ∧ σ'.Valid s ∧ (σ.Apart s → σ'.Apart s) := by
  cases call with
  | attach w idx => exact attach_ok hgroup h w hcall.1 hcall.2
  | detach p => exact detach_ok hgroup h hcall.1 hcall.2
  | setCurrent p => exact Moved.exec_ok (sessionSetCurrent_moved h hcall)
  | select idx => exact Moved.exec_ok (sessionSelect_moved h hcall)
  | next alert => exact Moved.exec_ok (sessionNext_moved h alert)
  | previous alert => exact Moved.exec_ok (sessionPrevious_moved h alert)
  | last => exact Moved.exec_ok (sessionLast_moved h)
  | renumber =>
      obtain ⟨σ', hret, hchanges, hvalid, -, hapart⟩ := sessionRenumberWindows_ok h hcall.1
      exact ⟨σ', hret, hchanges, hvalid, fun _ => hapart hcall.2⟩

theorem Changes.sound (h : Changes s σ σ') (hσ : σ.Sound base s) (hvalid : σ'.Valid s)
    (hapart : σ.Apart s → σ'.Apart s) : σ'.Sound base s where
  toValid := hvalid
  apart := hapart hσ.apart
  counted w := by
    have hkept := h.references w
    rw [hσ.counted w, add_sub_cancel_right] at hkept
    exact sub_eq_iff_eq_add.mp hkept

/-- One admissible call. -/
def Step (s : SessionId) (σ σ' : World) : Prop :=
  ∃ call, Admissible σ s call ∧ exec σ s call = .ok σ'

theorem step_sound (hgroup : s ∉ σ.group) (h : σ.Sound base s) (hstep : Step s σ σ') :
    s ∉ σ'.group ∧ σ'.Sound base s := by
  obtain ⟨call, hcall, hexec⟩ := hstep
  obtain ⟨σ₁, hexec₁, hchanges, hvalid, hapart⟩ := exec_ok hgroup h.toValid hcall
  obtain rfl : σ' = σ₁ := Except.ok.inj (hexec.symm.trans hexec₁)
  exact ⟨by rwa [hchanges.group], hchanges.sound h hvalid hapart⟩

theorem run_sound (hgroup : s ∉ σ.group) (h : σ.Sound base s)
    (hrun : Relation.ReflTransGen (Step s) σ σ') : s ∉ σ'.group ∧ σ'.Sound base s := by
  induction hrun with
  | refl => exact ⟨hgroup, h⟩
  | tail _ hstep ih => exact step_sound ih.1 ih.2 hstep

/-- Along every run of admissible calls on a session in no group, the current winlink is one of
the session, the stack holds winlinks of the session once each and not the current one, a winlink
has the flag if and only if it is on the stack, and each window counts the winlinks of the session
to it; and the next admissible call returns. -/
theorem session_run (hgroup : s ∉ σ.group) (h : σ.Sound base s)
    (hrun : Relation.ReflTransGen (Step s) σ σ') :
    (∃ p ∈ (σ'.sessions s).ptrs, (σ'.sessions s).curw = some p) ∧
    (σ'.sessions s).lastw.Nodup ∧
    (∀ p ∈ (σ'.sessions s).lastw, p ∈ (σ'.sessions s).ptrs ∧ (σ'.sessions s).curw ≠ some p) ∧
    (∀ p ∈ (σ'.sessions s).ptrs, σ'.visited p = true ↔ p ∈ (σ'.sessions s).lastw) ∧
    (∀ w, σ'.references w = base w +
      UInt32.ofNat ((σ'.sessions s).windows.countP fun wl => wl.window = w)) ∧
    ∀ call, Admissible σ' s call → ∃ σ₁, exec σ' s call = .ok σ₁ := by
  obtain ⟨hgroup', hsound⟩ := run_sound hgroup h hrun
  refine ⟨hsound.current, hsound.stacked.nodup,
    fun p hp => ⟨hsound.stacked.mem p hp, hsound.apart p hp⟩, hsound.stacked.visited,
    hsound.counted, fun call hcall => ?_⟩
  obtain ⟨σ₁, hexec, -⟩ := exec_ok hgroup' hsound.toValid hcall
  exact ⟨σ₁, hexec⟩

/-- A session with one window at two indexes, which has come from the second to the first. -/
def twice : World where
  sessions _ := ⟨[⟨0, 0, 0⟩, ⟨1, 1, 0⟩], [1], some 0, 0⟩
  group := []
  visited p := p = 1
  alerts _ := 0
  winlinks _ := [0, 1]
  references w := if w = 0 then 2 else 0
  fresh := 2

theorem twice_sound : twice.Sound (fun _ => 0) 0 where
  sorted := by decide
  range := by decide
  nodup := by decide
  fresh := by decide
  stacked := ⟨by decide, by decide, by decide⟩
  current := ⟨0, by decide, rfl⟩
  apart := by
    intro p hp
    obtain rfl : p = 1 := List.mem_singleton.mp hp
    decide
  counted w := by
    by_cases hw : w = 0
    · rw [hw]
      decide
    · simp [twice, World.contributed, hw, Ne.symm hw]

/-- Both winlinks become the first, which is the current one. -/
theorem sessionRenumberWindows_twice : twice.Sound (fun _ => 0) 0 ∧
    ∃ σ, exec twice 0 .renumber = .ok σ ∧
      ∃ p ∈ (σ.sessions 0).lastw, (σ.sessions 0).curw = some p :=
  ⟨twice_sound, _, rfl, by decide⟩

/-- Three windows with gaps between their indexes. -/
def gapped : World where
  sessions _ := ⟨[⟨0, 2, 0⟩, ⟨1, 5, 1⟩, ⟨2, 9, 2⟩], [2, 0], some 1, 1⟩
  group := []
  visited p := p = 2 ∨ p = 0
  alerts _ := 0
  winlinks w := [w]
  references w := if w < 3 then 1 else 0
  fresh := 3

theorem gapped_sound : gapped.Sound (fun _ => 0) 0 where
  sorted := by decide
  range := by decide
  nodup := by decide
  fresh := by decide
  stacked := ⟨by decide, by decide, by decide⟩
  current := ⟨1, by decide, rfl⟩
  apart p hp := by
    have hne : ∀ p ∈ [2, 0], some 1 ≠ some p := by decide
    exact hne p hp
  counted w := by
    rcases w with _ | _ | _ | w
    · decide
    · decide
    · decide
    · simp [gapped, World.contributed]

theorem session_run_gapped : ∃ σ₁ σ₂, exec gapped 0 .renumber = .ok σ₁ ∧
    exec σ₁ 0 (.attach 2 4) = .ok σ₂ ∧
      (∃ p ∈ (σ₂.sessions 0).ptrs, (σ₂.sessions 0).curw = some p) ∧
      (σ₂.sessions 0).lastw.Nodup := by
  have hkept : (gapped.sessions 0).CurrentKept := by
    intro w hw wl hwl
    have hvisited : (gapped.sessions 0).visitedWindows = [2, 0] := by decide
    rw [hvisited] at hw
    rcases List.mem_cons.mp hw with rfl | hw
    · obtain rfl : ⟨2, 9, 2⟩ = wl := Option.some.inj hwl
      decide
    · obtain rfl := List.mem_singleton.mp hw
      obtain rfl : ⟨0, 2, 0⟩ = wl := Option.some.inj hwl
      decide
  obtain ⟨σ₁, hrenumber⟩ : ∃ σ₁, exec gapped 0 .renumber = .ok σ₁ := ⟨_, rfl⟩
  have hstep : Step 0 gapped σ₁ :=
    ⟨.renumber, ⟨⟨by decide, by decide, by decide⟩, hkept⟩, hrenumber⟩
  obtain ⟨-, -, -, -, -, hnext⟩ := session_run (by decide) gapped_sound (.single hstep)
  have hcall : Admissible σ₁ 0 (.attach 2 4) := ⟨by decide, by decide⟩
  obtain ⟨σ₂, hattach⟩ := hnext _ hcall
  obtain ⟨hcurrent, hnodup, -⟩ :=
    session_run (by decide) gapped_sound (.tail (.single hstep) ⟨_, hcall, hattach⟩)
  exact ⟨σ₁, σ₂, hrenumber, hattach, hcurrent, hnodup⟩

end Ztmux.Sessions
