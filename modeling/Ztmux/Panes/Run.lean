import Ztmux.Panes.Zoom

/-!
Runs of the operations on the panes of one window, from the window as it is created.

`relayout` is what the layout functions do to a window that is not zoomed: it may give the window
and its panes any cells.
-/

namespace Ztmux.Panes

inductive Op
  | addPane (other : Option Nat) (flags : SpawnFlags)
  | setActivePane (wp : Nat)
  | lostPane (wp : Nat)
  | removePane (wp : Nat)
  | zoom (wp : Nat)
  | unzoom
  | redrawActiveSwitch (wp : Nat)
  | relayout (root : Option Nat) (cell : Memory LayoutCell) (cells : Nat → Option Nat)

def relayout (w : Window) (root : Option Nat) (cell : Memory LayoutCell)
    (cells : Nat → Option Nat) : Window :=
  if w.zoomed then w
  else
    { w with
      layoutRoot := root
      cell := cell
      pane := w.pane.map fun p a => { a with layoutCell := cells p } }

def step (w : Window) : Op → Exec Window
  | .addPane other flags => do pure (← windowAddPane w other flags).1
  | .setActivePane wp => do pure (← windowSetActivePane w wp).1
  | .lostPane wp => windowLostPane w wp
  | .removePane wp => windowRemovePane w wp
  | .zoom wp => do pure (← windowZoom w wp).1
  | .unzoom => do pure (← windowUnzoom w).1
  | .redrawActiveSwitch wp => windowRedrawActiveSwitch w wp
  | .relayout root cell cells => pure (relayout w root cell cells)

def run (w : Window) (ops : List Op) : Exec Window := ops.foldlM step w

/-- The operation makes a pane the active one. -/
def Activates (w : Window) : Op → Prop
  | .setActivePane _ => True
  | .zoom _ => w.zoomed = false ∧ windowCountPanes w ≠ 1
  | .addPane _ _ | .lostPane _ | .removePane _ | .unzoom | .redrawActiveSwitch _
  | .relayout _ _ _ => False

/-- The operation takes from the window its only pane. -/
def Vacates (w : Window) : Op → Prop
  | .lostPane wp | .removePane wp => w.panes = [wp]
  | .addPane _ _ | .setActivePane _ | .zoom _ | .unzoom | .redrawActiveSwitch _
  | .relayout _ _ _ => False

variable {w w' : Window}

/-- What one operation does: it keeps the lists, it lays nothing aside but in a zoom, and it
changes whether there is an active pane only where it gives or takes one. -/
structure Stepped (w : Window) (op : Op) (w' : Window) : Prop where
  kept : Kept w'
  laid : Laid w → Laid w'
  active : w'.active = none ↔ Vacates w op ∨ (w.active = none ∧ ¬ Activates w op)
  away : ∀ w₀ wp, op ≠ .unzoom → Away w₀ wp w → Away w₀ wp w'

/-- An operation that moves no cell. -/
theorem Stepped.of_sameLayout {op : Op} (h : Kept w') (hs : SameLayout w w')
    (hactive : w'.active = none ↔ Vacates w op ∨ (w.active = none ∧ ¬ Activates w op)) :
    Stepped w op w' :=
  ⟨h, fun hlaid => hlaid.sameLayout hs, hactive, fun _ _ _ haway => haway.sameLayout hs⟩

theorem stepped_relayout (h : Kept w) (root : Option Nat) (cell : Memory LayoutCell)
    (cells : Nat → Option Nat) :
    Stepped w (.relayout root cell cells) (relayout w root cell cells) := by
  rw [relayout]
  split_ifs with hzoomed
  · exact .of_sameLayout h (.refl w) (by simp [Vacates, Activates])
  · have hkept : Kept { w with pane := w.pane.map fun p a => { a with layoutCell := cells p } } :=
      h.map fun _ _ => rfl
    refine ⟨{ hkept with }, ?_, by simp [Vacates, Activates], fun _ _ _ haway => ?_⟩
    · intro hlaid hz
      refine ⟨(hlaid hz).1, fun p a' hp => ?_⟩
      obtain ⟨a, ha, rfl⟩ := Option.map_eq_some_iff.mp hp
      exact (hlaid hz).2 p a ha
    · exact absurd haway.zoomed hzoomed

/-- An operation on a pane that is not there does not return. -/
theorem mem_of_stackRemove {wp : Nat} (h : Kept w)
    (hremove : windowPaneStackRemove w (some wp) = .ok w') : wp ∈ w.panes := by
  obtain ⟨a, hderef, -⟩ := bind_eq_ok.mp hremove
  exact h.mem_of_deref hderef

theorem mem_of_lostPane {wp : Nat} (h : Kept w) (hlost : windowLostPane w wp = .ok w') :
    wp ∈ w.panes := by
  obtain ⟨w₁, hremove, -⟩ := bind_eq_ok.mp hlost
  exact mem_of_stackRemove h hremove

theorem step_stepped {op : Op} (h : Kept w) (hstep : step w op = .ok w') : Stepped w op w' := by
  cases op with
  | addPane other flags =>
      obtain ⟨⟨w₁, wp⟩, hadd, hw'⟩ := bind_eq_ok.mp hstep
      obtain rfl := Except.ok.inj hw'
      obtain ⟨hkept, hs, hactive⟩ := windowAddPane_kept h hadd
      exact .of_sameLayout hkept hs (by simp [hactive, Vacates, Activates])
  | setActivePane wp =>
      obtain ⟨⟨w₁, n⟩, hset, hw'⟩ := bind_eq_ok.mp hstep
      obtain rfl := Except.ok.inj hw'
      obtain ⟨a, hderef, -⟩ := bind_eq_ok.mp hset
      obtain ⟨w₂, m, hset', hsw, hactive⟩ := windowSetActivePane_ok h (h.mem_of_deref hderef)
      obtain ⟨rfl, -⟩ := Prod.mk.inj (Except.ok.inj (hset.symm.trans hset'))
      exact .of_sameLayout hsw.kept hsw.layout (by simp [hactive, Vacates, Activates])
  | lostPane wp =>
      obtain ⟨w₁, hlost, hsw, -, -, hactive⟩ := windowLostPane_ok h (mem_of_lostPane h hstep)
      obtain rfl := Except.ok.inj (hstep.symm.trans hlost)
      refine .of_sameLayout hsw.kept hsw.layout ?_
      rw [hactive, or_comm]
      simp [Vacates, Activates]
  | removePane wp =>
      obtain ⟨w₁, hlost, -⟩ := bind_eq_ok.mp hstep
      obtain ⟨w₂, hremove, hkept, hs, -, hactive⟩ := windowRemovePane_ok h (mem_of_lostPane h hlost)
      obtain rfl := Except.ok.inj (hstep.symm.trans hremove)
      refine .of_sameLayout hkept hs ?_
      rw [hactive, or_comm]
      simp [Vacates, Activates]
  | zoom wp =>
      obtain ⟨⟨w₁, n⟩, hzoom, hw'⟩ := bind_eq_ok.mp hstep
      obtain rfl := Except.ok.inj hw'
      obtain ⟨a, hderef, -⟩ := bind_eq_ok.mp hzoom
      rcases windowZoom_ok h (h.mem_of_deref hderef) with
        ⟨m, hzoom', -, hrefused⟩ | ⟨w₂, hzoom', hz, hone, hkept, hactive, haway⟩
      · obtain ⟨rfl, -⟩ := Prod.mk.inj (Except.ok.inj (hzoom.symm.trans hzoom'))
        refine .of_sameLayout h (.refl _) ?_
        rcases hrefused with hz | hone <;> simp [Vacates, Activates, *]
      · obtain ⟨rfl, -⟩ := Prod.mk.inj (Except.ok.inj (hzoom.symm.trans hzoom'))
        refine ⟨hkept, fun _ hz' => ?_, by simp [hactive, Vacates, Activates, hz, hone], ?_⟩
        · rw [haway.zoomed] at hz'
          cases hz'
        · intro w₀ p _ haway₀
          rw [haway₀.zoomed] at hz
          cases hz
  | unzoom =>
      obtain ⟨⟨w₁, n⟩, hunzoom, hw'⟩ := bind_eq_ok.mp hstep
      obtain rfl := Except.ok.inj hw'
      obtain ⟨hkept, hlaid, hactive, -⟩ := windowUnzoom_kept h hunzoom
      exact ⟨hkept, hlaid, by simp [hactive, Vacates, Activates], fun _ _ hne => absurd rfl hne⟩
  | redrawActiveSwitch wp =>
      obtain ⟨hkept, hs, hactive, -⟩ := windowRedrawActiveSwitch_kept h hstep
      exact .of_sameLayout hkept hs (by simp [hactive, Vacates, Activates])
  | relayout root cell cells =>
      obtain rfl := Except.ok.inj hstep
      exact stepped_relayout h root cell cells

theorem run_kept {ops : List Op} (h : Kept w) (hlaid : Laid w) (hrun : run w ops = .ok w') :
    Kept w' ∧ Laid w' := by
  induction ops generalizing w with
  | nil =>
      obtain rfl := Except.ok.inj hrun
      exact ⟨h, hlaid⟩
  | cons op rest ih =>
      obtain ⟨w₁, hstep, hrest⟩ := bind_eq_ok.mp hrun
      have hs := step_stepped h hstep
      exact ih hs.kept (hs.laid hlaid) hrest

theorem run_away {w₀ : Window} {wp : Nat} {ops : List Op} (h : Kept w) (haway : Away w₀ wp w)
    (hops : Op.unzoom ∉ ops) (hrun : run w ops = .ok w') : Kept w' ∧ Away w₀ wp w' := by
  induction ops generalizing w with
  | nil =>
      obtain rfl := Except.ok.inj hrun
      exact ⟨h, haway⟩
  | cons op rest ih =>
      obtain ⟨w₁, hstep, hrest⟩ := bind_eq_ok.mp hrun
      have hs := step_stepped h hstep
      rw [List.mem_cons, not_or] at hops
      exact ih hs.kept (hs.away w₀ wp (Ne.symm hops.1) haway) hops.2 hrest

theorem kept_windowCreate (sx sy : UInt32) : Kept (windowCreate sx sy) where
  panes := List.nodup_nil
  live := by simp [windowCreate]
  active := by simp [windowCreate]
  lastPanes := List.nodup_nil
  visited := by simp [windowCreate]
  last_mem := by simp [windowCreate]
  zIndex := .refl _

theorem laid_windowCreate (sx sy : UInt32) : Laid (windowCreate sx sy) :=
  fun _ => ⟨rfl, by simp [windowCreate]⟩

/-- What holds of the lists of a window in every state it reaches. -/
structure Bookkeeping (w : Window) : Prop where
  active : ∀ p, w.active = some p → p ∈ w.panes
  lastPanes : w.lastPanes.Nodup ∧ ∀ p ∈ w.lastPanes, p ∈ w.panes
  visited : ∀ p ∈ w.panes, ∃ a, w.pane.get p = some a ∧ (a.visited = true ↔ p ∈ w.lastPanes)
  zIndex : w.panes.Nodup ∧ w.zIndex.Perm w.panes
  saved : w.zoomed = false → w.savedLayoutRoot = none ∧
    ∀ p a, w.pane.get p = some a → a.savedLayoutCell = none

theorem Kept.bookkeeping (h : Kept w) (hlaid : Laid w) : Bookkeeping w where
  active := h.active
  lastPanes := ⟨h.lastPanes, h.last_mem⟩
  visited p hp := by
    obtain ⟨a, ha⟩ := h.get_of_mem hp
    exact ⟨a, ha, h.visited p a ha⟩
  zIndex := ⟨h.panes, h.zIndex⟩
  saved := hlaid

/-- In every state a run reaches the lists agree, the active pane comes and goes with the
operations that give and take it, and the end of a zoom gives back what the zoom laid aside. -/
theorem panes_run (sx sy : UInt32) (ops : List Op) (w : Window)
    (hrun : run (windowCreate sx sy) ops = .ok w) :
    Bookkeeping w ∧
    (∀ op w', step w op = .ok w' →
      (w'.active = none ↔ Vacates w op ∨ (w.active = none ∧ ¬ Activates w op))) ∧
    ∀ wp w₁ later w₂, windowZoom w wp = .ok (w₁, 0) → Op.unzoom ∉ later →
      run w₁ later = .ok w₂ → wp ∈ w₂.panes →
      ∃ w₃, windowUnzoom w₂ = .ok (w₃, 0) ∧ w₃.panes = w₂.panes ∧ GivesBack w w₃ := by
  obtain ⟨h, hlaid⟩ := run_kept (kept_windowCreate sx sy) (laid_windowCreate sx sy) hrun
  refine ⟨h.bookkeeping hlaid, fun op w' hstep => (step_stepped h hstep).active, ?_⟩
  intro wp w₁ later w₂ hzoom hlater hrun' hwp
  obtain ⟨a, hderef, -⟩ := bind_eq_ok.mp hzoom
  rcases windowZoom_ok h (h.mem_of_deref hderef) with
    ⟨n, hzoom', hn, -⟩ | ⟨w', hzoom', -, -, hkept, -, haway⟩
  · exact absurd (Prod.mk.inj (Except.ok.inj (hzoom'.symm.trans hzoom))).2 hn
  · obtain ⟨rfl, -⟩ := Prod.mk.inj (Except.ok.inj (hzoom'.symm.trans hzoom))
    obtain ⟨h₂, haway₂⟩ := run_away hkept haway hlater hrun'
    exact windowUnzoom_givesBack h₂ haway₂ hwp

/-- A split in a zoomed window, whose other pane goes away before the zoom ends. -/
theorem panes_run_split :
    ∃ w w₁ w₂ w₃,
      run (windowCreate 80 24) [.addPane none ⟨false, false, false⟩, .setActivePane 0,
        .addPane none ⟨false, false, false⟩] = .ok w ∧
      windowZoom w 1 = .ok (w₁, 0) ∧
      run w₁ [.addPane none ⟨true, false, false⟩, .removePane 0] = .ok w₂ ∧
      windowUnzoom w₂ = .ok (w₃, 0) ∧ w₃.panes = [2, 1] ∧ Bookkeeping w ∧ GivesBack w w₃ := by
  have hrun := panes_run 80 24 [.addPane none ⟨false, false, false⟩, .setActivePane 0,
    .addPane none ⟨false, false, false⟩] _ rfl
  obtain ⟨hbook, -, hzoom⟩ := hrun
  obtain ⟨w₃, hunzoom, hpanes, hback⟩ := hzoom 1 _
    [.addPane none ⟨true, false, false⟩, .removePane 0] _ rfl (by simp) rfl (by decide)
  exact ⟨_, _, _, w₃, rfl, rfl, rfl, hunzoom, hpanes, hbook, hback⟩

/-- The first pane of a window is not active until it is made so, and the end of a zoom reads the
pane it shows, which may be gone. -/
theorem first_pane_inactive :
    (∃ w, run (windowCreate 80 24) [.addPane none ⟨false, false, false⟩] = .ok w ∧
      w.active = none ∧ w.panes = [0]) ∧
    ∃ w, run (windowCreate 80 24) [.addPane none ⟨false, false, false⟩, .setActivePane 0,
        .addPane none ⟨false, false, false⟩, .zoom 1, .removePane 1] = .ok w ∧
      w.zoomed = true ∧ windowUnzoom w = .error .useAfterFree :=
  ⟨⟨_, rfl, rfl, rfl⟩, _, rfl, rfl, rfl⟩

end Ztmux.Panes
