import Ztmux.Panes.Window

/-!
What the operations on panes keep: the lists of a window hold its panes and no other, and the
mark of a visited pane says whether it is on the stack.
-/

namespace Ztmux.Panes

structure Kept (w : Window) : Prop where
  panes : w.panes.Nodup
  live : ∀ p, (w.pane.get p).isSome ↔ p ∈ w.panes
  active : ∀ p, w.active = some p → p ∈ w.panes
  lastPanes : w.lastPanes.Nodup
  visited : ∀ p a, w.pane.get p = some a → (a.visited = true ↔ p ∈ w.lastPanes)
  last_mem : ∀ p ∈ w.lastPanes, p ∈ w.panes
  zIndex : w.zIndex.Perm w.panes

/-- No cell moved: what a step between the two ends of a zoom does to the layout. -/
structure SameLayout (w w' : Window) : Prop where
  zoomed : w'.zoomed = w.zoomed
  layoutRoot : w'.layoutRoot = w.layoutRoot
  savedLayoutRoot : w'.savedLayoutRoot = w.savedLayoutRoot
  cell : w'.cell = w.cell
  next : w.pane.next ≤ w'.pane.next
  pane : ∀ p a', w'.pane.get p = some a' →
    (∃ a, w.pane.get p = some a ∧ a'.layoutCell = a.layoutCell ∧
      a'.savedLayoutCell = a.savedLayoutCell) ∨
    (w.pane.next ≤ p ∧ a'.layoutCell = none ∧ a'.savedLayoutCell = none)

variable {w w' w'' : Window} {wp : Nat}

theorem SameLayout.refl (w : Window) : SameLayout w w where
  zoomed := rfl
  layoutRoot := rfl
  savedLayoutRoot := rfl
  cell := rfl
  next := le_rfl
  pane := fun _ a ha => .inl ⟨a, ha, rfl, rfl⟩

theorem SameLayout.trans (h : SameLayout w w') (h' : SameLayout w' w'') : SameLayout w w'' where
  zoomed := h'.zoomed.trans h.zoomed
  layoutRoot := h'.layoutRoot.trans h.layoutRoot
  savedLayoutRoot := h'.savedLayoutRoot.trans h.savedLayoutRoot
  cell := h'.cell.trans h.cell
  next := h.next.trans h'.next
  pane := by
    intro p a'' hp
    obtain ⟨a', hp', hcell, hsaved⟩ | ⟨hnext, hcell, hsaved⟩ := h'.pane p a'' hp
    · obtain ⟨a, hp, hcell', hsaved'⟩ | ⟨hnext, hcell', hsaved'⟩ := h.pane p a' hp'
      · exact .inl ⟨a, hp, hcell.trans hcell', hsaved.trans hsaved'⟩
      · exact .inr ⟨hnext, hcell.trans hcell', hsaved.trans hsaved'⟩
    · exact .inr ⟨h.next.trans hnext, hcell, hsaved⟩

/-- A pane may change what is not its cell, and the lists play no part in a layout. -/
theorem SameLayout.of_modify {p : Nat} {f : WindowPane → WindowPane}
    (hpane : w'.pane = w.pane.modify p f)
    (hf : ∀ a, (f a).layoutCell = a.layoutCell ∧ (f a).savedLayoutCell = a.savedLayoutCell)
    (hzoomed : w'.zoomed = w.zoomed) (hroot : w'.layoutRoot = w.layoutRoot)
    (hsaved : w'.savedLayoutRoot = w.savedLayoutRoot) (hcell : w'.cell = w.cell) :
    SameLayout w w' where
  zoomed := hzoomed
  layoutRoot := hroot
  savedLayoutRoot := hsaved
  cell := hcell
  next := by rw [hpane, Memory.next_modify]
  pane := by
    rw [hpane]
    apply Memory.modify_forall
    · intro q a hq
      exact .inl ⟨a, hq, rfl, rfl⟩
    · intro a hp
      exact .inl ⟨a, hp, hf a⟩

theorem Kept.mem_of_deref (h : Kept w) {a : WindowPane} (ha : w.pane.deref wp = .ok a) :
    wp ∈ w.panes := by
  rw [← h.live, Memory.deref_eq_ok.mp ha, Option.isSome_some]

theorem Kept.get_of_mem (h : Kept w) (hwp : wp ∈ w.panes) : ∃ a, w.pane.get wp = some a :=
  Option.isSome_iff_exists.mp ((h.live wp).mpr hwp)

/-- A pane may change what is not the mark of a visited pane. -/
theorem Kept.modify (h : Kept w) (p : Nat) {f : WindowPane → WindowPane}
    (hf : ∀ a, (f a).visited = a.visited) : Kept { w with pane := w.pane.modify p f } :=
  { h with
    live := fun q => by rw [Memory.isSome_modify]; exact h.live q
    visited := by
      apply Memory.modify_forall h.visited
      intro a hp
      rw [hf]
      exact h.visited p a hp }

/-! ### The stack of the last active panes -/

/-- The window with `wp` taken off the stack, whether it was there or not. -/
def unstack (w : Window) (wp : Nat) : Window :=
  { w with
    lastPanes := w.lastPanes.erase wp
    pane := w.pane.modify wp fun p => { p with visited := false } }

def stack (w : Window) (wp : Nat) : Window :=
  { w with
    lastPanes := wp :: w.lastPanes
    pane := w.pane.modify wp fun p => { p with visited := true } }

theorem windowPaneStackRemove_eq (h : Kept w) (hwp : wp ∈ w.panes) :
    windowPaneStackRemove w (some wp) = .ok (unstack w wp) := by
  obtain ⟨a, ha⟩ := h.get_of_mem hwp
  have hderef : w.pane.deref wp = .ok a := Memory.deref_eq_ok.mpr ha
  rw [windowPaneStackRemove, hderef, ok_bind]
  cases hvisited : a.visited with
  | true => rfl
  | false =>
      -- it is not on the stack, so nothing has to be taken off
      have hnot : wp ∉ w.lastPanes := by
        intro hmem
        rw [(h.visited wp a ha).mpr hmem] at hvisited
        cases hvisited
      have hpane : w.pane.modify wp (fun p => { p with visited := false }) = w.pane := by
        apply Memory.ext
        · intro q
          rw [Memory.get_modify]
          split_ifs with hq
          · rw [hq, ha, Option.map_some, ← hvisited]
          · rfl
        · rfl
      rw [unstack, List.erase_of_not_mem hnot, hpane]
      rfl

theorem Kept.unstack (h : Kept w) (wp : Nat) : Kept (unstack w wp) :=
  { h with
    live := fun q => by
      rw [Panes.unstack, Memory.isSome_modify]
      exact h.live q
    lastPanes := h.lastPanes.erase wp
    visited := by
      intro q a hq
      rw [Panes.unstack, Memory.get_modify] at hq
      rw [Panes.unstack, h.lastPanes.mem_erase_iff]
      split_ifs at hq with hqwp
      · obtain ⟨b, -, rfl⟩ := Option.map_eq_some_iff.mp hq
        simp [hqwp]
      · rw [h.visited q a hq]
        simp [hqwp]
    last_mem := fun q hq => h.last_mem q (List.mem_of_mem_erase hq) }

theorem Kept.stack (h : Kept w) (hwp : wp ∈ w.panes) (hnot : wp ∉ w.lastPanes) :
    Kept (stack w wp) :=
  { h with
    live := fun q => by
      rw [Panes.stack, Memory.isSome_modify]
      exact h.live q
    lastPanes := List.nodup_cons.mpr ⟨hnot, h.lastPanes⟩
    visited := by
      intro q a hq
      rw [Panes.stack, Memory.get_modify] at hq
      rw [Panes.stack, List.mem_cons]
      split_ifs at hq with hqwp
      · obtain ⟨b, -, rfl⟩ := Option.map_eq_some_iff.mp hq
        simp [hqwp]
      · rw [h.visited q a hq]
        simp [hqwp]
    last_mem := by
      intro q hq
      rcases List.mem_cons.mp hq with rfl | hq
      · exact hwp
      · exact h.last_mem q hq }

theorem sameLayout_unstack (w : Window) (wp : Nat) : SameLayout w (unstack w wp) :=
  .of_modify rfl (fun _ => ⟨rfl, rfl⟩) rfl rfl rfl rfl

theorem sameLayout_stack (w : Window) (wp : Nat) : SameLayout w (stack w wp) :=
  .of_modify rfl (fun _ => ⟨rfl, rfl⟩) rfl rfl rfl rfl

theorem not_mem_unstack (h : Kept w) : wp ∉ (unstack w wp).lastPanes := by
  rw [unstack, h.lastPanes.mem_erase_iff]
  simp

/-! ### The active pane -/

/-- What a change of the active pane leaves as it was. -/
structure Switched (w w' : Window) : Prop where
  kept : Kept w'
  layout : SameLayout w w'
  panes : w'.panes = w.panes
  zIndex : w'.zIndex = w.zIndex

theorem Switched.refl (h : Kept w) : Switched w w := ⟨h, .refl w, rfl, rfl⟩

theorem Switched.trans (h : Switched w w') (h' : Switched w' w'') : Switched w w'' :=
  ⟨h'.kept, h.layout.trans h'.layout, h'.panes.trans h.panes, h'.zIndex.trans h.zIndex⟩

theorem switched_unstack (h : Kept w) (wp : Nat) : Switched w (unstack w wp) :=
  ⟨h.unstack wp, sameLayout_unstack w wp, rfl, rfl⟩

theorem windowPaneStackPush_ok (h : Kept w) (o : Option Nat) (ho : ∀ p, o = some p → p ∈ w.panes) :
    ∃ w', windowPaneStackPush w o = .ok w' ∧ Switched w w' ∧ w'.active = w.active := by
  cases o with
  | none => exact ⟨w, rfl, .refl h, rfl⟩
  | some p =>
      have hp := ho p rfl
      refine ⟨stack (unstack w p) p, ?_, ?_, rfl⟩
      · rw [windowPaneStackPush, windowPaneStackRemove_eq h hp]
        rfl
      · refine (switched_unstack h p).trans ⟨(h.unstack p).stack hp (not_mem_unstack h), ?_, rfl,
          rfl⟩
        exact sameLayout_stack _ p

theorem switched_makeActive (h : Kept w) (hwp : wp ∈ w.panes) : Switched w (makeActive w wp) where
  kept :=
    { h.modify wp (f := fun p => { p with activePoint := w.nextActivePoint, changed := true })
        fun _ => rfl with
      active := fun p hp => by
        obtain rfl : wp = p := Option.some.inj hp
        exact hwp }
  layout := .of_modify rfl (fun _ => ⟨rfl, rfl⟩) rfl rfl rfl rfl
  panes := rfl
  zIndex := rfl

theorem windowSetActivePane_ok (h : Kept w) (hwp : wp ∈ w.panes) :
    ∃ w' n, windowSetActivePane w wp = .ok (w', n) ∧ Switched w w' ∧ w'.active = some wp := by
  obtain ⟨a, ha⟩ := h.get_of_mem hwp
  rw [windowSetActivePane, Memory.deref_eq_ok.mpr ha, ok_bind]
  by_cases hactive : some wp = w.active
  · rw [if_pos hactive]
    exact ⟨w, 0, rfl, .refl h, hactive.symm⟩
  · rw [if_neg hactive, windowPaneStackRemove_eq h hwp, ok_bind]
    have hun := switched_unstack h wp
    obtain ⟨w₁, hpush, hsw, -⟩ := windowPaneStackPush_ok hun.kept w.active h.active
    have hwp₁ : wp ∈ w₁.panes := by rw [hsw.panes]; exact hwp
    rw [hpush, ok_bind]
    exact ⟨makeActive w₁ wp, 1, rfl, (hun.trans hsw).trans (switched_makeActive hsw.kept hwp₁), rfl⟩

/-! ### A pane that is lost -/

theorem tailqPrev_mem {l : List Nat} {p : Nat} (h : tailqPrev wp l = some p) : p ∈ l := by
  induction l using tailqPrev.induct wp with
  | case1 => cases h
  | case2 q => cases h
  | case3 q rest =>
      rw [tailqPrev, if_pos rfl] at h
      rw [← Option.some.inj h]
      exact List.mem_cons_self
  | case4 q r rest hne ih =>
      rw [tailqPrev, if_neg hne] at h
      exact List.mem_cons_of_mem _ (ih h)

theorem tailqNext_mem {l : List Nat} {p : Nat} (h : tailqNext wp l = some p) : p ∈ l := by
  induction l with
  | nil => cases h
  | cons q rest ih =>
      rw [tailqNext] at h
      split_ifs at h
      · exact List.mem_cons_of_mem _ (List.mem_of_mem_head? h)
      · exact List.mem_cons_of_mem _ (ih h)

theorem no_neighbour {l : List Nat} (hmem : wp ∈ l) (hprev : tailqPrev wp l = none)
    (hnext : tailqNext wp l = none) : l = [wp] := by
  cases l with
  | nil => cases hmem
  | cons q rest =>
      by_cases hq : q = wp
      · rw [tailqNext, if_pos hq] at hnext
        rw [List.head?_eq_none_iff.mp hnext, hq]
      · have hrest : wp ∈ rest := (List.mem_cons.mp hmem).resolve_left (Ne.symm hq)
        clear hmem hnext
        -- it is further down, so something is before it
        induction rest generalizing q with
        | nil => cases hrest
        | cons r rest ih =>
            rw [tailqPrev] at hprev
            split_ifs at hprev with hr
            have heq := ih r hprev hr ((List.mem_cons.mp hrest).resolve_left (Ne.symm hr))
            exact absurd (List.cons.inj heq).1 hr

theorem neighbour_singleton (wp : Nat) : tailqPrev wp [wp] = none ∧ tailqNext wp [wp] = none := by
  simp [tailqPrev, tailqNext]

theorem prev_ne_self {l : List Nat} (h : l.Nodup) : tailqPrev wp l ≠ some wp := by
  induction l using tailqPrev.induct wp with
  | case1 => simp [tailqPrev]
  | case2 q => simp [tailqPrev]
  | case3 q rest =>
      rw [tailqPrev, if_pos rfl]
      intro hq
      exact (List.nodup_cons.mp h).1 (Option.some.inj hq ▸ List.mem_cons_self)
  | case4 q r rest hne ih =>
      rw [tailqPrev, if_neg hne]
      exact ih (List.nodup_cons.mp h).2

theorem next_ne_self {l : List Nat} (h : l.Nodup) : tailqNext wp l ≠ some wp := by
  induction l with
  | nil => simp [tailqNext]
  | cons q rest ih =>
      rw [tailqNext]
      split_ifs with hq
      · intro hhead
        exact (List.nodup_cons.mp h).1 (hq ▸ List.mem_of_mem_head? hhead)
      · exact ih (List.nodup_cons.mp h).2

theorem successor_mem (h : Kept w) {p : Nat} (hp : successor w wp = some p) : p ∈ w.panes := by
  rw [successor, Option.or_eq_some_iff, Option.or_eq_some_iff] at hp
  obtain (hhead | ⟨-, hprev⟩) | ⟨-, hnext⟩ := hp
  · exact h.last_mem p (List.mem_of_mem_head? hhead)
  · exact tailqPrev_mem hprev
  · exact tailqNext_mem hnext

theorem successor_ne (h : Kept w) (hnot : wp ∉ w.lastPanes) : successor w wp ≠ some wp := by
  intro hp
  rw [successor, Option.or_eq_some_iff, Option.or_eq_some_iff] at hp
  obtain (hhead | ⟨-, hprev⟩) | ⟨-, hnext⟩ := hp
  · exact hnot (List.mem_of_mem_head? hhead)
  · exact prev_ne_self h.panes hprev
  · exact next_ne_self h.panes hnext

theorem successor_eq_none (h : Kept w) (hwp : wp ∈ w.panes) (hnot : wp ∉ w.lastPanes) :
    successor w wp = none ↔ w.panes = [wp] := by
  rw [successor, Option.or_eq_none_iff, Option.or_eq_none_iff]
  constructor
  · rintro ⟨⟨-, hprev⟩, hnext⟩
    exact no_neighbour hwp hprev hnext
  · intro hone
    have hlast : w.lastPanes = [] := by
      apply List.eq_nil_iff_forall_not_mem.mpr
      intro q hq
      have hqp := h.last_mem q hq
      rw [hone, List.mem_singleton] at hqp
      exact hnot (hqp ▸ hq)
    rw [hlast, hone]
    exact ⟨⟨rfl, (neighbour_singleton wp).1⟩, (neighbour_singleton wp).2⟩

theorem switched_active (h : Kept w) (o : Option Nat) (ho : ∀ p, o = some p → p ∈ w.panes) :
    Switched w { w with active := o } :=
  ⟨{ h with active := ho }, ⟨rfl, rfl, rfl, rfl, le_rfl, fun _ a ha => .inl ⟨a, ha, rfl, rfl⟩⟩,
    rfl, rfl⟩

theorem settleActive_ok (h : Kept w) (o : Option Nat) (ho : ∀ p, o = some p → p ∈ w.panes) :
    ∃ w', settleActive w o = .ok w' ∧ Switched w w' ∧ w'.active = w.active ∧
      ∀ p ∈ w'.lastPanes, p ∈ w.lastPanes := by
  cases o with
  | none => exact ⟨w, rfl, .refl h, rfl, fun _ hp => hp⟩
  | some p =>
      have hun := switched_unstack h p
      refine ⟨paneChanged (unstack w p) p, ?_, hun.trans ?_, rfl, ?_⟩
      · rw [settleActive, windowPaneStackRemove_eq h (ho p rfl)]
        rfl
      · exact ⟨hun.kept.modify p fun _ => rfl, .of_modify rfl (fun _ => ⟨rfl, rfl⟩) rfl rfl rfl rfl,
          rfl, rfl⟩
      · exact fun q hq => List.mem_of_mem_erase hq

theorem replaceActive_ok (h : Kept w) (wp : Nat) :
    ∃ w', replaceActive w wp = .ok w' ∧ Switched w w' ∧ w'.active = successor w wp ∧
      ∀ p ∈ w'.lastPanes, p ∈ w.lastPanes := by
  have hmem : ∀ p, successor w wp = some p → p ∈ w.panes := fun p => successor_mem h
  have hactive := switched_active h (successor w wp) hmem
  obtain ⟨w', hw', hsw, hsame, hlast⟩ := settleActive_ok hactive.kept (successor w wp) hmem
  exact ⟨w', hw', hactive.trans hsw, hsame, hlast⟩

/-- A lost pane is neither active nor on the stack, and the window has no active pane when it
had none, or when the lost pane is its only one. -/
theorem windowLostPane_ok (h : Kept w) (hwp : wp ∈ w.panes) :
    ∃ w', windowLostPane w wp = .ok w' ∧ Switched w w' ∧ wp ∉ w'.lastPanes ∧
      w'.active ≠ some wp ∧ (w'.active = none ↔ w.active = none ∨ w.panes = [wp]) := by
  have hun := switched_unstack h wp
  have hnot : wp ∉ (unstack w wp).lastPanes := not_mem_unstack h
  rw [windowLostPane, windowPaneStackRemove_eq h hwp, ok_bind]
  by_cases hactive : some wp = w.active
  · rw [if_pos (show some wp = (unstack w wp).active from hactive)]
    obtain ⟨w', hw', hsw, hsucc, hlast⟩ := replaceActive_ok hun.kept wp
    refine ⟨w', hw', hun.trans hsw, fun hmem => hnot (hlast _ hmem), ?_, ?_⟩
    · rw [hsucc]
      exact successor_ne hun.kept hnot
    · rw [hsucc, successor_eq_none hun.kept (show wp ∈ (unstack w wp).panes from hwp) hnot,
        ← hactive]
      simp [unstack]
  · rw [if_neg (show ¬ some wp = (unstack w wp).active from hactive)]
    refine ⟨unstack w wp, rfl, hun, hnot, fun hwp => hactive hwp.symm, ?_⟩
    constructor
    · exact fun hnone => .inl hnone
    · rintro (hnone | hone)
      · exact hnone
      · -- the active pane would be another one
        by_contra hsome
        obtain ⟨p, hp⟩ := Option.ne_none_iff_exists'.mp hsome
        have hmem := h.active p hp
        rw [hone, List.mem_singleton] at hmem
        exact hactive (hmem ▸ hp.symm)

end Ztmux.Panes
