import Ztmux.Panes.Kept

/-!
Adding and removing panes, and the layout between the two ends of a zoom.
-/

namespace Ztmux.Panes

variable {w w' w'' : Window} {wp : Nat}

theorem tailqInsertBefore_perm {other : Nat} {l : List Nat} (h : other ∈ l) :
    (tailqInsertBefore other wp l).Perm (wp :: l) := by
  induction l with
  | nil => cases h
  | cons p rest ih =>
      rw [tailqInsertBefore]
      split_ifs with hp
      · exact .refl _
      · have hrest := (List.mem_cons.mp h).resolve_left (Ne.symm hp)
        exact ((ih hrest).cons p).trans (.swap wp p rest)

theorem tailqInsertAfter_perm {other : Nat} {l : List Nat} (h : other ∈ l) :
    (tailqInsertAfter other wp l).Perm (wp :: l) := by
  induction l with
  | nil => cases h
  | cons p rest ih =>
      rw [tailqInsertAfter]
      split_ifs with hp
      · exact .swap wp p rest
      · have hrest := (List.mem_cons.mp h).resolve_left (Ne.symm hp)
        exact ((ih hrest).cons p).trans (.swap wp p rest)

theorem insertPane_perm (h : Kept w) {other : Option Nat} {flags : SpawnFlags} {panes : List Nat}
    (hinsert : insertPane w other flags wp = .ok panes) : panes.Perm (wp :: w.panes) := by
  rw [insertPane] at hinsert
  split_ifs at hinsert with hnil hbefore hfull hend
  · rw [hnil]
    exact .of_eq (Except.ok.inj hinsert).symm
  · exact .of_eq (Except.ok.inj hinsert).symm
  · simp only [bind_eq_ok] at hinsert
    obtain ⟨other, -, a, hderef, hpanes⟩ := hinsert
    rw [← Except.ok.inj hpanes]
    exact tailqInsertBefore_perm (h.mem_of_deref hderef)
  · rw [← Except.ok.inj hinsert]
    exact List.perm_append_singleton wp w.panes
  · simp only [bind_eq_ok] at hinsert
    obtain ⟨other, -, a, hderef, hpanes⟩ := hinsert
    rw [← Except.ok.inj hpanes]
    exact tailqInsertAfter_perm (h.mem_of_deref hderef)

theorem Kept.next_not_mem (h : Kept w) : w.pane.next ∉ w.panes := by
  rw [← h.live, w.pane.fresh _ le_rfl]
  simp

theorem windowAddPane_kept (h : Kept w) {other : Option Nat} {flags : SpawnFlags}
    (hadd : windowAddPane w other flags = .ok (w', wp)) :
    Kept w' ∧ SameLayout w w' ∧ w'.active = w.active := by
  rw [windowAddPane] at hadd
  obtain ⟨panes, hinsert, hw'⟩ := bind_eq_ok.mp hadd
  obtain ⟨rfl, rfl⟩ := Prod.mk.inj (Except.ok.inj hw')
  have hperm := insertPane_perm h hinsert
  have hnew := h.next_not_mem
  refine ⟨?_, ?_, rfl⟩
  · constructor
    · exact hperm.nodup_iff.mpr (List.nodup_cons.mpr ⟨hnew, h.panes⟩)
    · intro p
      dsimp only
      rw [hperm.mem_iff, List.mem_cons, Memory.get_alloc, ← h.live]
      split_ifs with hp <;> simp [hp]
    · intro p hp
      exact hperm.mem_iff.mpr (List.mem_cons_of_mem _ (h.active p hp))
    · exact h.lastPanes
    · intro p a hp
      dsimp only at hp
      rw [Memory.get_alloc] at hp
      split_ifs at hp with heq
      · rw [← Option.some.inj hp, heq]
        have hnot : w.pane.next ∉ w.lastPanes := fun hmem => hnew (h.last_mem _ hmem)
        simp [windowPaneCreate, hnot]
      · exact h.visited p a hp
    · intro p hp
      exact hperm.mem_iff.mpr (List.mem_cons_of_mem _ (h.last_mem p hp))
    · refine List.Perm.trans ?_ hperm.symm
      dsimp only
      split_ifs
      · exact h.zIndex.cons _
      · exact (List.perm_append_singleton _ _).trans (h.zIndex.cons _)
  · refine ⟨rfl, rfl, rfl, rfl, ?_, ?_⟩
    · exact Nat.le_succ _
    · intro p a hp
      dsimp only at hp
      rw [Memory.get_alloc] at hp
      split_ifs at hp with heq
      · rw [← Option.some.inj hp, heq]
        exact .inr ⟨le_rfl, rfl, rfl⟩
      · exact .inl ⟨a, hp, rfl, rfl⟩

theorem windowRemovePane_ok (h : Kept w) (hwp : wp ∈ w.panes) :
    ∃ w', windowRemovePane w wp = .ok w' ∧ Kept w' ∧ SameLayout w w' ∧ wp ∉ w'.panes ∧
      (w'.active = none ↔ w.active = none ∨ w.panes = [wp]) := by
  obtain ⟨w₁, hlost, hsw, hnot, hne, hactive⟩ := windowLostPane_ok h hwp
  have h₁ := hsw.kept
  rw [windowRemovePane, hlost, ok_bind]
  refine ⟨_, rfl, ?_, ?_, ?_, hactive⟩
  · constructor
    · exact h₁.panes.erase wp
    · intro p
      dsimp only
      rw [h₁.panes.mem_erase_iff, ← h₁.live]
      by_cases hp : p = wp
      · simp [hp]
      · simp [hp, Memory.get_free_of_ne hp]
    · intro p hp
      have hmem := h₁.active p hp
      dsimp only
      rw [h₁.panes.mem_erase_iff]
      exact ⟨fun heq => hne (heq ▸ hp), hmem⟩
    · exact h₁.lastPanes
    · intro p a hp
      dsimp only at hp
      by_cases heq : p = wp
      · rw [heq, Memory.get_free_self] at hp
        cases hp
      · rw [Memory.get_free_of_ne heq] at hp
        exact h₁.visited p a hp
    · intro p hp
      dsimp only
      rw [h₁.panes.mem_erase_iff]
      exact ⟨fun heq => hnot (heq ▸ hp), h₁.last_mem p hp⟩
    · exact h₁.zIndex.erase wp
  · refine hsw.layout.trans ⟨rfl, rfl, rfl, rfl, le_rfl, ?_⟩
    intro p a hp
    dsimp only at hp
    by_cases heq : p = wp
    · rw [heq, Memory.get_free_self] at hp
      cases hp
    · rw [Memory.get_free_of_ne heq] at hp
      exact .inl ⟨a, hp, rfl, rfl⟩
  · dsimp only
    rw [h₁.panes.mem_erase_iff]
    simp

theorem windowRedrawActiveSwitch_kept (h : Kept w)
    (hredraw : windowRedrawActiveSwitch w wp = .ok w') :
    Kept w' ∧ SameLayout w w' ∧ w'.active = w.active ∧ w'.panes = w.panes := by
  rw [windowRedrawActiveSwitch] at hredraw
  split_ifs at hredraw with hactive
  · obtain rfl := Except.ok.inj hredraw
    exact ⟨h, .refl _, rfl, rfl⟩
  · obtain ⟨floating, hfloat, hw'⟩ := bind_eq_ok.mp hredraw
    obtain ⟨a, hderef, -⟩ := bind_eq_ok.mp hfloat
    have hmem := h.zIndex.mem_iff.mpr (h.mem_of_deref hderef)
    split_ifs at hw' with hf
    · obtain rfl := Except.ok.inj hw'
      refine ⟨{ h with zIndex := ?_ }, ?_, rfl, rfl⟩
      · exact (List.perm_cons_erase hmem).symm.trans h.zIndex
      · exact ⟨rfl, rfl, rfl, rfl, le_rfl, fun _ a ha => .inl ⟨a, ha, rfl, rfl⟩⟩
    · obtain rfl := Except.ok.inj hw'
      exact ⟨h, .refl _, rfl, rfl⟩

/-! ### Cells -/

/-- Panes keep all but their cells, and the lists stay. -/
structure Relaid (w w' : Window) : Prop where
  panes : w'.panes = w.panes
  zIndex : w'.zIndex = w.zIndex
  lastPanes : w'.lastPanes = w.lastPanes
  active : w'.active = w.active
  next : w'.pane.next = w.pane.next
  pane : ∀ p, (w'.pane.get p).map (fun a => (a.visited, a.savedLayoutCell)) =
    (w.pane.get p).map (fun a => (a.visited, a.savedLayoutCell))

theorem Relaid.refl (w : Window) : Relaid w w := ⟨rfl, rfl, rfl, rfl, rfl, fun _ => rfl⟩

theorem Relaid.trans (h : Relaid w w') (h' : Relaid w' w'') : Relaid w w'' where
  panes := h'.panes.trans h.panes
  zIndex := h'.zIndex.trans h.zIndex
  lastPanes := h'.lastPanes.trans h.lastPanes
  active := h'.active.trans h.active
  next := h'.next.trans h.next
  pane p := (h'.pane p).trans (h.pane p)

theorem Relaid.get (h : Relaid w w') {p : Nat} {a' : WindowPane} (hp : w'.pane.get p = some a') :
    ∃ a, w.pane.get p = some a ∧ a'.visited = a.visited ∧
      a'.savedLayoutCell = a.savedLayoutCell := by
  have hmap := (h.pane p).symm
  rw [hp, Option.map_some, Option.map_eq_some_iff] at hmap
  obtain ⟨a, ha, heq⟩ := hmap
  obtain ⟨hvisited, hsaved⟩ := Prod.mk.inj heq
  exact ⟨a, ha, hvisited.symm, hsaved.symm⟩

theorem Kept.relaid (h : Kept w) (hre : Relaid w w') : Kept w' where
  panes := by rw [hre.panes]; exact h.panes
  live p := by
    have hsome := congrArg Option.isSome (hre.pane p)
    rw [Option.isSome_map, Option.isSome_map] at hsome
    rw [hsome, hre.panes, h.live]
  active := by rw [hre.active, hre.panes]; exact h.active
  lastPanes := by rw [hre.lastPanes]; exact h.lastPanes
  visited p a' hp := by
    obtain ⟨a, ha, hvisited, -⟩ := hre.get hp
    rw [hvisited, hre.lastPanes]
    exact h.visited p a ha
  last_mem := by rw [hre.lastPanes, hre.panes]; exact h.last_mem
  zIndex := by rw [hre.zIndex, hre.panes]; exact h.zIndex

theorem unlinkPane_relaid {o : Option Nat} (hunlink : unlinkPane w o = .ok w') : Relaid w w' := by
  cases o with
  | none =>
      obtain rfl := Except.ok.inj hunlink
      exact .refl _
  | some p =>
      simp only [unlinkPane, bind_eq_ok] at hunlink
      obtain ⟨a, -, lc, -, c, -, hw'⟩ := hunlink
      obtain rfl := Except.ok.inj hw'
      refine ⟨rfl, rfl, rfl, rfl, rfl, fun q => ?_⟩
      dsimp only
      rw [Memory.get_modify]
      split_ifs with hq
      · rw [hq, Option.map_map]
        rfl
      · rfl

theorem foldlM_relaid {free : Window → Nat → Exec Window} {children : List Nat}
    (hfree : ∀ w w' lc, free w lc = .ok w' → Relaid w w')
    (hfold : children.foldlM free w = .ok w') : Relaid w w' := by
  induction children generalizing w with
  | nil =>
      obtain rfl := Except.ok.inj hfold
      exact .refl _
  | cons child rest ih =>
      obtain ⟨w₁, hchild, hrest⟩ := bind_eq_ok.mp hfold
      exact (hfree _ _ _ hchild).trans (ih hrest)

theorem layoutFreeCell_relaid (fuel : Nat) (w w' : Window) (lc : Nat)
    (hfree : layoutFreeCell fuel w lc = .ok w') : Relaid w w' := by
  induction fuel generalizing w w' lc with
  | zero => cases hfree
  | succ fuel ih =>
      rw [layoutFreeCell] at hfree
      obtain ⟨c, -, hfree⟩ := bind_eq_ok.mp hfree
      obtain ⟨w₁, hinner, hw'⟩ := bind_eq_ok.mp hfree
      have hre : Relaid w w₁ := by
        rw [freeContents] at hinner
        split_ifs at hinner
        · exact unlinkPane_relaid hinner
        · exact foldlM_relaid ih hinner
      obtain rfl := Except.ok.inj hw'
      exact hre.trans ⟨rfl, rfl, rfl, rfl, rfl, fun _ => rfl⟩

theorem layoutFree_relaid (hfree : layoutFree w = .ok w') : Relaid w w' := by
  rw [layoutFree] at hfree
  split at hfree
  · obtain rfl := Except.ok.inj hfree
    exact .refl _
  · exact layoutFreeCell_relaid _ _ _ _ hfree

/-! ### The two ends of a zoom -/

/-- Nothing is laid aside in a window that is not zoomed. -/
def Laid (w : Window) : Prop :=
  w.zoomed = false → w.savedLayoutRoot = none ∧
    ∀ p a, w.pane.get p = some a → a.savedLayoutCell = none

/-- The window `w` shows the one pane `wp`, and has laid the layout of `w₀` aside. -/
structure Away (w₀ : Window) (wp : Nat) (w : Window) : Prop where
  zoomed : w.zoomed = true
  layoutRoot : w.layoutRoot = some w₀.cell.next
  rootCell : ∃ c, w.cell.get w₀.cell.next = some c ∧ c.type = .windowPane ∧ c.wp = some wp
  savedLayoutRoot : w.savedLayoutRoot = w₀.layoutRoot
  cell : ∀ c, c ≠ w₀.cell.next → w.cell.get c = w₀.cell.get c
  next : w₀.pane.next ≤ w.pane.next
  shown : ∀ a, w.pane.get wp = some a → a.layoutCell = some w₀.cell.next
  shown_old : wp < w₀.pane.next
  saved : ∀ p a, w.pane.get p = some a →
    a.savedLayoutCell = (w₀.pane.get p).bind WindowPane.layoutCell

theorem Laid.sameLayout (h : Laid w) (hs : SameLayout w w') : Laid w' := by
  intro hzoomed
  obtain ⟨hroot, hsaved⟩ := h (hs.zoomed ▸ hzoomed)
  refine ⟨hs.savedLayoutRoot.trans hroot, fun p a' hp => ?_⟩
  obtain ⟨a, ha, -, heq⟩ | ⟨-, -, hnone⟩ := hs.pane p a' hp
  · exact heq.trans (hsaved p a ha)
  · exact hnone

theorem Away.sameLayout {w₀ : Window} (h : Away w₀ wp w) (hs : SameLayout w w') :
    Away w₀ wp w' where
  zoomed := hs.zoomed.trans h.zoomed
  layoutRoot := hs.layoutRoot.trans h.layoutRoot
  rootCell := by rw [hs.cell]; exact h.rootCell
  savedLayoutRoot := hs.savedLayoutRoot.trans h.savedLayoutRoot
  cell := by rw [hs.cell]; exact h.cell
  next := h.next.trans hs.next
  shown := by
    intro a' hp
    obtain ⟨a, ha, heq, -⟩ | ⟨hnext, -, -⟩ := hs.pane wp a' hp
    · exact heq.trans (h.shown a ha)
    · have := h.shown_old
      have := h.next
      omega
  shown_old := h.shown_old
  saved := by
    intro p a' hp
    obtain ⟨a, ha, -, heq⟩ | ⟨hnext, -, hnone⟩ := hs.pane p a' hp
    · exact heq.trans (h.saved p a ha)
    · rw [hnone, w₀.pane.fresh p (h.next.trans hnext), Option.bind_none]

theorem Kept.map (h : Kept w) {f : Nat → WindowPane → WindowPane}
    (hf : ∀ p a, (f p a).visited = a.visited) : Kept { w with pane := w.pane.map f } :=
  { h with
    live := fun p => by rw [Memory.get_map, Option.isSome_map]; exact h.live p
    visited := by
      intro p a' hp
      rw [Memory.get_map, Option.map_eq_some_iff] at hp
      obtain ⟨a, ha, rfl⟩ := hp
      rw [hf]
      exact h.visited p a ha }

theorem layoutInit_relaid (w : Window) (wp : Nat) : Relaid w (layoutInit w wp) := by
  refine ⟨rfl, rfl, rfl, rfl, rfl, fun p => ?_⟩
  rw [layoutInit, Memory.get_modify]
  split_ifs with hp
  · rw [hp, Option.map_map]
    rfl
  · rfl

theorem layoutInit_get {p : Nat} {a' : WindowPane} (hp : (layoutInit w wp).pane.get p = some a') :
    ∃ a, w.pane.get p = some a ∧ a'.savedLayoutCell = a.savedLayoutCell ∧
      a'.layoutCell = if p = wp then some w.cell.next else a.layoutCell := by
  rw [layoutInit, Memory.get_modify] at hp
  split_ifs at hp with heq
  · obtain ⟨a, ha, rfl⟩ := Option.map_eq_some_iff.mp hp
    exact ⟨a, heq ▸ ha, rfl, by rw [if_pos heq]⟩
  · exact ⟨a', hp, rfl, by rw [if_neg heq]⟩

theorem layAside_kept (h : Kept w) : Kept (layAside w) := by
  have hmap : Kept { w with pane := saveCells w } := h.map fun p a => by split_ifs <;> rfl
  exact hmap.relaid ⟨rfl, rfl, rfl, rfl, rfl, fun _ => rfl⟩

theorem layAside_get (h : Kept w) {p : Nat} {a' : WindowPane}
    (hp : (layAside w).pane.get p = some a') :
    ∃ a, w.pane.get p = some a ∧ a'.savedLayoutCell = a.layoutCell ∧ a'.layoutCell = none := by
  obtain ⟨a, ha, rfl⟩ := Option.map_eq_some_iff.mp hp
  have hmem : p ∈ w.panes := by rw [← h.live, ha, Option.isSome_some]
  dsimp only
  rw [if_pos hmem]
  exact ⟨a, ha, rfl, rfl⟩

theorem switched_markZoomed (h : Kept w) (wp : Nat) : Switched w (markZoomed w wp) :=
  ⟨h.modify wp fun _ => rfl, .of_modify rfl (fun _ => ⟨rfl, rfl⟩) rfl rfl rfl rfl, rfl, rfl⟩

theorem zoomPane_kept (h : Kept w) (wp : Nat) : Kept (zoomPane w wp) := by
  have hre : Relaid (layAside (markZoomed w wp)) (zoomPane w wp) :=
    (layoutInit_relaid _ wp).trans ⟨rfl, rfl, rfl, rfl, rfl, fun _ => rfl⟩
  exact (layAside_kept (switched_markZoomed h wp).kept).relaid hre

/-- Every pane of the zoomed window, from the pane it was. -/
theorem zoomPane_get (h : Kept w) {p : Nat} {a' : WindowPane}
    (hp : (zoomPane w wp).pane.get p = some a') :
    ∃ a, w.pane.get p = some a ∧ a'.savedLayoutCell = a.layoutCell ∧
      a'.layoutCell = if p = wp then some w.cell.next else none := by
  have hmark := switched_markZoomed h wp
  obtain ⟨a₂, h₂, hsaved₂, hcell₂⟩ := layoutInit_get hp
  obtain ⟨a₁, h₁, hsaved₁, hcell₁⟩ := layAside_get hmark.kept h₂
  obtain ⟨a, ha, hcell, -⟩ | ⟨hge, -, -⟩ := hmark.layout.pane p a₁ h₁
  · refine ⟨a, ha, by rw [hsaved₂, hsaved₁, hcell], ?_⟩
    rw [hcell₂, hcell₁]
    rfl
  · have hlt := Memory.lt_of_get h₁
    rw [show (markZoomed w wp).pane.next = w.pane.next from rfl] at hlt
    omega

theorem zoomPane_away {w₀ : Window} (h : Kept w) (hs : SameLayout w₀ w)
    (hold : wp < w₀.pane.next) : Away w₀ wp (zoomPane w wp) where
  zoomed := rfl
  layoutRoot := by rw [← hs.cell]; rfl
  rootCell := by
    rw [← hs.cell]
    exact ⟨_, Memory.get_alloc_self .., rfl, rfl⟩
  savedLayoutRoot := hs.layoutRoot
  cell := by
    rw [← hs.cell]
    exact fun c hc => Memory.get_alloc_of_ne _ hc
  next := hs.next
  shown := by
    intro a' hp
    obtain ⟨a, -, -, hcell⟩ := zoomPane_get h hp
    rw [hcell, if_pos rfl, hs.cell]
  shown_old := hold
  saved := by
    intro p a' hp
    obtain ⟨a, ha, hsaved, -⟩ := zoomPane_get h hp
    obtain ⟨a₀, ha₀, hcell, -⟩ | ⟨hge, hnone, -⟩ := hs.pane p a ha
    · rw [hsaved, ha₀, Option.bind_some, hcell]
    · rw [hsaved, hnone, w₀.pane.fresh p hge, Option.bind_none]

/-- What the end of a zoom gives back: the layout of `w₀`, and to its panes their cells. -/
structure GivesBack (w₀ w : Window) : Prop where
  layoutRoot : w.layoutRoot = w₀.layoutRoot
  cell : ∀ c, w.cell.get c = w₀.cell.get c
  pane : ∀ p a a₀, w.pane.get p = some a → w₀.pane.get p = some a₀ → a.layoutCell = a₀.layoutCell

theorem restoreCells_kept (h : Kept w) : Kept { w with pane := restoreCells w } :=
  h.map fun p a => by split_ifs <;> rfl

theorem restoreCells_get (h : Kept w) {p : Nat} {a' : WindowPane}
    (hp : (restoreCells w).get p = some a') :
    ∃ a, w.pane.get p = some a ∧ a'.layoutCell = a.savedLayoutCell ∧ a'.savedLayoutCell = none := by
  obtain ⟨a, ha, rfl⟩ := Option.map_eq_some_iff.mp hp
  have hmem : p ∈ w.panes := by rw [← h.live, ha, Option.isSome_some]
  dsimp only
  rw [if_pos hmem]
  exact ⟨a, ha, rfl, rfl⟩

theorem windowUnzoom_kept {n : Int} (h : Kept w) (hunzoom : windowUnzoom w = .ok (w', n)) :
    Kept w' ∧ (Laid w → Laid w') ∧ w'.active = w.active ∧ w'.panes = w.panes := by
  rw [windowUnzoom] at hunzoom
  split_ifs at hunzoom with hzoomed
  · obtain ⟨w₁, hfree, hw'⟩ := bind_eq_ok.mp hunzoom
    have hre := layoutFree_relaid hfree
    have hkept : Kept w₁ := by
      have h' : Kept { w with zoomed := false } := { h with }
      exact h'.relaid hre
    obtain ⟨rfl, -⟩ := Prod.mk.inj (Except.ok.inj hw')
    refine ⟨?_, fun _ _ => ⟨rfl, ?_⟩, hre.active, hre.panes⟩
    · exact (restoreCells_kept hkept).relaid ⟨rfl, rfl, rfl, rfl, rfl, fun _ => rfl⟩
    · intro p a' hp
      obtain ⟨-, -, -, hnone⟩ := restoreCells_get hkept hp
      exact hnone
  · obtain ⟨rfl, -⟩ := Prod.mk.inj (Except.ok.inj hunzoom)
    exact ⟨h, id, rfl, rfl⟩

/-- Where the pane that is shown is still there, its cell is freed and the zoom ends. -/
theorem windowUnzoom_givesBack {w₀ : Window} (h : Kept w) (haway : Away w₀ wp w)
    (hwp : wp ∈ w.panes) :
    ∃ w', windowUnzoom w = .ok (w', 0) ∧ w'.panes = w.panes ∧ GivesBack w₀ w' := by
  obtain ⟨a, ha⟩ := h.get_of_mem hwp
  obtain ⟨c, hc, htype, hcwp⟩ := haway.rootCell
  have hcell := haway.shown a ha
  -- the root of the zoomed layout is the cell of `wp` alone
  have hfree : layoutFree { w with zoomed := false } = .ok { w with
      zoomed := false
      cell := (w.cell.modify w₀.cell.next fun c => { c with parent := none }).free w₀.cell.next
      pane := w.pane.modify wp fun p => { p with layoutCell := none } } := by
    rw [layoutFree]
    dsimp only
    rw [haway.layoutRoot]
    dsimp only
    rw [layoutFreeCell]
    dsimp only
    rw [Memory.deref_eq_ok.mpr hc, ok_bind, freeContents, if_pos htype, hcwp, unlinkPane]
    dsimp only
    rw [Memory.deref_eq_ok.mpr ha, ok_bind, hcell, notNull, ok_bind, Memory.deref_eq_ok.mpr hc,
      ok_bind]
    rfl
  rw [windowUnzoom, if_pos haway.zoomed, hfree, ok_bind]
  refine ⟨_, rfl, rfl, ?_, ?_, ?_⟩
  · exact haway.savedLayoutRoot
  · intro c'
    dsimp only
    by_cases hc' : c' = w₀.cell.next
    · rw [hc', Memory.get_free_self, w₀.cell.fresh _ le_rfl]
    · rw [Memory.get_free_of_ne hc', Memory.get_modify_of_ne _ hc', haway.cell c' hc']
  · intro p a' a₀ hp ha₀
    have hkept := h.modify wp (f := fun p => { p with layoutCell := none }) fun _ => rfl
    obtain ⟨a₁, h₁, hlayout, -⟩ := restoreCells_get hkept hp
    rw [hlayout]
    rw [Memory.get_modify] at h₁
    split_ifs at h₁ with heq
    · obtain ⟨a₂, h₂, rfl⟩ := Option.map_eq_some_iff.mp h₁
      rw [haway.saved wp a₂ h₂, ← heq, ha₀, Option.bind_some]
    · rw [haway.saved p a₁ h₁, ha₀, Option.bind_some]

theorem windowZoom_ok (h : Kept w) (hwp : wp ∈ w.panes) :
    (∃ n, windowZoom w wp = .ok (w, n) ∧ n ≠ 0 ∧ (w.zoomed = true ∨ windowCountPanes w = 1)) ∨
    (∃ w', windowZoom w wp = .ok (w', 0) ∧ w.zoomed = false ∧ windowCountPanes w ≠ 1 ∧ Kept w' ∧
      w'.active = some wp ∧ Away w wp w') := by
  obtain ⟨a, ha⟩ := h.get_of_mem hwp
  rw [windowZoom, Memory.deref_eq_ok.mpr ha, ok_bind]
  by_cases hzoomed : w.zoomed = true
  · rw [if_pos hzoomed]
    exact .inl ⟨-1, rfl, by decide, .inl hzoomed⟩
  · rw [if_neg hzoomed]
    by_cases hone : windowCountPanes w = 1
    · rw [if_pos hone]
      exact .inl ⟨-1, rfl, by decide, .inr hone⟩
    · obtain ⟨w₁, n, hset, hsw, hactive⟩ := windowSetActivePane_ok h hwp
      rw [if_neg hone, hset, ok_bind]
      refine .inr ⟨_, rfl, eq_false_of_ne_true hzoomed, hone, zoomPane_kept hsw.kept wp, hactive,
        ?_⟩
      exact zoomPane_away hsw.kept hsw.layout (Memory.lt_of_get ha)

end Ztmux.Panes
