import Ztmux.ScreenWrite.Operations

/-!
What a flush leaves.

A flush sends the parts of an item that can be seen, and an item leaves its list when a part of it
was sent. An item that cannot be seen at all stays, and so do the items of rows below the window.
They are sent by a later flush, once the pane has moved or what is above it has.
-/

namespace Ztmux.ScreenWrite

variable {G : Type} {w v : Writer G} {y : Nat}

/-- Nothing is left on the lists of the screen. -/
def Emptied (w : Writer G) : Prop := ∀ y < w.sy, w.items y = []

/-- A flush that throws away what was collected: the pane is drawn anew, or the screen is later. -/
def discards (w : Writer G) : Bool :=
  paneRedraws w || w.mode.sync ||
    (decide (w.scrolled ≠ 0) && (paneIsObscured w || w.wp.any Pane.overlay))

/-- The row is not below the window. -/
def rowInWindow (w : Writer G) (y : Nat) : Bool :=
  decide (¬ ((w.wp.elim w.sy Pane.wsy : Nat) : Int) ≤ y + yoffOf w.wp)

/-- Some part of every item can be seen. -/
def AllSeen (w : Writer G) : Prop :=
  ∀ y < w.sy, ∀ ci ∈ w.items y, rowInWindow w y = true ∧ isWritten w y ci = true

/-! ### A row -/

/-- What a flush of a row looks at, besides the list of the row. -/
structure Keeps (w v : Writer G) : Prop where
  wp : v.wp = w.wp
  sx : v.sx = w.sx
  sy : v.sy = w.sy

theorem Keeps.refl (w : Writer G) : Keeps w w := ⟨rfl, rfl, rfl⟩

theorem Keeps.trans {u : Writer G} (h : Keeps w v) (h' : Keeps v u) : Keeps w u :=
  ⟨h'.wp.trans h.wp, h'.sx.trans h.sx, h'.sy.trans h.sy⟩

theorem Keeps.isWritten_eq (h : Keeps w v) (y : Nat) : isWritten v y = isWritten w y := by
  ext ci
  rw [isWritten, isWritten, h.wp, h.sx]

theorem Keeps.rowInWindow_eq (h : Keeps w v) (y : Nat) : rowInWindow v y = rowInWindow w y := by
  rw [rowInWindow, rowInWindow, h.wp, h.sy]

/-- The items that are left are those that cannot be seen. -/
theorem flushItems_run (items : List Item) (last : Option Nat) (w : Writer G) :
    ((flushItems y items last).run w).1 = items.filter (fun ci => !isWritten w y ci) ∧
      Keeps w ((flushItems y items last).run w).2 ∧ ((flushItems y items last).run w).2.items =
        w.items := by
  induction items generalizing last w with
  | nil => exact ⟨rfl, .refl w, rfl⟩
  | cons ci rest ih =>
      obtain ⟨v, hrun, hkeeps, hitems⟩ : ∃ v, (flushItems y (ci :: rest) last).run w =
          (if isWritten w y ci then (do freeCitem ci.id; flushItems y rest (some ci.x))
            else (do let kept ← flushItems y rest last; pure (ci :: kept)) : Write G
              (List Item)).run v ∧
          Keeps w v ∧ v.items = w.items := ⟨_, rfl, ⟨rfl, rfl, rfl⟩, rfl⟩
      rw [hrun]
      cases hwritten : isWritten w y ci with
      | true =>
          obtain ⟨u, hfree, hu, huitems⟩ : ∃ u, (do freeCitem ci.id; flushItems y rest (some ci.x) :
              Write G (List Item)).run v = (flushItems y rest (some ci.x)).run u ∧ Keeps v u ∧
              u.items = v.items :=
            ⟨_, rfl, ⟨rfl, rfl, rfl⟩, rfl⟩
          obtain ⟨hkept, hrest, hrestItems⟩ := ih (some ci.x) u
          rw [(hkeeps.trans hu).isWritten_eq] at hkept
          rw [if_pos rfl, hfree, List.filter_cons_of_neg (by rw [hwritten]; decide), ← hkept]
          exact ⟨rfl, (hkeeps.trans hu).trans hrest, hrestItems.trans (huitems.trans hitems)⟩
      | false =>
          obtain ⟨hkept, hrest, hrestItems⟩ := ih last v
          rw [hkeeps.isWritten_eq] at hkept
          rw [if_neg (by decide), List.filter_cons_of_pos (by rw [hwritten]; rfl), ← hkept]
          exact ⟨rfl, hkeeps.trans hrest, hrestItems.trans hitems⟩

/-- The list of a row after a flush of it. -/
def flushed (w : Writer G) (y : Nat) : List Item :=
  if rowInWindow w y then (w.items y).filter fun ci => !isWritten w y ci else w.items y

theorem flushed_eq_nil : flushed w y = [] ↔
    ∀ ci ∈ w.items y, rowInWindow w y = true ∧ isWritten w y ci = true := by
  rw [flushed]
  cases hrow : rowInWindow w y with
  | true =>
      rw [if_pos rfl, List.filter_eq_nil_iff]
      refine forall₂_congr fun ci _ => ?_
      rw [Bool.not_eq_true', Bool.not_eq_false, and_iff_right rfl]
  | false =>
      rw [if_neg (by decide), List.eq_nil_iff_forall_not_mem]
      exact forall₂_congr fun ci _ => iff_of_false id fun h => (nomatch h.1)

/-! ### All rows -/

/-- What is done to the rows changes the list of the row only, to what `f` says. -/
structure OnRow (act : Nat → Write G Unit) (f : Writer G → Nat → List Item) : Prop where
  items : ∀ w y, ((act y).run w).2.items = Function.update w.items y (f w y)
  keeps : ∀ w y, Keeps w ((act y).run w).2
  congr : ∀ w v y, Keeps w v → v.items y = w.items y → f v y = f w y

theorem OnRow.forM {act : Nat → Write G Unit} {f : Writer G → Nat → List Item} (h : OnRow act f)
    {rows : List Nat} (hrows : rows.Nodup) (w : Writer G) :
    Keeps w ((rows.forM act).run w).2 ∧
      ∀ y, ((rows.forM act).run w).2.items y = if y ∈ rows then f w y else w.items y := by
  induction rows generalizing w with
  | nil => exact ⟨.refl w, fun y => (if_neg List.not_mem_nil).symm⟩
  | cons y rows ih =>
      obtain ⟨hy, hrows⟩ := List.nodup_cons.mp hrows
      obtain ⟨hkeeps, hitems⟩ := ih hrows ((act y).run w).2
      refine ⟨(h.keeps w y).trans hkeeps, fun y' => (hitems y').trans ?_⟩
      rw [h.items]
      by_cases heq : y' = y
      · rw [heq, if_neg hy, Function.update_self, if_pos List.mem_cons_self]
      · rw [Function.update_of_ne heq]
        refine if_congr (by rw [List.mem_cons, or_iff_right heq]) (h.congr w _ y' (h.keeps w y) ?_)
          rfl
        rw [h.items, Function.update_of_ne heq]

theorem OnRow.forM_range {act : Nat → Write G Unit} {f : Writer G → Nat → List Item}
    (h : OnRow act f)
    (w : Writer G) : Keeps w (((List.range w.sy).forM act).run w).2 ∧
      ∀ y < w.sy, (((List.range w.sy).forM act).run w).2.items y = f w y := by
  obtain ⟨hkeeps, hitems⟩ := h.forM (List.nodup_range (n := w.sy)) w
  exact ⟨hkeeps, fun y hy => (hitems y).trans (if_pos (List.mem_range.mpr hy))⟩

theorem onRow_collectFlushLine : OnRow (G := G) collectFlushLine flushed := by
  have hrun (w : Writer G) (y : Nat) : (collectFlushLine y).run w =
      (if ((w.wp.elim w.sy Pane.wsy : Nat) : Int) ≤ y + yoffOf w.wp then pure ()
        else (do let kept ← flushItems y (w.items y) none; setItems y kept) : Write G Unit).run w :=
          rfl
  refine ⟨fun w y => ?_, fun w y => ?_, fun w v y hkeeps hitems => ?_⟩
  · rw [hrun, flushed, rowInWindow]
    by_cases hbelow : ((w.wp.elim w.sy Pane.wsy : Nat) : Int) ≤ y + yoffOf w.wp
    · rw [if_pos hbelow, if_neg (by rw [decide_eq_true_eq]; exact not_not.mpr hbelow),
        Function.update_eq_self]
      rfl
    · obtain ⟨hkept, -, hitems⟩ := flushItems_run (y := y) (w.items y) none w
      rw [if_neg hbelow, if_pos (decide_eq_true hbelow), ← hkept]
      exact congrArg (Function.update · y _) hitems
  · rw [hrun]
    split_ifs
    · exact .refl w
    · obtain ⟨-, hkeeps, -⟩ := flushItems_run (y := y) (w.items y) none w
      exact ⟨hkeeps.wp, hkeeps.sx, hkeeps.sy⟩
  · rw [flushed, flushed, hkeeps.rowInWindow_eq, hkeeps.isWritten_eq, hitems]

theorem onRow_freeLine : OnRow (G := G) freeLine fun _ _ => [] :=
  ⟨fun _ _ => rfl, fun _ _ => ⟨rfl, rfl, rfl⟩, fun _ _ _ _ _ => rfl⟩

/-- A row that is drawn later keeps its list. -/
theorem shouldDrawLine_run (w : Writer G) (y : Nat) :
    Keeps w ((shouldDrawLine y).run w).2 ∧ ((shouldDrawLine y).run w).2.items = w.items := by
  have hrun : (shouldDrawLine y).run w = (if paneRedraws w then pure false
      else if w.mode.sync then do
        syncRows y 1
        pure false
      else pure true : Write G Bool).run w := rfl
  rw [hrun]
  split_ifs
  · exact ⟨.refl w, rfl⟩
  · change Keeps w (if _ then _ else w) ∧ Writer.items (if _ then _ else w) = _
    split_ifs
    · exact ⟨⟨rfl, rfl, rfl⟩, rfl⟩
    · exact ⟨.refl w, rfl⟩
  · exact ⟨.refl w, rfl⟩

theorem onRow_syncLine : OnRow (G := G) syncLine fun w y => w.items y := by
  have hrun (w : Writer G) (y : Nat) : (syncLine y).run w =
      (if (w.items y).isEmpty then pure ()
        else (do let _ ← shouldDrawLine y; pure ()) : Write G Unit).run w := rfl
  refine ⟨fun w y => ?_, fun w y => ?_, fun _ _ _ _ h => h⟩
  · rw [hrun, Function.update_eq_self]
    split_ifs
    · rfl
    · exact (shouldDrawLine_run w y).2
  · rw [hrun]
    split_ifs
    · exact .refl w
    · exact (shouldDrawLine_run w y).1

/-! ### The flush -/

/-- What an answer is, of what keeps the lists. -/
def Quiet {α : Type} (act : Write G α) (P : α → Prop) : Prop :=
  ∀ w, P (act.run w).1 ∧ Keeps w (act.run w).2 ∧ (act.run w).2.items = w.items

theorem quiet_pure {α : Type} {P : α → Prop} {a : α} (h : P a) : Quiet (pure a : Write G α) P :=
  fun w => ⟨h, .refl w, rfl⟩

theorem Quiet.bind {α β : Type} {act : Write G α} {next : α → Write G β} {P : α → Prop}
    {Q : β → Prop}
    (h : Quiet act P) (hnext : ∀ a, P a → Quiet (next a) Q) : Quiet (act >>= next) Q := by
  intro w
  obtain ⟨hanswer, hkeeps, hitems⟩ := h w
  obtain ⟨hanswer', hkeeps', hitems'⟩ := hnext _ hanswer (act.run w).2
  exact ⟨hanswer', hkeeps.trans hkeeps', hitems'.trans hitems⟩

theorem quiet_note (ok : Bool) : Quiet (note ok : Write G Unit) fun _ => True :=
  fun _ => ⟨trivial, ⟨rfl, rfl, rfl⟩, rfl⟩

theorem quiet_sub (a b : Nat) : Quiet (sub a b : Write G Nat) fun _ => True :=
  (quiet_note _).bind fun _ _ => quiet_pure trivial

theorem quiet_add (a b : Nat) : Quiet (add a b : Write G Nat) fun _ => True :=
  (quiet_note _).bind fun _ _ => quiet_pure trivial

theorem quiet_scrolled (f : Nat → Nat) :
    Quiet (modify fun w => { w with scrolled := f w.scrolled } : Write G Unit) fun _ => True :=
  fun _ => ⟨trivial, ⟨rfl, rfl, rfl⟩, rfl⟩

/-- The scrolling is not done when the pane is drawn anew for it. -/
theorem collectFlushScrolled_run (w : Writer G) :
    (collectFlushScrolled.run w).1 = !(paneIsObscured w || w.wp.any Pane.overlay) ∧
      (collectFlushScrolled.run w).2.items = w.items ∧ (collectFlushScrolled.run w).2.sy = w.sy ∧
      ((collectFlushScrolled.run w).1 = true → Keeps w (collectFlushScrolled.run w).2) := by
  obtain ⟨scroll, hrun, hscroll⟩ : ∃ scroll : Write G Bool, collectFlushScrolled.run w =
      (if paneIsObscured w then pure false
        else if w.wp.any Pane.overlay then do
          set { w with wp := w.wp.map Pane.flagRedraw }
          pure false
        else scroll : Write G Bool).run w ∧ Quiet scroll fun answer => answer = true := by
    refine ⟨_, rfl, ?_⟩
    refine (quiet_sub _ _).bind fun _ _ => (quiet_add _ _).bind fun height _ => ?_
    refine (quiet_scrolled fun scrolled => atMost scrolled height).bind fun _ _ => ?_
    dsimp only
    split_ifs
    · exact (quiet_sub _ _).bind fun _ _ => quiet_pure rfl
    · exact quiet_pure rfl
  rw [hrun]
  cases hobscured : paneIsObscured w with
  | true => exact ⟨rfl, rfl, rfl, fun h => (nomatch h)⟩
  | false =>
      rw [if_neg (by decide)]
      cases hoverlay : w.wp.any Pane.overlay with
      | true => exact ⟨rfl, rfl, rfl, fun h => (nomatch h)⟩
      | false =>
          obtain ⟨hanswer, hkeeps, hitems⟩ := hscroll w
          rw [if_neg (by decide)]
          exact ⟨hanswer, hitems, hkeeps.sy, fun _ => hkeeps⟩

theorem discard_items (w : Writer G) :
    (discard.run w).2.sy = w.sy ∧ ∀ y < w.sy, (discard.run w).2.items y = [] := by
  obtain ⟨hkeeps, hitems⟩ := onRow_freeLine.forM_range w
  exact ⟨hkeeps.sy, hitems⟩

theorem flushLines_items (hkeeps : Keeps w v) (hitems : v.items = w.items) :
    ((flushLines false).run v).2.sy = w.sy ∧ ∀ y < w.sy, ((flushLines false).run v).2.items y =
      flushed w y := by
  obtain ⟨hafter, hflushed⟩ := onRow_collectFlushLine.forM_range { v with bg := 8 }
  rw [← hkeeps.sy]
  refine ⟨hafter.sy, fun y hy => (hflushed y hy).trans ?_⟩
  exact onRow_collectFlushLine.congr w _ y ⟨hkeeps.wp, hkeeps.sx, hkeeps.sy⟩ (congrFun hitems y)

theorem flushScrolled_items (w : Writer G) : ((flushScrolled false).run w).2.sy = w.sy ∧
    ∀ y < w.sy, ((flushScrolled false).run w).2.items y =
      if paneIsObscured w || w.wp.any Pane.overlay then [] else flushed w y := by
  obtain ⟨hanswer, hitems, hsy, hkeeps⟩ := collectFlushScrolled_run w
  have hrun : (flushScrolled false).run w = (if (collectFlushScrolled.run w).1 then do
      modify fun w => { w with scrolled := 0 }
      flushLines false
    else discard : Write G Unit).run (collectFlushScrolled.run w).2 := rfl
  rw [hrun]
  cases hdrawn : paneIsObscured w || w.wp.any Pane.overlay with
  | true =>
      rw [hdrawn, Bool.not_true] at hanswer
      rw [hanswer, if_neg (by decide), ← hsy]
      exact discard_items _
  | false =>
      rw [hdrawn, Bool.not_false] at hanswer
      have hkept := hkeeps hanswer
      rw [hanswer, if_pos rfl]
      exact flushLines_items (v := { (collectFlushScrolled.run w).2 with scrolled := 0 })
        ⟨hkept.wp, hkept.sx, hkept.sy⟩ hitems

theorem collectFlush_items (w : Writer G) : ((collectFlush false).run w).2.sy = w.sy ∧
    ∀ y < w.sy, ((collectFlush false).run w).2.items y = if discards w then []
      else flushed w y := by
  have hrun : (collectFlush false).run w = (if paneRedraws w then discard
      else if w.mode.sync then do
        (List.range w.sy).forM syncLine
        discard
      else if w.scrolled ≠ 0 then flushScrolled false
      else flushLines false : Write G Unit).run w := rfl
  rw [hrun, discards]
  cases paneRedraws w with
  | true => exact discard_items w
  | false =>
      cases w.mode.sync with
      | true =>
          obtain ⟨hkeeps, -⟩ := onRow_syncLine.forM_range w
          have hdiscard := discard_items (((List.range w.sy).forM syncLine).run w).2
          rw [hkeeps.sy] at hdiscard
          exact hdiscard
      | false =>
          rw [if_neg (by decide), if_neg (by decide), Bool.or_false, Bool.false_or]
          by_cases hscrolled : w.scrolled ≠ 0
          · rw [if_pos hscrolled, decide_eq_true hscrolled, Bool.true_and]
            exact flushScrolled_items w
          · rw [if_neg hscrolled, decide_eq_false hscrolled, Bool.false_and]
            exact flushLines_items (.refl w) rfl

theorem collectFlush_emptied_iff (w : Writer G) :
    Emptied ((collectFlush false).run w).2 ↔ discards w = true ∨ AllSeen w := by
  obtain ⟨hsy, hitems⟩ := collectFlush_items w
  rw [Emptied, hsy]
  cases hdiscards : discards w with
  | true => exact iff_of_true (fun y hy => (hitems y hy).trans (by rw [hdiscards]; rfl)) (.inl rfl)
  | false =>
      rw [hdiscards] at hitems
      rw [or_iff_right (by decide)]
      refine forall₂_congr fun y hy => ?_
      rw [hitems y hy]
      exact flushed_eq_nil

variable [GridView G]

/-- Once a write stops nothing that was collected is left if and only if it was thrown away or some
part of all of it could be seen. -/
theorem stop_emptied_iff (w : Writer G) :
    Emptied (stop.run w).2 ↔ discards (collectEnd.run w).2 = true ∨ AllSeen (collectEnd.run w).2 :=
  collectFlush_emptied_iff (collectEnd.run w).2

/-- A grid on which there is nothing. -/
structure BlankGrid

instance : GridView BlankGrid where
  getCell _ _ _ := GRID_DEFAULT_CELL
  setCell g _ _ _ := g
  setPadding g _ _ := g
  setCells g _ _ _ _ _ := g
  clear g _ _ _ _ _ := g
  clearHistory g _ := g
  scrollRegionUp g _ _ _ := g
  scrollRegionDown g _ _ _ := g
  moveLines g _ _ _ _ := g
  moveCells g _ _ _ _ _ := g
  hasHistory _ := false
  cellsize _ _ := 0
  wrapped _ _ := false
  setWrapped g _ := g
  extended _ _ := false
  entryDiffers _ _ _ _ := false

/-- A pane of two rows on the last row of its window. -/
def lowPane : Pane where
  xoff := 0
  yoff := 4
  sx := 4
  sy := 2
  wsx := 10
  wsy := 5
  redraw := false
  overlay := false
  covered := false
  scrollOnClear := false
  above _ := []
  seen y _ := if y = 0 then [(0, 10)] else []

/-- Nothing is written yet, and the cursor is on the row below the window. -/
def belowWindow : Writer BlankGrid where
  grid := ⟨⟩
  sx := 4
  sy := 2
  cx := 0
  cy := 1
  rupper := 0
  rlower := 1
  mode := ⟨true, false, false, false⟩
  sel := none
  items _ := []
  data _ := none
  wp := some lowPane
  item := zeroedItem 0
  scrolled := 0
  bg := 8
  syncDirty := none
  freelist := []
  nextItem := 1
  trapped := false
  badOrder := false

def writeLetter : Write BlankGrid Unit := do
  start
  collectAdd false { GRID_DEFAULT_CELL with data := utf8Set 0x61 }
  stop

/-- What is written there is left. -/
theorem not_emptied_belowWindow :
    Emptied belowWindow ∧ ¬ Emptied (writeLetter.run belowWindow).2 := by
  refine ⟨fun _ _ => rfl, fun h => ?_⟩
  have hlength : ((writeLetter.run belowWindow).2.items 1).length = 1 := by decide +kernel
  rw [h 1 (by decide +kernel)] at hlength
  cases hlength

end Ztmux.ScreenWrite
