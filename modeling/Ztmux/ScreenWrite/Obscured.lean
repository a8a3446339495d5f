import Ztmux.Machine

/-!
Panes that are covered by others.

The panes of a window are in a list, the topmost first. Whether a pane is covered is asked with the
edges of the panes above it, and the answer is kept for as long as the pane is written to.
-/

namespace Ztmux.ScreenWrite.Obscured

/-! ### Model -/

structure LayoutCell where
  floating : Bool
  deriving DecidableEq

structure WindowPane where
  xoff : Int
  yoff : Int
  sx : UInt32
  sy : UInt32
  layoutCell : Option LayoutCell
  deriving DecidableEq

/-- A window, with its panes in the order of the z-index. Whether floating panes are hidden while a
tiled one is active is an option. -/
structure Window where
  sx : UInt32
  sy : UInt32
  zIndex : List WindowPane
  active : Option (Fin zIndex.length)
  zoomed : Bool
  autohide : Bool

def windowPaneIsFloating (wp : WindowPane) : Bool := wp.layoutCell.any LayoutCell.floating

def isHidden (w : Window) (wp : Fin w.zIndex.length) : Bool :=
  windowPaneIsFloating (w.zIndex.get wp) &&
    w.active.any (fun active => !windowPaneIsFloating (w.zIndex.get active)) && w.autohide

def windowPaneVisible (w : Window) (wp : Fin w.zIndex.length) : Bool :=
  if isHidden w wp then false
  else if !w.zoomed then true
  else decide (w.active = some wp)

/-- The edges behind the last column and the last row. -/
def xend (wp : WindowPane) : Int := wrapI32 (wp.xoff + asI32 wp.sx)

def yend (wp : WindowPane) : Int := wrapI32 (wp.yoff + asI32 wp.sy)

/-- What a write to a pane remembers of the test. -/
structure ScreenWriteCtx (n : Nat) where
  wp : Option (Fin n)
  checkedIfObscured : Bool
  obscured : Bool

def leavesWindow (w : Window) (base : WindowPane) : Bool :=
  base.xoff < 0 || base.yoff < 0 || asI32 w.sx < xend base || asI32 w.sy < yend base

def overlapsY (base wp : WindowPane) : Bool :=
  decide (base.yoff ≤ wp.yoff ∧ wp.yoff ≤ yend base) ||
    decide (base.yoff ≤ yend wp ∧ yend wp ≤ yend base)

def overlapsX (base wp : WindowPane) : Bool :=
  decide (base.xoff ≤ wp.xoff ∧ wp.xoff ≤ xend base) ||
    decide (base.xoff ≤ xend wp ∧ xend wp ≤ xend base)

/-- Walk toward the head of the z-index. -/
def walk (base : WindowPane) : List WindowPane → Bool
  | [] => false
  | wp :: above =>
      if windowPaneIsFloating wp && overlapsY base wp && overlapsX base wp then true
      else walk base above

def screenWritePaneIsObscured (w : Window) (ctx : ScreenWriteCtx w.zIndex.length) :
    Bool × ScreenWriteCtx w.zIndex.length :=
  match ctx.wp with
  | none => (false, ctx)
  | some base =>
      if ctx.checkedIfObscured then (ctx.obscured, ctx)
      else
        let ctx := { ctx with checkedIfObscured := true }
        if leavesWindow w (w.zIndex.get base) then (true, { ctx with obscured := true })
        else if walk (w.zIndex.get base) (w.zIndex.take base).reverse then
          (true, { ctx with obscured := true })
        else (false, ctx)

/-! ### Panes above -/

/-- A cell is one of a pane. -/
def WindowPane.Holds (wp : WindowPane) (x y : Int) : Prop :=
  wp.xoff ≤ x ∧ x < wp.xoff + wp.sx.toNat ∧ wp.yoff ≤ y ∧ y < wp.yoff + wp.sy.toNat

instance (wp : WindowPane) (x y : Int) : Decidable (wp.Holds x y) := by
  unfold WindowPane.Holds
  infer_instance

/-- Some cell of the pane is outside of the window, or is covered by a visible pane above. -/
def Exposed (w : Window) (base : Fin w.zIndex.length) : Prop :=
  ∃ x y, (w.zIndex.get base).Holds x y ∧
    (¬ (0 ≤ x ∧ x < w.sx.toNat ∧ 0 ≤ y ∧ y < w.sy.toNat) ∨
      ∃ wp : Fin w.zIndex.length, wp < base ∧ windowPaneVisible w wp = true ∧
      (w.zIndex.get wp).Holds x y)

/-- The pane leaves the window, or a floating pane above has a vertical edge in its columns and a
horizontal edge in its rows. -/
def Noticed (w : Window) (base : Fin w.zIndex.length) : Prop :=
  leavesWindow w (w.zIndex.get base) = true ∨
    ∃ wp : Fin w.zIndex.length, wp < base ∧ windowPaneIsFloating (w.zIndex.get wp) = true ∧
      overlapsY (w.zIndex.get base) (w.zIndex.get wp) = true ∧
      overlapsX (w.zIndex.get base) (w.zIndex.get wp) = true

/-- The contexts of a write to a pane, which is asked about any number of times. -/
inductive Asked (w : Window) (base : Fin w.zIndex.length) : ScreenWriteCtx w.zIndex.length → Prop
  | fresh : Asked w base ⟨some base, false, false⟩
  | again {ctx : ScreenWriteCtx w.zIndex.length} (h : Asked w base ctx) :
      Asked w base (screenWritePaneIsObscured w ctx).2

theorem walk_iff {base : WindowPane} {above : List WindowPane} : walk base above = true ↔
    ∃ wp ∈ above, windowPaneIsFloating wp = true ∧ overlapsY base wp = true ∧ overlapsX base wp =
      true := by
  induction above with
  | nil => simp [walk]
  | cons wp above ih =>
      rw [walk, List.exists_mem_cons_iff, ← ih]
      split_ifs with hnoticed
      · rw [Bool.and_eq_true, Bool.and_eq_true] at hnoticed
        exact iff_of_true rfl (.inl ⟨hnoticed.1.1, hnoticed.1.2, hnoticed.2⟩)
      · rw [Bool.and_eq_true, Bool.and_eq_true, and_assoc] at hnoticed
        rw [or_iff_right hnoticed]

variable {w : Window} {base : Fin w.zIndex.length} {ctx : ScreenWriteCtx w.zIndex.length}

/-- The panes that are walked over are those above. -/
theorem exists_mem_above {P : WindowPane → Prop} : (∃ wp ∈ (w.zIndex.take base).reverse, P wp) ↔
    ∃ wp : Fin w.zIndex.length, wp < base ∧ P (w.zIndex.get wp) := by
  constructor
  · rintro ⟨wp, hmem, hP⟩
    obtain ⟨i, hi, rfl⟩ := List.mem_iff_getElem.mp (List.mem_reverse.mp hmem)
    rw [List.length_take] at hi
    refine ⟨⟨i, by omega⟩, Fin.lt_def.mpr (by dsimp only; omega), ?_⟩
    rw [List.getElem_take] at hP
    exact hP
  · rintro ⟨wp, hlt, hP⟩
    refine ⟨w.zIndex.get wp, List.mem_reverse.mpr ?_, hP⟩
    rw [List.mem_take_iff_getElem]
    exact ⟨wp, by have := Fin.lt_def.mp hlt; omega, rfl⟩

/-- The answer that is not kept yet. -/
theorem answer_fresh (hwp : ctx.wp = some base) (hchecked : ctx.checkedIfObscured = false)
    (hobscured : ctx.obscured = false) :
    ((screenWritePaneIsObscured w ctx).1 = true ↔ Noticed w base) ∧
      (screenWritePaneIsObscured w ctx).2 =
        ⟨some base, true, (screenWritePaneIsObscured w ctx).1⟩ := by
  obtain ⟨wp, checked, obscured⟩ := ctx
  dsimp only at hwp hchecked hobscured
  subst hwp hchecked hobscured
  have hwalk := (@walk_iff (w.zIndex.get base) (w.zIndex.take base).reverse).trans exists_mem_above
  rw [screenWritePaneIsObscured, Noticed, ← hwalk]
  dsimp only
  rw [if_neg (by decide)]
  split_ifs with hleaves habove
  · exact ⟨iff_of_true rfl (.inl hleaves), rfl⟩
  · exact ⟨iff_of_true rfl (.inr habove), rfl⟩
  · exact ⟨iff_of_false (by decide) (not_or.mpr ⟨hleaves, habove⟩), rfl⟩

/-- The answer that is kept is the first one. -/
theorem Asked.answer (h : Asked w base ctx) :
    ctx.wp = some base ∧ (ctx.checkedIfObscured = false → ctx.obscured = false) ∧
      ((screenWritePaneIsObscured w ctx).1 = true ↔ Noticed w base) := by
  induction h with
  | fresh => exact ⟨rfl, fun _ => rfl, (answer_fresh rfl rfl rfl).1⟩
  | @again ctx h ih =>
      obtain ⟨hwp, hobscured, hanswer⟩ := ih
      have hkept : (screenWritePaneIsObscured w ctx).2 =
          ⟨some base, true, (screenWritePaneIsObscured w ctx).1⟩ := by
        cases hchecked : ctx.checkedIfObscured with
        | false => exact (answer_fresh hwp hchecked (hobscured hchecked)).2
        | true =>
            obtain ⟨wp, checked, obscured⟩ := ctx
            dsimp only at hwp hchecked
            subst hwp hchecked
            rfl
      rw [hkept]
      exact ⟨rfl, fun h => (nomatch h), hanswer⟩

/-! ### Panes that are missed -/

/-- No edge of the pane is behind the largest `i32`. -/
structure WindowPane.Fits (wp : WindowPane) : Prop where
  xoff : -2 ^ 31 ≤ wp.xoff
  yoff : -2 ^ 31 ≤ wp.yoff
  sx : wp.sx.toNat < 2 ^ 31
  sy : wp.sy.toNat < 2 ^ 31
  xend : wp.xoff + wp.sx.toNat < 2 ^ 31
  yend : wp.yoff + wp.sy.toNat < 2 ^ 31

theorem WindowPane.Fits.ends {wp : WindowPane} (h : wp.Fits) :
    Obscured.xend wp = wp.xoff + wp.sx.toNat ∧ Obscured.yend wp = wp.yoff + wp.sy.toNat := by
  obtain ⟨hx, hy, hsx, hsy, hxend, hyend⟩ := h
  rw [Obscured.xend, Obscured.yend, asI32_of_lt hsx, asI32_of_lt hsy,
    wrapI32_of_lt (by omega) hxend, wrapI32_of_lt (by omega) hyend]
  exact ⟨rfl, rfl⟩

/-- The panes have a cell in common. -/
def Covers (base wp : WindowPane) : Prop := ∃ x y, base.Holds x y ∧ wp.Holds x y

/-- The pane is larger on both sides of the columns or of the rows. -/
def Around (base wp : WindowPane) : Prop :=
  wp.xoff < base.xoff ∧ xend base < xend wp ∨ wp.yoff < base.yoff ∧ yend base < yend wp

/-- A pane that covers a cell is missed when it is larger on both sides. -/
theorem missed_iff {base wp : WindowPane} (hbase : base.Fits) (hwp : wp.Fits)
    (hcovers : Covers base wp) :
    ¬ (overlapsY base wp = true ∧ overlapsX base wp = true) ↔ Around base wp := by
  obtain ⟨x, y, ⟨hx, hxlt, hy, hylt⟩, hx', hxlt', hy', hylt'⟩ := hcovers
  rw [Around, overlapsX, overlapsY, hbase.ends.1, hbase.ends.2, hwp.ends.1, hwp.ends.2]
  simp only [Bool.or_eq_true, decide_eq_true_eq]
  omega

/-- A floating pane above that the answer takes in: one that covers a cell and is not larger on
both sides, or one that covers none and has an edge where the pane ends. -/
def TakenIn (base wp : WindowPane) : Prop :=
  windowPaneIsFloating wp = true ∧ (Covers base wp ∧ ¬ Around base wp ∨
    ¬ Covers base wp ∧ overlapsY base wp = true ∧ overlapsX base wp = true)

theorem takenIn_iff {base wp : WindowPane} (hbase : base.Fits) (hwp : wp.Fits) :
    TakenIn base wp ↔ windowPaneIsFloating wp = true ∧ overlapsY base wp = true ∧
      overlapsX base wp = true := by
  refine and_congr_right fun _ => ?_
  by_cases hcovers : Covers base wp
  · rw [← missed_iff hbase hwp hcovers, not_not]
    exact ⟨fun h => h.elim And.right fun h => absurd hcovers h.1, fun h => .inl ⟨hcovers, h⟩⟩
  · exact ⟨fun h => h.elim (fun h => absurd h.1 hcovers) And.right, fun h => .inr ⟨hcovers, h⟩⟩

/-- No write to the pane takes it for one that can be drawn without looking at the others when it is
not. -/
def NeverMissed (w : Window) (base : Fin w.zIndex.length) : Prop :=
  ∀ ctx, Asked w base ctx → Exposed w base → (screenWritePaneIsObscured w ctx).1 = true

/-- Only panes that are noticed are not missed. Where no edge is behind the largest `i32`, those
are the panes that leave the window or have a floating pane above that is taken in. -/
theorem neverMissed_iff (w : Window) (base : Fin w.zIndex.length) :
    (NeverMissed w base ↔ Noticed w base ∨ ¬ Exposed w base) ∧
      ((∀ wp, (w.zIndex.get wp).Fits) →
        (Noticed w base ↔ leavesWindow w (w.zIndex.get base) = true ∨
          ∃ wp : Fin w.zIndex.length, wp < base ∧
            TakenIn (w.zIndex.get base) (w.zIndex.get wp))) := by
  constructor
  · constructor
    · intro h
      by_cases hexposed : Exposed w base
      · exact .inl ((answer_fresh rfl rfl rfl).1.mp (h _ .fresh hexposed))
      · exact .inr hexposed
    · rintro (hnoticed | hnot) ctx hasked hexposed
      · exact hasked.answer.2.2.mpr hnoticed
      · exact absurd hexposed hnot
  · intro hfits
    refine or_congr_right (exists_congr fun wp => and_congr_right fun _ => ?_)
    exact (takenIn_iff (hfits base) (hfits wp)).symm

/-- A tiled pane, and a floating one that covers it with a margin on every side. -/
def coveredWindow : Window :=
  ⟨80, 24, [⟨10, 5, 40, 15, some ⟨true⟩⟩, ⟨20, 10, 10, 3, some ⟨false⟩⟩], none, false, false⟩

def coveredPane : Fin coveredWindow.zIndex.length := ⟨1, by decide⟩

theorem coveredWindow_exposed : Exposed coveredWindow coveredPane :=
  ⟨20, 10, by decide +kernel,
    .inr ⟨⟨0, by decide⟩, by decide +kernel, by decide +kernel, by decide +kernel⟩⟩

theorem coveredWindow_fits (wp : Fin coveredWindow.zIndex.length) :
    (coveredWindow.zIndex.get wp).Fits := by
  fin_cases wp
  · exact ⟨by decide, by decide, by decide, by decide, by decide, by decide⟩
  · exact ⟨by decide, by decide, by decide, by decide, by decide, by decide⟩

theorem coveredWindow_around :
    ¬ NeverMissed coveredWindow coveredPane ∧ ¬ Noticed coveredWindow coveredPane := by
  obtain ⟨hmissed, hnoticed⟩ := neverMissed_iff coveredWindow coveredPane
  have hnot : ¬ Noticed coveredWindow coveredPane := by
    rw [hnoticed coveredWindow_fits]
    rintro (hleaves | ⟨wp, hlt, -, hin⟩)
    · exact absurd hleaves (by decide +kernel)
    · obtain rfl : wp = ⟨0, by decide⟩ := by
        have hlt' := Fin.lt_def.mp hlt
        exact Fin.ext (Nat.lt_one_iff.mp hlt')
      rcases hin with ⟨-, hnot⟩ | ⟨hnot, -⟩
      · exact hnot (.inl ⟨by decide +kernel, by decide +kernel⟩)
      · exact hnot ⟨20, 10, by decide +kernel, by decide +kernel⟩
  rw [hmissed]
  exact ⟨fun h => h.elim hnot fun h => h coveredWindow_exposed, hnot⟩

theorem coveredWindow_missed :
    (screenWritePaneIsObscured coveredWindow ⟨some coveredPane, false, false⟩).1 = false ∧
    ¬ NeverMissed coveredWindow coveredPane := by
  have hfalse : (screenWritePaneIsObscured coveredWindow ⟨some coveredPane, false, false⟩).1 =
      false := by
    decide +kernel
  refine ⟨hfalse, fun h => ?_⟩
  have htrue := h _ .fresh coveredWindow_exposed
  rw [hfalse] at htrue
  cases htrue

end Ztmux.ScreenWrite.Obscured
