import Ztmux.ScreenWrite.Cell
import Ztmux.ScreenWrite.Obscured

/-!
The pane that is written to, as one of the panes of a window.

A pane above takes its own columns from a row, with those of its border and of its scrollbar. What
the writer finds visible in a row are the columns of the window that no pane above takes.
-/

namespace Ztmux.ScreenWrite.Obscured

/-! ### Model -/

/-- What is drawn around a pane: no lines, and a scrollbar of some columns where it is reserved. -/
structure Frame where
  paneLinesNone : Bool
  scrollbar : Option Nat

def noBorder (wp : WindowPane) (frame : Frame) : Bool :=
  windowPaneIsFloating wp && frame.paneLinesNone

/-- The first and the last row of a pane with its border. -/
def rowEdges (wp : WindowPane) (frame : Frame) : Int × Int :=
  if noBorder wp frame then (wp.yoff, wrapI32 (yend wp - 1))
  else (if wp.yoff = 0 then 0 else wrapI32 (wp.yoff - 1), yend wp)

/-- The first and the last column of a pane with its border and its scrollbar. -/
def columnEdges (sbLeft : Bool) (wp : WindowPane) (frame : Frame) : Int × Int :=
  let sbW : Int := frame.scrollbar.getD 0
  if noBorder wp frame then (wp.xoff, wrapI32 (xend wp - 1))
  else if frame.scrollbar.isSome && sbLeft then
    (if sbW < wp.xoff then wrapI32 (wrapI32 (wp.xoff - 1) - sbW) else 0, xend wp)
  else (if wp.xoff = 0 then 0 else wrapI32 (wp.xoff - 1), wrapI32 (xend wp + sbW))

/-- The part of these columns that is in the window. A borderless pane clamps one column
earlier. -/
def clampEdges (wsx : Int) (borderless : Bool) (lb rb : Int) : Option (Int × Int) :=
  if rb < 0 then none
  else
    let rb :=
      if borderless = true ∧ wsx ≤ rb ∨ borderless = false ∧ wsx < rb then wsx - 1 else rb
    if rb < max lb 0 then none else some (max lb 0, rb)

/-- A pane is drawn in this row. A tiled pane's own top and bottom border rows obscure nothing. -/
def inRow (w : Window) (wp : Fin w.zIndex.length) (frame : Frame) (py : Int) : Bool :=
  let (tb, bb) := rowEdges (w.zIndex.get wp) frame
  windowPaneVisible w wp && decide (tb ≤ py ∧ py ≤ bb) &&
    (windowPaneIsFloating (w.zIndex.get wp) || decide (py ≠ tb ∧ py ≠ bb))

section

variable (w : Window) (sbLeft : Bool) (frames : Fin w.zIndex.length → Frame)

/-- The columns that a pane takes from a row. -/
def taken (wp : Fin w.zIndex.length) (py : Int) : Option (Int × Int) :=
  if inRow w wp (frames wp) py then
    let (lb, rb) := columnEdges sbLeft (w.zIndex.get wp) (frames wp)
    clampEdges (asI32 w.sx) (noBorder (w.zIndex.get wp) (frames wp)) lb rb
  else none

/-- Walk the z-index from the bottom: only panes found after this one are above it. -/
def panesAbove (base : Fin w.zIndex.length) : List (Fin w.zIndex.length) :=
  ((List.finRange w.zIndex.length).filter fun wp => wp < base).reverse

/-- A pane that is written to, where it is in the window. -/
def inWindow (base : Fin w.zIndex.length) (p : Pane) : Pane :=
  { p with
    xoff := (w.zIndex.get base).xoff
    yoff := (w.zIndex.get base).yoff
    sx := (w.zIndex.get base).sx.toNat
    sy := (w.zIndex.get base).sy.toNat
    wsx := w.sx.toNat
    wsy := w.sy.toNat
    covered := walk (w.zIndex.get base) (w.zIndex.take base).reverse
    above := fun py => (panesAbove w base).filterMap fun wp => taken w sbLeft frames wp py }

end

/-! ### Ranges -/

/-- A column is in one of the ranges. -/
def Shown (ranges : List (Nat × Nat)) (x : Nat) : Prop := ∃ r ∈ ranges, r.1 ≤ x ∧ x < r.1 + r.2

theorem shown_append {ranges ranges' : List (Nat × Nat)} {x : Nat} :
    Shown (ranges ++ ranges') x ↔ Shown ranges x ∨ Shown ranges' x := by
  simp only [Shown, List.mem_append, or_and_right, exists_or]

theorem shown_cons {r : Nat × Nat} {ranges : List (Nat × Nat)} {x : Nat} :
    Shown (r :: ranges) x ↔ (r.1 ≤ x ∧ x < r.1 + r.2) ∨ Shown ranges x := by
  rw [Shown, List.exists_mem_cons_iff, Shown]

theorem not_shown_nil (x : Nat) : ¬ Shown [] x := by
  rintro ⟨r, hr, -⟩
  exact absurd hr List.not_mem_nil

/-- Every range ends before the largest `i32`. -/
def Within (ranges : List (Nat × Nat)) : Prop := ∀ r ∈ ranges, r.1 + r.2 < 2 ^ 31

/-- What is left of a range are its columns outside of those taken out. -/
theorem obscureRange_shown {lb rb : Int} {r : Nat × Nat} (hr : r.1 + r.2 < 2 ^ 31) (x : Nat) :
    Shown (obscureRange lb rb r) x ↔ (r.1 ≤ x ∧ x < r.1 + r.2) ∧ ¬ (lb ≤ x ∧ x ≤ rb) := by
  have hnx : wrapI32 r.2 = r.2 := wrapI32_of_lt (by omega) (by omega)
  rw [obscureRange, hnx]
  split_ifs <;> simp only [shown_cons, not_shown_nil, or_false] <;> omega

theorem obscureRange_within {lb rb : Int} {r : Nat × Nat} (hr : r.1 + r.2 < 2 ^ 31) :
    Within (obscureRange lb rb r) := by
  have hnx : wrapI32 r.2 = r.2 := wrapI32_of_lt (by omega) (by omega)
  rw [obscureRange, hnx]
  split_ifs <;> simp only [Within, List.forall_mem_cons, List.not_mem_nil, false_implies,
    implies_true, and_true] <;> omega

theorem flatMap_shown {lb rb : Int} {ranges : List (Nat × Nat)} (h : Within ranges) (x : Nat) :
    Shown (ranges.flatMap (obscureRange lb rb)) x ↔ Shown ranges x ∧ ¬ (lb ≤ x ∧ x ≤ rb) := by
  induction ranges with
  | nil => exact iff_of_false (not_shown_nil x) fun h => not_shown_nil x h.1
  | cons r ranges ih =>
      obtain ⟨hr, hranges⟩ := List.forall_mem_cons.mp h
      rw [List.flatMap_cons, shown_append, shown_cons, obscureRange_shown hr, ih hranges,
        or_and_right]

theorem flatMap_within {lb rb : Int} {ranges : List (Nat × Nat)} (h : Within ranges) :
    Within (ranges.flatMap (obscureRange lb rb)) := by
  intro r hr
  obtain ⟨r', hr', hmem⟩ := List.mem_flatMap.mp hr
  exact obscureRange_within (h r' hr') r hmem

/-- All that is above is taken out, in whatever order. -/
theorem obscureRanges_shown {above : List (Int × Int)} {ranges : List (Nat × Nat)}
    (h : Within ranges) (x : Nat) :
    Shown (obscureRanges above ranges) x ↔
      Shown ranges x ∧ ∀ b ∈ above, ¬ (b.1 ≤ x ∧ x ≤ b.2) := by
  induction above generalizing ranges with
  | nil => exact (and_iff_left fun b hb => absurd hb List.not_mem_nil).symm
  | cons b above ih =>
      rw [obscureRanges, List.foldl_cons, ← obscureRanges, ih (flatMap_within h), flatMap_shown h,
        List.forall_mem_cons, and_assoc]

/-! ### Panes of a window -/

variable {w : Window} {sbLeft : Bool} {frames : Fin w.zIndex.length → Frame}
  {base : Fin w.zIndex.length} {p : Pane}

theorem mem_panesAbove {wp : Fin w.zIndex.length} : wp ∈ panesAbove w base ↔ wp < base := by
  rw [panesAbove, List.mem_reverse, List.mem_filter, decide_eq_true_eq]
  exact and_iff_right (List.mem_finRange wp)

/-- The writer's test is the one that the walk over the z-index answers. -/
theorem inWindow_obscured (hbase : (w.zIndex.get base).Fits) (hsx : w.sx.toNat < 2 ^ 31)
    (hsy : w.sy.toNat < 2 ^ 31) :
    (inWindow w sbLeft frames base p).obscured =
      (screenWritePaneIsObscured w ⟨some base, false, false⟩).1 := by
  have hleaves : ((w.zIndex.get base).xoff < 0 ∨ (w.zIndex.get base).yoff < 0 ∨
      (w.sx.toNat : Int) < (w.zIndex.get base).xoff + (w.zIndex.get base).sx.toNat ∨
      (w.sy.toNat : Int) < (w.zIndex.get base).yoff + (w.zIndex.get base).sy.toNat) ↔
        leavesWindow w (w.zIndex.get base) = true := by
    rw [leavesWindow, hbase.ends.1, hbase.ends.2, asI32_of_lt hsx, asI32_of_lt hsy]
    simp only [Bool.or_eq_true, decide_eq_true_eq, or_assoc]
  have hwalk := (@walk_iff (w.zIndex.get base) (w.zIndex.take base).reverse).trans exists_mem_above
  rw [Bool.eq_iff_iff, (answer_fresh rfl rfl rfl).1, Noticed, ← hleaves, ← hwalk, Pane.obscured,
    Bool.or_eq_true, decide_eq_true_eq]
  exact Iff.rfl

/-- The part of a row that is in the window. -/
theorem clip_shown {px : Int} {wsx width : Nat} (hpx : px ≤ wsx) (hwsx : wsx < 2 ^ 31) :
    ∃ start n, clipLeft px width = (start, n) ∧
      (∀ x : Nat, start ≤ x ∧ x < start + clipWidth wsx start n ↔
        px ≤ x ∧ x < px + width ∧ x < wsx) ∧
      start + clipWidth wsx start n < 2 ^ 31 ∧
      (n = 0 → ∀ x : Nat, ¬ (px ≤ x ∧ x < px + width)) := by
  rw [clipLeft]
  split_ifs with hleft
  · refine ⟨_, _, rfl, ?_⟩
    rw [clipWidth]
    split_ifs <;> refine ⟨fun x => ?_, ?_, fun hn x => ?_⟩ <;> omega
  · refine ⟨_, _, rfl, ?_⟩
    rw [clipWidth]
    split_ifs <;> refine ⟨fun x => ?_, ?_, fun hn x => ?_⟩ <;> omega

/-- The columns of a row that are visible are those in the window that no pane above takes. -/
theorem windowVisibleRanges_shown {px py : Int} {width : Nat} (hpx : px ≤ w.sx.toNat)
    (hsx : w.sx.toNat < 2 ^ 31) (x : Nat) :
    Shown (windowVisibleRanges (some (inWindow w sbLeft frames base p)) px py width) x ↔
      (0 ≤ py ∧ py < w.sy.toNat ∧ px ≤ x ∧ x < px + width ∧ x < w.sx.toNat) ∧
        ∀ wp < base, ∀ b, taken w sbLeft frames wp py = some b → ¬ (b.1 ≤ x ∧ x ≤ b.2) := by
  obtain ⟨start, n, hclip, hcolumns, hwithin, hempty⟩ := @clip_shown px _ width hpx hsx
  have habove : (∀ b ∈ (inWindow w sbLeft frames base p).above py, ¬ (b.1 ≤ x ∧ x ≤ b.2)) ↔
      ∀ wp < base, ∀ b, taken w sbLeft frames wp py = some b → ¬ (b.1 ≤ x ∧ x ≤ b.2) := by
    simp only [inWindow, List.mem_filterMap, mem_panesAbove]
    exact ⟨fun h wp hwp b hb => h b ⟨wp, hwp, hb⟩, fun h b ⟨wp, hwp, hb⟩ => h wp hwp b hb⟩
  rw [windowVisibleRanges, hclip, ← habove]
  dsimp only
  by_cases hnone : py < 0 ∨ n = 0
  · rw [if_pos hnone]
    refine iff_of_false (not_shown_nil x) fun h => ?_
    rcases hnone with hpy | hn
    · omega
    · exact hempty hn x ⟨h.1.2.2.1, h.1.2.2.2.1⟩
  · rw [if_neg hnone]
    have hwsy : (inWindow w sbLeft frames base p).wsy = w.sy.toNat := rfl
    have hwsx : (inWindow w sbLeft frames base p).wsx = w.sx.toNat := rfl
    rw [hwsy, hwsx]
    by_cases hbelow : w.sy.toNat ≤ py.toNat
    · rw [if_pos hbelow]
      exact iff_of_false (not_shown_nil x) fun h => by omega
    · rw [if_neg hbelow, obscureRanges_shown (List.forall_mem_singleton.mpr hwithin), shown_cons,
        or_iff_left (not_shown_nil x), hcolumns x]
      refine and_congr_left fun _ => ⟨fun h => ?_, fun h => h.2.2⟩
      exact ⟨by omega, by omega, h⟩

/-! ### Floating panes above -/

/-- Neither is an edge of the border or of the scrollbar beyond an `i32`. -/
structure FitsFramed (wp : WindowPane) (frame : Frame) : Prop extends wp.Fits where
  left : -2 ^ 31 < wp.xoff
  top : -2 ^ 31 < wp.yoff
  right : wp.xoff + wp.sx.toNat + frame.scrollbar.getD 0 < 2 ^ 31

theorem FitsFramed.mem_rowEdges {wp : WindowPane} {frame : Frame} (h : FitsFramed wp frame)
    {y : Int} (hlow : wp.yoff ≤ y) (hhigh : y < wp.yoff + wp.sy.toNat) :
    (rowEdges wp frame).1 ≤ y ∧ y ≤ (rowEdges wp frame).2 := by
  have hyend := h.yend
  have htop := h.top
  rw [rowEdges, h.ends.2]
  split_ifs with hborder hzero
  · rw [wrapI32_of_lt (by omega) (by omega)]
    exact ⟨hlow, by omega⟩
  · exact ⟨by omega, by omega⟩
  · rw [wrapI32_of_lt (by omega) (by omega)]
    exact ⟨by omega, by omega⟩

theorem FitsFramed.mem_columnEdges {wp : WindowPane} {frame : Frame} (h : FitsFramed wp frame)
    (sbLeft : Bool) {x : Int} (h0 : 0 ≤ x) (hlow : wp.xoff ≤ x)
    (hhigh : x < wp.xoff + wp.sx.toNat) :
    (columnEdges sbLeft wp frame).1 ≤ x ∧ x ≤ (columnEdges sbLeft wp frame).2 := by
  have hxend := h.xend
  have hleft := h.left
  have hright := h.right
  rw [columnEdges, h.ends.1]
  split_ifs with hborder hscrollbar hroom hzero
  · rw [wrapI32_of_lt (by omega) (by omega)]
    exact ⟨hlow, by omega⟩
  · rw [wrapI32_of_lt (x := wp.xoff - 1) (by omega) (by omega), wrapI32_of_lt (by omega) (by omega)]
    exact ⟨by omega, by omega⟩
  · exact ⟨h0, by omega⟩
  · rw [wrapI32_of_lt (by omega) (by omega)]
    exact ⟨h0, by omega⟩
  · rw [wrapI32_of_lt (by omega) (by omega), wrapI32_of_lt (by omega) (by omega)]
    exact ⟨by omega, by omega⟩

theorem mem_clampEdges {wsx lb rb x : Int} {borderless : Bool} (h0 : 0 ≤ x) (hx : x < wsx)
    (hlb : lb ≤ x) (hrb : x ≤ rb) :
    ∃ b, clampEdges wsx borderless lb rb = some b ∧ b.1 ≤ x ∧ x ≤ b.2 := by
  rw [clampEdges, if_neg (by omega)]
  dsimp only
  generalize hend : (if borderless = true ∧ wsx ≤ rb ∨ borderless = false ∧ wsx < rb then wsx - 1
    else rb) = rb'
  have hrb' : x ≤ rb' := by
    rw [← hend]
    split_ifs <;> omega
  rw [if_neg (by omega)]
  exact ⟨_, rfl, by dsimp only; omega, hrb'⟩

/-- A visible floating pane takes the columns that it holds. -/
theorem taken_of_holds {wp : Fin w.zIndex.length} {x : Nat} {py : Int}
    (hfits : FitsFramed (w.zIndex.get wp) (frames wp)) (hsx : w.sx.toNat < 2 ^ 31)
    (hx : x < w.sx.toNat) (hvisible : windowPaneVisible w wp = true)
    (hfloating : windowPaneIsFloating (w.zIndex.get wp) = true)
    (hholds : (w.zIndex.get wp).Holds x py) :
    ∃ b, taken w sbLeft frames wp py = some b ∧ b.1 ≤ x ∧ x ≤ b.2 := by
  obtain ⟨hxlow, hxhigh, hylow, hyhigh⟩ := hholds
  have hrow : inRow w wp (frames wp) py = true := by
    rw [inRow]
    dsimp only
    rw [hvisible, hfloating, decide_eq_true (hfits.mem_rowEdges hylow hyhigh)]
    rfl
  have hedges := hfits.mem_columnEdges sbLeft (Int.natCast_nonneg x) hxlow hxhigh
  rw [taken, if_pos hrow]
  dsimp only
  rw [asI32_of_lt hsx]
  exact mem_clampEdges (Int.natCast_nonneg x) (Int.ofNat_lt.mpr hx) hedges.1 hedges.2

/-- What is visible of a row of a pane is not held by a visible floating pane above. -/
theorem shown_not_held {px py : Int} {width : Nat} (hpx : px ≤ w.sx.toNat)
    (hsx : w.sx.toNat < 2 ^ 31) {x : Nat}
    (hshown : Shown (windowVisibleRanges (some (inWindow w sbLeft frames base p)) px py width) x)
    {wp : Fin w.zIndex.length} (hwp : wp < base)
    (hfits : FitsFramed (w.zIndex.get wp) (frames wp)) (hvisible : windowPaneVisible w wp = true)
    (hfloating : windowPaneIsFloating (w.zIndex.get wp) = true) :
    ¬ (w.zIndex.get wp).Holds x py := by
  obtain ⟨⟨-, -, -, -, hx⟩, hfree⟩ := (windowVisibleRanges_shown hpx hsx x).mp hshown
  intro hholds
  obtain ⟨b, hb, htaken⟩ := @taken_of_holds w sbLeft frames wp x py hfits hsx hx hvisible hfloating
    hholds
  exact hfree wp hwp b hb htaken

end Ztmux.ScreenWrite.Obscured
