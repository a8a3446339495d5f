import Ztmux.Layout.Cell
import Ztmux.Library.Lists

/-!
Recomputing the offsets of a layout moves the cells of the tiled flow and changes
nothing else.
-/

namespace Ztmux.Layout

open LayoutCell

/-- A cell at another offset, with what is below it at other offsets: floating cells
and what holds only them stay where they are. -/
inductive Moved : LayoutCell → LayoutCell → Prop
  | outside {c : LayoutCell} : inFlow c = false → Moved c c
  | windowpane (wp : Option Nat) (g : Geometry) (xoff yoff : Int32) :
      Moved (.windowpane false wp g) (.windowpane false wp { g with xoff := xoff, yoff := yoff })
  | node (t : LayoutType) (g : Geometry) (xoff yoff : Int32) {cells cells' : List LayoutCell} :
      cells.any inFlow → List.Forall₂ Moved cells cells' →
        Moved (.node t g cells) (.node t { g with xoff := xoff, yoff := yoff } cells')

theorem layoutFixOffsets1_moved {c : LayoutCell} (hf : inFlow c) (xoff yoff : Int32) :
    Moved c (layoutFixOffsets1 xoff yoff c) := by
  induction c generalizing xoff yoff with
  | windowpane floating wp g =>
      simp only [inFlow_windowpane, Bool.not_eq_true'] at hf
      subst hf
      exact .windowpane wp g xoff yoff
  | node t g cells ih =>
      rw [inFlow_node] at hf
      refine .node t g xoff yoff hf ?_
      clear hf g
      induction cells generalizing xoff yoff with
      | nil => exact .nil
      | cons c cs ihcs =>
          have hrest := fun xoff yoff =>
            ihcs (fun x hx => ih x (List.mem_cons_of_mem _ hx)) xoff yoff
          rw [fixOffsetsFrom]
          split
          · exact .cons (ih c List.mem_cons_self ‹_› xoff yoff) (hrest _ _)
          · exact .cons (.outside (Bool.eq_false_iff.mpr ‹_›)) (hrest _ _)

theorem layoutFixOffsets_moved {root : LayoutCell} (h : inFlow root) :
    Moved root (layoutFixOffsets root) :=
  layoutFixOffsets1_moved h 0 0

theorem Moved.induct {P : LayoutCell → LayoutCell → Prop} (outside : ∀ c, P c c)
    (windowpane : ∀ wp g xoff yoff,
      P (.windowpane false wp g) (.windowpane false wp { g with xoff := xoff, yoff := yoff }))
    (node : ∀ t g xoff yoff cells cells', cells.any inFlow →
      List.Forall₂ (fun c c' => Moved c c' ∧ P c c') cells cells' →
        P (.node t g cells) (.node t { g with xoff := xoff, yoff := yoff } cells'))
    {c c' : LayoutCell} (h : Moved c c') : P c c' := by
  induction c generalizing c' with
  | windowpane floating wp g =>
      cases h with
      | outside => exact outside _
      | windowpane _ _ xoff yoff => exact windowpane wp g xoff yoff
  | node t g cells ih =>
      cases h with
      | outside => exact outside _
      | node _ _ xoff yoff hany hcells =>
          exact node t g xoff yoff cells _ hany
            (Lists.forall₂_imp_mem hcells fun c hc c' hcc => ⟨hcc, ih c hc hcc⟩)

theorem Moved.size {c c' : LayoutCell} (h : Moved c c') (type : LayoutType) :
    c'.size type = c.size type := by
  cases h <;> cases type <;> rfl

end Ztmux.Layout
