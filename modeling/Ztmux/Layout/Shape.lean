import Ztmux.Layout.Custom
import Ztmux.Layout.Adjust
import Ztmux.Layout.Offsets

/-!
Layouts without their sizes, offsets and panes.

What text a layout has brackets in, which cell is the bottom right one and which nodes
a removal leaves behind depend on the shape alone, and the operations that change sizes or
offsets keep it.
-/

namespace Ztmux.Layout

open LayoutCell

inductive Shape where
  | leaf (floating : Bool)
  | node (type : LayoutType) (cells : List Shape)
  deriving Repr

@[elab_as_elim, induction_eliminator]
theorem Shape.induct {P : Shape → Prop} (leaf : ∀ floating, P (.leaf floating))
    (node : ∀ type cells, (∀ c ∈ cells, P c) → P (.node type cells)) : ∀ s, P s
  | .leaf floating => leaf floating
  | .node type cells => node type cells fun c _ => Shape.induct leaf node c

mutual

def LayoutCell.shape : LayoutCell → Shape
  | .windowpane floating _ _ => .leaf floating
  | .node t _ cells => .node t (shapes cells)

def shapes : List LayoutCell → List Shape
  | [] => []
  | c :: cs => c.shape :: shapes cs

end

theorem shapes_eq_map (cells : List LayoutCell) : shapes cells = cells.map shape := by
  induction cells with
  | nil => rfl
  | cons c cs ih => rw [shapes, ih, List.map_cons]

@[simp] theorem shape_windowpane (floating : Bool) (wp : Option Nat) (g : Geometry) :
    (windowpane floating wp g).shape = .leaf floating := rfl

@[simp] theorem shape_node (t : LayoutType) (g : Geometry) (cells : List LayoutCell) :
    (node t g cells).shape = .node t (cells.map shape) := by
  rw [LayoutCell.shape, shapes_eq_map]

mutual

/-- The number of leaves. -/
def Shape.leaves : Shape → Nat
  | .leaf _ => 1
  | .node _ cells => sumLeaves cells

def sumLeaves : List Shape → Nat
  | [] => 0
  | s :: ss => s.leaves + sumLeaves ss

end

theorem sumLeaves_eq_sum (ss : List Shape) : sumLeaves ss = (ss.map Shape.leaves).sum := by
  induction ss with
  | nil => rfl
  | cons s ss ih => rw [sumLeaves, ih, List.map_cons, List.sum_cons]

@[simp] theorem Shape.leaves_leaf (floating : Bool) : (leaf floating).leaves = 1 := rfl

@[simp] theorem Shape.leaves_node (t : LayoutType) (cells : List Shape) :
    (node t cells).leaves = (cells.map Shape.leaves).sum := by
  rw [Shape.leaves, sumLeaves_eq_sum]

theorem layoutCountCells_eq_leaves (c : LayoutCell) : layoutCountCells c = c.shape.leaves := by
  induction c with
  | windowpane floating wp g => rfl
  | node t g cells ih =>
      rw [layoutCountCells_node, shape_node, Shape.leaves_node, List.map_map]
      exact congrArg List.sum (List.map_congr_left ih)

/-! ### What keeps the shape -/

theorem Resized.shape {type : LayoutType} {c c' : LayoutCell} (h : Resized type c c') :
    c'.shape = c.shape := by
  refine h.induct (P := fun c c' => c'.shape = c.shape) (fun _ => rfl) (fun _ _ _ => rfl)
    fun t g change cells cells' _ hcells => ?_
  rw [shape_node, shape_node, Lists.map_eq_of_forall₂ hcells fun _ _ _ hcc => hcc.2]

@[simp] theorem shape_setOffset (c : LayoutCell) (xoff yoff : Int32) :
    (c.setOffset xoff yoff).shape = c.shape := by
  cases c <;> simp [LayoutCell.setOffset]

@[simp] theorem shape_fixTopSize (c : LayoutCell) : (fixTopSize c).shape = c.shape := by
  cases c with
  | windowpane floating wp g => rfl
  | node t g cells =>
      cases t <;> simp only [fixTopSize] <;> split <;> simp

theorem shape_layoutAssign {panes panes' : List Nat} {c c' : LayoutCell}
    (h : layoutAssign panes c = .ok (c', panes')) : c'.shape = c.shape := by
  induction c generalizing panes c' panes' with
  | windowpane floating wp g =>
      cases panes with
      | nil => cases h
      | cons p ps => cases h; rfl
  | node t g cells ih =>
      have hcells : ∀ {panes cells' panes'}, assignCells panes cells = .ok (cells', panes') →
          cells'.map LayoutCell.shape = cells.map LayoutCell.shape := by
        clear h
        induction cells with
        | nil => intro panes cells' panes' h; cases h; rfl
        | cons c cs ihcs =>
            intro panes cells' panes' h
            obtain ⟨⟨c', ps⟩, hc, h⟩ := bind_eq_ok.mp h
            obtain ⟨⟨cs', ps'⟩, hcs, h⟩ := bind_eq_ok.mp h
            cases h
            rw [List.map_cons, List.map_cons, ih c List.mem_cons_self hc,
              ihcs (fun x hx => ih x (List.mem_cons_of_mem _ hx)) hcs]
      have h : (assignCells panes cells >>= fun r => pure (.node t g r.1, r.2)) =
          .ok (c', panes') := by
        cases panes <;> exact h
      obtain ⟨⟨cells', ps⟩, hc, h⟩ := bind_eq_ok.mp h
      cases h
      rw [shape_node, shape_node, hcells hc]

end Ztmux.Layout
