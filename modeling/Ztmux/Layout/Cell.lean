import Ztmux.Machine

/-!
The cells of a window layout.

A layout is a tree. A leaf is a `LAYOUT_WINDOWPANE` cell and carries a pane once
one is assigned to it; a node is a `LAYOUT_LEFTRIGHT` or `LAYOUT_TOPBOTTOM` cell and
only lays out its children. The source keeps parent pointers; here a cell is
reached by the path of child indices that leads to it, and what the source
finds by walking up to the root is passed down instead.

Only a leaf is ever floating: the flag is set on the cell a pane is put in, and
splitting a floating cell is fatal.
-/

namespace Ztmux.Layout

/-- The types of a node. -/
inductive LayoutType
  | leftright
  | topbottom
  deriving DecidableEq, Repr

/-- The direction across. -/
def LayoutType.across : LayoutType → LayoutType
  | .leftright => .topbottom
  | .topbottom => .leftright

@[simp] theorem LayoutType.across_across (t : LayoutType) : t.across.across = t := by
  cases t <;> rfl

@[simp] theorem LayoutType.across_ne (t : LayoutType) : t.across ≠ t := by
  cases t <;> decide

theorem LayoutType.eq_across_of_ne {t type : LayoutType} (h : t ≠ type) : type = t.across := by
  cases t <;> cases type <;> simp_all [LayoutType.across]

structure Geometry where
  sx : UInt32
  sy : UInt32
  xoff : Int32
  yoff : Int32
  deriving DecidableEq, Repr

namespace Geometry

/-- The size along one direction. -/
def size (g : Geometry) : LayoutType → UInt32
  | .leftright => g.sx
  | .topbottom => g.sy

/-- Change the size along one direction. -/
def addSize (g : Geometry) (type : LayoutType) (change : Int) : Geometry :=
  match type with
  | .leftright => { g with sx := Ztmux.addSize g.sx change }
  | .topbottom => { g with sy := Ztmux.addSize g.sy change }

@[simp] theorem size_addSize (g : Geometry) (type : LayoutType) (change : Int) :
    (g.addSize type change).size type = Ztmux.addSize (g.size type) change := by
  cases type <;> rfl

@[simp] theorem size_across_addSize (g : Geometry) (type : LayoutType) (change : Int) :
    (g.addSize type change).size type.across = g.size type.across := by
  cases type <;> rfl

@[simp] theorem size_addSize_across (g : Geometry) (type : LayoutType) (change : Int) :
    (g.addSize type.across change).size type = g.size type := by
  cases type <;> rfl

@[simp] theorem addSize_zero (g : Geometry) (type : LayoutType) : g.addSize type 0 = g := by
  cases type <;> simp [addSize]

@[simp] theorem addSize_addSize (g : Geometry) (type : LayoutType) (a b : Int) :
    (g.addSize type a).addSize type b = g.addSize type (a + b) := by
  cases type <;> simp [addSize, Ztmux.addSize_addSize]

@[simp] theorem xoff_addSize (g : Geometry) (type : LayoutType) (change : Int) :
    (g.addSize type change).xoff = g.xoff := by
  cases type <;> rfl

@[simp] theorem yoff_addSize (g : Geometry) (type : LayoutType) (change : Int) :
    (g.addSize type change).yoff = g.yoff := by
  cases type <;> rfl

end Geometry

inductive LayoutCell where
  | windowpane (floating : Bool) (wp : Option Nat) (g : Geometry)
  | node (type : LayoutType) (g : Geometry) (cells : List LayoutCell)
  deriving Repr

/-- Induction over a layout: a node inherits from its children. -/
@[elab_as_elim, induction_eliminator]
theorem LayoutCell.induct {P : LayoutCell → Prop}
    (windowpane : ∀ floating wp g, P (.windowpane floating wp g))
    (node : ∀ type g cells, (∀ c ∈ cells, P c) → P (.node type g cells)) : ∀ c, P c
  | .windowpane floating wp g => windowpane floating wp g
  | .node type g cells => node type g cells fun c _ => LayoutCell.induct windowpane node c

namespace LayoutCell

def geometry : LayoutCell → Geometry
  | .windowpane _ _ g => g
  | .node _ g _ => g

/-- The size along one direction. -/
def size (c : LayoutCell) (type : LayoutType) : UInt32 := c.geometry.size type

@[simp] theorem size_windowpane (floating : Bool) (wp : Option Nat) (g : Geometry)
    (type : LayoutType) : (windowpane floating wp g).size type = g.size type := rfl

@[simp] theorem size_node (t : LayoutType) (g : Geometry) (cells : List LayoutCell)
    (type : LayoutType) : (node t g cells).size type = g.size type := rfl

end LayoutCell

open LayoutCell

/-- A cell is tiled when it is a leaf and not floating. -/
def layoutCellIsTiled : LayoutCell → Bool
  | .windowpane floating _ _ => !floating
  | .node _ _ _ => false

mutual

/-- Whether any descendant is a tiled cell. -/
def layoutCellHasTiledChild : LayoutCell → Bool
  | .windowpane _ _ _ => false
  | .node _ _ cells => anyInFlow cells

/-- Whether any of `cells` is tiled or has a tiled descendant. -/
def anyInFlow : List LayoutCell → Bool
  | [] => false
  | c :: cs => layoutCellIsTiled c || layoutCellHasTiledChild c || anyInFlow cs

end

/-- The test the source repeats before every use of a sibling: does the cell take
part in the tiled flow at all? -/
def inFlow (c : LayoutCell) : Bool := layoutCellIsTiled c || layoutCellHasTiledChild c

@[simp] theorem inFlow_windowpane (floating : Bool) (wp : Option Nat) (g : Geometry) :
    inFlow (.windowpane floating wp g) = !floating := by
  simp [inFlow, layoutCellIsTiled, layoutCellHasTiledChild]

theorem anyInFlow_eq_any (cells : List LayoutCell) : anyInFlow cells = cells.any inFlow := by
  induction cells with
  | nil => rfl
  | cons c cs ih => simp [anyInFlow, inFlow, ih]

@[simp] theorem inFlow_node (t : LayoutType) (g : Geometry) (cells : List LayoutCell) :
    inFlow (.node t g cells) = cells.any inFlow := by
  simp [inFlow, layoutCellIsTiled, layoutCellHasTiledChild, anyInFlow_eq_any]

@[simp] theorem layoutCellHasTiledChild_node (t : LayoutType) (g : Geometry)
    (cells : List LayoutCell) :
    layoutCellHasTiledChild (.node t g cells) = cells.any inFlow := by
  simp [layoutCellHasTiledChild, anyInFlow_eq_any]

/-! ### Where a cell lies in its window -/

/-- Whether a cell touches the top and the bottom of the window, as the walks
`layout_cell_is_top` and `layout_cell_is_bottom` up to the root find it. -/
structure Edge where
  top : Bool
  bottom : Bool
  deriving DecidableEq, Repr

/-- The root touches both. -/
def Edge.root : Edge := ⟨true, true⟩

/-- Whether child `i` is the first of its siblings in the tiled flow. -/
def layoutCellIsFirstTiled (siblings : List LayoutCell) (i : Nat) : Bool :=
  siblings.findIdx? inFlow = some i

/-- One step of the two walks: child `i` of a node that lies at `e`. A leading
floating sibling does not stop a cell from being the top one; a trailing one
does stop it from being the bottom one. -/
def Edge.child (e : Edge) (type : LayoutType) (siblings : List LayoutCell) (i : Nat) : Edge where
  top := e.top && (type != .topbottom || layoutCellIsFirstTiled siblings i)
  bottom := e.bottom && (type != .topbottom || i + 1 == siblings.length)

/-- The window's `pane-border-status`. -/
inductive PaneStatus
  | off
  | top
  | bottom
  | topFloating
  | bottomFloating
  deriving DecidableEq, Repr

/-- What the resize functions read from the window: its options and the scrollbar
style of its active pane. -/
structure WindowOptions where
  paneBorderStatus : PaneStatus
  scrollbarsAlways : Bool
  scrollbarWidth : Int32
  scrollbarPad : Int32
  deriving DecidableEq, Repr

/-- `pane-border-status` off and no scrollbars. -/
def WindowOptions.plain : WindowOptions := ⟨.off, false, 1, 0⟩

def paneMinimum : UInt32 := 1

/-- Whether a pane status line takes a line of a cell at `e`. -/
def layoutAddBorder (w : WindowOptions) (e : Edge) : Bool :=
  match w.paneBorderStatus with
  | .top => e.top
  | .bottom => e.bottom
  | _ => false

/-- The size a leaf at `e` keeps when space is taken from it. -/
def leafMinimum (w : WindowOptions) (e : Edge) : LayoutType → UInt32
  | .leftright =>
      if w.scrollbarsAlways then
        paneMinimum + w.scrollbarWidth.toUInt32 + w.scrollbarPad.toUInt32
      else paneMinimum
  | .topbottom => if layoutAddBorder w e then paneMinimum + 1 else paneMinimum

/-- `pane-border-status` is off and so are the scrollbars. -/
def WindowOptions.Bare (w : WindowOptions) : Prop :=
  w.paneBorderStatus = .off ∧ w.scrollbarsAlways = false

theorem WindowOptions.plain_bare : WindowOptions.plain.Bare := ⟨rfl, rfl⟩

theorem leafMinimum_bare {w : WindowOptions} (h : w.Bare) (e : Edge) (type : LayoutType) :
    leafMinimum w e type = 1 := by
  cases type <;> simp [leafMinimum, layoutAddBorder, h.1, h.2, paneMinimum]

def cellAt : List Nat → LayoutCell → Option LayoutCell
  | [], c => some c
  | i :: path, .node _ _ cells =>
      match cells[i]? with
      | none => none
      | some c => cellAt path c
  | _ :: _, .windowpane _ _ _ => none

/-! ### Neighbours, counting and offsets -/

mutual

/-- The number of leaves. -/
def layoutCountCells : LayoutCell → Nat
  | .windowpane _ _ _ => 1
  | .node _ _ cells => countAll cells

def countAll : List LayoutCell → Nat
  | [] => 0
  | c :: cs => layoutCountCells c + countAll cs

end

theorem countAll_eq_sum (cells : List LayoutCell) :
    countAll cells = (cells.map layoutCountCells).sum := by
  induction cells with
  | nil => rfl
  | cons c cs ih => simp [countAll, ih]

@[simp] theorem layoutCountCells_node (t : LayoutType) (g : Geometry) (cells : List LayoutCell) :
    layoutCountCells (.node t g cells) = (cells.map layoutCountCells).sum := by
  rw [layoutCountCells, countAll_eq_sum]

/-- Walk from sibling `i` towards the tail or the head for the next cell in the
tiled flow. -/
def layoutCellGetNeighbourDirection (siblings : List LayoutCell) (i : Nat) :
    Bool → Option Nat
  | true => ((siblings.drop (i + 1)).findIdx? inFlow).map (i + 1 + ·)
  | false => ((siblings.take i).reverse.findIdx? inFlow).map (i - 1 - ·)

/-- The sibling that absorbs the space of sibling `i`: the following one, except
for the last cell, which has none. -/
def layoutCellGetNeighbour (siblings : List LayoutCell) (i : Nat) : Option Nat :=
  let direction := i + 1 != siblings.length
  (layoutCellGetNeighbourDirection siblings i direction).or
    (layoutCellGetNeighbourDirection siblings i !direction)

theorem layoutCellGetNeighbour_eq_some {siblings : List LayoutCell} {i j : Nat}
    (h : layoutCellGetNeighbour siblings i = some j) (hi : i < siblings.length) :
    j ≠ i ∧ ∃ c, siblings[j]? = some c ∧ inFlow c := by
  have hdirection : ∀ direction, layoutCellGetNeighbourDirection siblings i direction = some j →
      j ≠ i ∧ ∃ c, siblings[j]? = some c ∧ inFlow c := by
    intro direction h
    cases direction with
    | true =>
        obtain ⟨k, hk, rfl⟩ := Option.map_eq_some_iff.mp h
        obtain ⟨hlt, hf, -⟩ := List.findIdx?_eq_some_iff_getElem.mp hk
        refine ⟨by omega, _, ?_, hf⟩
        rw [← List.getElem?_drop, List.getElem?_eq_getElem hlt]
    | false =>
        obtain ⟨k, hk, rfl⟩ := Option.map_eq_some_iff.mp h
        obtain ⟨hlt, hf, -⟩ := List.findIdx?_eq_some_iff_getElem.mp hk
        have hki : k < i := by simpa [Nat.min_eq_left hi.le] using hlt
        refine ⟨by omega, _, ?_, hf⟩
        rw [List.getElem_reverse, ← List.getElem?_eq_getElem, List.getElem?_take_of_lt]
        · simp [Nat.min_eq_left hi.le]
        · simp [Nat.min_eq_left hi.le]
          omega
  rcases Option.or_eq_some_iff.mp h with h | ⟨-, h⟩
  · exact hdirection _ h
  · exact hdirection _ h

/-- A sibling has a neighbour if any other is in the flow. -/
theorem layoutCellGetNeighbour_isSome {siblings : List LayoutCell} {i j : Nat} {c : LayoutCell}
    (hj : siblings[j]? = some c) (hf : inFlow c) (hne : j ≠ i) :
    (layoutCellGetNeighbour siblings i).isSome := by
  have hfound : (layoutCellGetNeighbourDirection siblings i true).isSome ∨
      (layoutCellGetNeighbourDirection siblings i false).isSome := by
    rcases Nat.lt_or_gt_of_ne hne with h | h
    · right
      rw [layoutCellGetNeighbourDirection, Option.isSome_map, List.findIdx?_isSome]
      refine List.any_eq_true.mpr ⟨c, List.mem_reverse.mpr (List.mem_of_getElem? (i := j) ?_), hf⟩
      rw [List.getElem?_take_of_lt h, hj]
    · left
      rw [layoutCellGetNeighbourDirection, Option.isSome_map, List.findIdx?_isSome]
      refine List.any_eq_true.mpr ⟨c, List.mem_of_getElem? (i := j - (i + 1)) ?_, hf⟩
      rw [List.getElem?_drop, Nat.add_sub_cancel' (by omega), hj]
  rw [layoutCellGetNeighbour, Option.isSome_or]
  cases i + 1 != siblings.length with
  | true => simpa using hfound
  | false => simpa using hfound.symm

def LayoutCell.setOffset (c : LayoutCell) (xoff yoff : Int32) : LayoutCell :=
  match c with
  | .windowpane floating wp g => .windowpane floating wp { g with xoff := xoff, yoff := yoff }
  | .node t g cells => .node t { g with xoff := xoff, yoff := yoff } cells

/-- The offset after a cell of size `g` in a node of type `t`. -/
def nextOffset (t : LayoutType) (size : UInt32) (xoff yoff : Int32) : Int32 × Int32 :=
  match t with
  | .leftright => (xoff + (size + 1).toInt32, yoff)
  | .topbottom => (xoff, yoff + (size + 1).toInt32)

mutual

/-- Put a cell at an offset and place what is below it. -/
def layoutFixOffsets1 : Int32 → Int32 → LayoutCell → LayoutCell
  | xoff, yoff, .windowpane floating wp g =>
      .windowpane floating wp { g with xoff := xoff, yoff := yoff }
  | xoff, yoff, .node t g cells =>
      .node t { g with xoff := xoff, yoff := yoff } (fixOffsetsFrom t xoff yoff cells)

/-- Place the children that are left, the next one at `(xoff, yoff)`. Floating cells
carry their own offsets and are skipped, with anything that holds only them. -/
def fixOffsetsFrom (t : LayoutType) : Int32 → Int32 → List LayoutCell → List LayoutCell
  | _, _, [] => []
  | xoff, yoff, c :: cs =>
      if inFlow c then
        let next := nextOffset t (c.size t) xoff yoff
        layoutFixOffsets1 xoff yoff c :: fixOffsetsFrom t next.1 next.2 cs
      else c :: fixOffsetsFrom t xoff yoff cs

end

/-- Recompute every offset from the sizes. -/
def layoutFixOffsets (root : LayoutCell) : LayoutCell := layoutFixOffsets1 0 0 root

end Ztmux.Layout
