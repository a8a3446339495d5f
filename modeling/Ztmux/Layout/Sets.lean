import Ztmux.Layout.Spread

/-!
The preset layouts.

An arrangement frees the nodes of the old layout and puts the cells of the panes, which it
keeps, into a new one. The cells are given in the order of the window's pane list, with
the sizes they had. Panes, rows and columns are counted in natural numbers.
-/

namespace Ztmux.Layout

open LayoutCell

/-- What the arrangements read from a window. -/
structure LayoutWindow where
  sx : UInt32
  sy : UInt32
  /-- The layout cells of its panes. -/
  panes : List LayoutCell
  options : WindowOptions
  mainPaneHeight : Text
  otherPaneHeight : Text
  mainPaneWidth : Text
  otherPaneWidth : Text
  tiledLayoutMaxColumns : Nat

namespace LayoutWindow

def size (w : LayoutWindow) : LayoutType → UInt32
  | .leftright => w.sx
  | .topbottom => w.sy

def mainPaneSize (w : LayoutWindow) : LayoutType → Text
  | .leftright => w.mainPaneWidth
  | .topbottom => w.mainPaneHeight

def otherPaneSize (w : LayoutWindow) : LayoutType → Text
  | .leftright => w.otherPaneWidth
  | .topbottom => w.otherPaneHeight

end LayoutWindow

/-- `window_count_panes` without the floating ones. -/
def windowCountPanes (w : LayoutWindow) : Nat := w.panes.countP layoutCellIsTiled

/-- Sizes along a direction and across it, at the origin. -/
def sized (t : LayoutType) (along across : UInt32) : Geometry :=
  match t with
  | .leftright => ⟨along, across, 0, 0⟩
  | .topbottom => ⟨across, along, 0, 0⟩

@[simp] theorem size_sized (t : LayoutType) (along across : UInt32) :
    (sized t along across).size t = along := by
  cases t <;> rfl

@[simp] theorem size_sized_across (t : LayoutType) (along across : UInt32) :
    (sized t along across).size t.across = across := by
  cases t <;> rfl

/-- `layout_set_size`. -/
def layoutSetSize (g : Geometry) : LayoutCell → LayoutCell
  | .windowpane floating wp _ => .windowpane floating wp g
  | .node t _ cells => .node t g cells

/-! ### Even layouts -/

/-- The cell of a pane in its new node, which `layout_spread_cell` resizes then. -/
def evenCell (w : LayoutWindow) : LayoutCell → LayoutCell
  | .windowpane false wp g => .windowpane false wp { g with sx := w.sx, sy := w.sy }
  | c => c

def layoutSetEven (w : LayoutWindow) (fuel : Nat) (type : LayoutType) :
    Exec (Option LayoutCell) :=
  let n := windowCountPanes w
  if n ≤ 1 then pure none
  else do
    let needed := UInt32.ofNat n * (paneMinimum + 1) - 1
    let along := if needed < w.size type then w.size type else needed
    let lc := .node type (sized type along (w.size type.across)) (w.panes.map (evenCell w))
    let (lc, _) ← layoutSpreadCell w.options fuel .root lc
    pure (some (layoutFixOffsets lc))

def layoutSetEvenH (w : LayoutWindow) (fuel : Nat) : Exec (Option LayoutCell) :=
  layoutSetEven w fuel .leftright

def layoutSetEvenV (w : LayoutWindow) (fuel : Nat) : Exec (Option LayoutCell) :=
  layoutSetEven w fuel .topbottom

/-! ### Main layouts -/

/-- `str::parse::<i64>`. -/
def parseI64 (s : Text) : Option Int :=
  let (negative, digits) := match s with
    | '-' :: ds => (true, ds)
    | '+' :: ds => (false, ds)
    | ds => (false, ds)
  if digits.isEmpty || !digits.all Char.isDigit then none
  else
    let n : Int := digits.foldl (fun n d => 10 * n + (d.toNat - 48)) 0
    let n := if negative then -n else n
    if n < -2 ^ 63 ∨ 2 ^ 63 ≤ n then none else some n

/-- `char::is_whitespace`. -/
def isWhitespace (c : Char) : Bool :=
  (9 ≤ c.toNat && c.toNat ≤ 13) || c.toNat == 0x20 || c.toNat == 0x85 || c.toNat == 0xa0 ||
    c.toNat == 0x1680 || (0x2000 ≤ c.toNat && c.toNat ≤ 0x200a) || c.toNat == 0x2028 ||
    c.toNat == 0x2029 || c.toNat == 0x202f || c.toNat == 0x205f || c.toNat == 0x3000

def strtonum (s : Text) (minval maxval : Int) : Option Int :=
  if maxval < minval then none
  else match parseI64 (s.dropWhile isWhitespace) with
    | none => none
    | some n => if n < minval ∨ maxval < n then none else some n

/-- A number, or a percentage of `curval`; nothing when there is a cause. -/
def argsStringPercentage (value : Text) (minval maxval curval : Int) : Option Int :=
  if value.isEmpty then none
  else if value.getLast? = some '%' then
    match strtonum value.dropLast 0 1000 with
    | none => none
    | some ll =>
        let ll := curval * ll / 100
        if ll < minval ∨ maxval < ll then none else some ll
  else strtonum value minval maxval

/-- The size of the main pane and that of the others along the direction they share `space`
in; `mainDefault` is for an option that cannot be read. -/
def mainSizes (mainPane otherPane : Text) (mainDefault space : UInt32) : UInt32 × UInt32 :=
  let main := match argsStringPercentage mainPane 0 space.toNat space.toNat with
    | none => mainDefault
    | some ll => UInt32.ofInt ll
  if space ≤ main + paneMinimum then
    (if space ≤ paneMinimum + paneMinimum then paneMinimum else space - paneMinimum, paneMinimum)
  else
    match argsStringPercentage otherPane 0 space.toNat space.toNat with
    | none => (main, space - main)
    | some ll =>
        let other := UInt32.ofInt ll
        if other = 0 then (main, space - main)
        else if space < other ∨ space - other < main then (main, space - main)
        else (space - other, other)

/-- The first pane that has a tiled cell and the panes after it, floating ones left out. -/
def layoutSetFirstTiled (panes : List LayoutCell) : Option (LayoutCell × List LayoutCell) :=
  match panes.dropWhile fun c => !layoutCellIsTiled c with
  | [] => none
  | c :: cs => some (c, cs.dropWhile fun c => !layoutCellIsTiled c)

/-- The panes without the main pane. -/
def otherPanes (panes : List LayoutCell) : List LayoutCell :=
  panes.takeWhile (fun c => !layoutCellIsTiled c) ++
    (panes.dropWhile fun c => !layoutCellIsTiled c).tail

/-- A main pane and the others beside it along `type`; mirrored, the others come first. -/
def layoutSetMain (w : LayoutWindow) (fuel : Nat) (type : LayoutType) (mirrored : Bool)
    (mainDefault : UInt32) : Exec (Option LayoutCell) :=
  if windowCountPanes w ≤ 1 then pure none
  else do
    -- without the main pane
    let n := windowCountPanes w - 1
    let space := w.size type - 1
    let (main, other) := mainSizes (w.mainPaneSize type) (w.otherPaneSize type) mainDefault space
    let needed := UInt32.ofNat n * (paneMinimum + 1) - 1
    let across := if needed < w.size type.across then w.size type.across else needed
    let g := sized type (main + other + 1) across
    match layoutSetFirstTiled w.panes with
    | none => throw .nullPointer
    | some (wpmain, after) =>
        let lcmain := layoutSetSize (sized type main across) wpmain
        let lcother ←
          if n = 1 then
            -- the cell of the other pane keeps the size it had
            match after with
            | [] => throw .nullPointer
            | wp :: _ => pure wp
          else do
            let cells := (otherPanes w.panes).map fun c =>
              if layoutCellIsTiled c then layoutSetSize (sized type other paneMinimum) c else c
            let lcother := .node type.across (sized type other across) cells
            let siblings := if mirrored then [lcother, lcmain] else [lcmain, lcother]
            let e := Edge.root.child type siblings (if mirrored then 0 else 1)
            let (lcother, _) ← layoutSpreadCell w.options fuel e lcother
            pure lcother
        let cells := if mirrored then [lcother, lcmain] else [lcmain, lcother]
        pure (some (layoutFixOffsets (.node type g cells)))

def layoutSetMainH (w : LayoutWindow) (fuel : Nat) : Exec (Option LayoutCell) :=
  layoutSetMain w fuel .topbottom false 24

def layoutSetMainHMirrored (w : LayoutWindow) (fuel : Nat) : Exec (Option LayoutCell) :=
  layoutSetMain w fuel .topbottom true 24

def layoutSetMainV (w : LayoutWindow) (fuel : Nat) : Exec (Option LayoutCell) :=
  layoutSetMain w fuel .leftright false 80

def layoutSetMainVMirrored (w : LayoutWindow) (fuel : Nat) : Exec (Option LayoutCell) :=
  layoutSetMain w fuel .leftright true 80

/-! ### The tiled layout -/

/-- How many rows and columns there are for `n` panes. -/
def tiledCounts (maxColumns n : Nat) : Nat → Nat → Nat → Exec (Nat × Nat)
  | 0, _, _ => throw .outOfFuel
  | fuel + 1, rows, columns =>
      if rows * columns < n then
        let rows := rows + 1
        if rows * columns < n ∧ (maxColumns = 0 ∨ columns < maxColumns) then
          tiledCounts maxColumns n fuel rows (columns + 1)
        else tiledCounts maxColumns n fuel rows columns
      else pure (rows, columns)

/-- The columns of a row: `lcchild` first, then the panes behind it, `panes`. What is left
begins with the pane that did not go in. -/
def tiledColumns (width height : UInt32) : Nat → LayoutCell → List LayoutCell →
    List LayoutCell × List LayoutCell
  | 0, lcchild, panes => ([], lcchild :: panes)
  | i + 1, lcchild, panes =>
      let lcnew := layoutSetSize ⟨width, height, 0, 0⟩ lcchild
      match panes.dropWhile fun c => !layoutCellIsTiled c with
      | [] => ([lcnew], [])
      | wp :: panes =>
          let (cells, left) := tiledColumns width height i wp panes
          (lcnew :: cells, left)

/-- Change the last cell of a list. -/
def adjustLast (w : WindowOptions) (fuel : Nat) (type : LayoutType) (e : Edge)
    (cells : List LayoutCell) (change : Int) : Exec (List LayoutCell) :=
  match cells.getLast? with
  | none => throw .nullPointer
  | some c => do
      let c ← layoutResizeAdjust w type fuel e c change
      pure (cells.dropLast ++ [c])

/-- A row of the grid, as wide as the window. -/
def tiledRow (w : LayoutWindow) (fuel : Nat) (width height : UInt32) (cells : List LayoutCell) :
    Exec LayoutCell := do
  let used := UInt32.ofNat cells.length * (width + 1) - 1
  let cells ←
    if w.sx ≤ used then pure cells
    -- the cell is a pane, and which edges it touches does not count when it grows
    else adjustLast w.options fuel .leftright .root cells (asI32 (w.sx - used))
  pure (.node .leftright ⟨w.sx, height, 0, 0⟩ cells)

/-- The rows from row `j` on, of which `k` are left. -/
def tiledRows (w : LayoutWindow) (fuel : Nat) (n columns : Nat) (width height : UInt32) :
    Nat → Nat → List LayoutCell → Exec (List LayoutCell)
  | _, 0, _ => pure []
  | j, k + 1, panes =>
      match panes.dropWhile fun c => !layoutCellIsTiled c with
      | [] => pure []
      | lcchild :: panes =>
          if n - j * columns = 1 ∨ columns = 1 then do
            let cells ← tiledRows w fuel n columns width height (j + 1) k panes
            pure (layoutSetSize ⟨w.sx, height, 0, 0⟩ lcchild :: cells)
          else do
            let (cells, panes) := tiledColumns width height columns lcchild panes
            let lcrow ← tiledRow w fuel width height cells
            let cells ← tiledRows w fuel n columns width height (j + 1) k panes
            pure (lcrow :: cells)

/-- The greatest size that `count` cells with borders between them can have in `size`. -/
def tiledSize (size : UInt32) (count : Nat) : UInt32 :=
  let each := (size - (UInt32.ofNat count - 1)) / UInt32.ofNat count
  if each < paneMinimum then paneMinimum else each

def layoutSetTiled (w : LayoutWindow) (fuel : Nat) : Exec (Option LayoutCell) :=
  let n := windowCountPanes w
  if n ≤ 1 then pure none
  else do
    let (rows, columns) ← tiledCounts w.tiledLayoutMaxColumns n fuel 1 1
    let width := tiledSize w.sx columns
    let height := tiledSize w.sy rows
    let sx := (width + 1) * UInt32.ofNat columns - 1
    let sx := if sx < w.sx then w.sx else sx
    let sy := (height + 1) * UInt32.ofNat rows - 1
    let sy := if sy < w.sy then w.sy else sy
    let cells ← tiledRows w fuel n columns width height 0 rows w.panes
    let used := UInt32.ofNat rows * height + UInt32.ofNat rows - 1
    let cells ←
      if used < w.sy then
        adjustLast w.options fuel .topbottom (Edge.root.child .topbottom cells (cells.length - 1))
          cells
          (asI32 (w.sy - used))
      else pure cells
    pure (some (layoutFixOffsets (.node .topbottom ⟨sx, sy, 0, 0⟩ cells)))

/-- The entries of `LAYOUT_SETS`. -/
inductive LayoutSet
  | evenHorizontal
  | evenVertical
  | mainHorizontal
  | mainHorizontalMirrored
  | mainVertical
  | mainVerticalMirrored
  | tiled
deriving DecidableEq, Repr

def LayoutSet.arrange (w : LayoutWindow) (fuel : Nat) : LayoutSet → Exec (Option LayoutCell)
  | .evenHorizontal => layoutSetEvenH w fuel
  | .evenVertical => layoutSetEvenV w fuel
  | .mainHorizontal => layoutSetMainH w fuel
  | .mainHorizontalMirrored => layoutSetMainHMirrored w fuel
  | .mainVertical => layoutSetMainV w fuel
  | .mainVerticalMirrored => layoutSetMainVMirrored w fuel
  | .tiled => layoutSetTiled w fuel

end Ztmux.Layout
