import Ztmux.Layout.Resize

/-!
Adding cells to a layout and taking them out.

A cell is reached by its path. What the source does at the cell and at the parents
it climbs to is done on the way back up.
-/

namespace Ztmux.Layout

open LayoutCell

/-! ### Splitting -/

/-- Whether the leaf of size `g` at `e` is big enough to be split along `type`;
`width` and `pad` are those of the scrollbar of its pane. -/
def layoutSplitCheckSpace (w : WindowOptions) (width pad : Int32) (e : Edge) (g : Geometry) :
    LayoutType → Bool
  | .leftright =>
      let minimum := if w.scrollbarsAlways then paneMinimum * 2 + width.toUInt32 + pad.toUInt32
        else paneMinimum * 2 + 1
      !decide (g.sx < minimum)
  | .topbottom =>
      let minimum := if layoutAddBorder w e then paneMinimum * 2 + 2 else paneMinimum * 2 + 1
      decide (minimum ≤ g.sy)

/-- The size asked for the bottom or right half. -/
def splitRequest (g : Geometry) (size : Int32) (before : Bool) (type : LayoutType) : UInt32 :=
  let ss := g.size type
  if size < 0 then (ss / 2 + ss % 2) - 1
  else if before then ss - size.toUInt32 - 1
  else size.toUInt32

/-- The sizes of the two halves of a split. The upper bound is compared against `sx`
for both types. -/
def layoutSplitSizes (g : Geometry) (size : Int32) (before : Bool) (type : LayoutType) :
    UInt32 × UInt32 :=
  let ss := g.size type
  let s2 := splitRequest g size before type
  let s2 := if s2 < paneMinimum then paneMinimum
    else if g.sx - 2 < s2 then ss - 2
    else s2
  (ss - 1 - s2, s2)

/-- The unsigned subtractions that `layoutSplitSizes` makes, in order. -/
def splitSubtractions (g : Geometry) (size : Int32) (before : Bool) (type : LayoutType) :
    List (UInt32 × UInt32) :=
  let ss := g.size type
  let s2 := splitRequest g size before type
  (if size < 0 then [(ss / 2 + ss % 2, 1)]
    else if before then [(ss, size.toUInt32), (ss - size.toUInt32, 1)]
    else []) ++
  (if s2 < paneMinimum then []
    else if g.sx - 2 < s2 then [(g.sx, 2), (ss, 2)]
    else [(g.sx, 2)]) ++
  [(ss, 1), (ss - 1, (layoutSplitSizes g size before type).2)]

/-- The two halves of a cell. -/
def splitGeometry (g : Geometry) (type : LayoutType) (size1 size2 : UInt32) :
    Geometry × Geometry :=
  match type with
  | .leftright =>
      ({ g with sx := size1 }, { g with sx := size2, xoff := g.xoff + (size1 + 1).toInt32 })
  | .topbottom =>
      ({ g with sy := size1 }, { g with sy := size2, yoff := g.yoff + (size1 + 1).toInt32 })

/-- Split the leaf at a path; the answer is what takes its place under `parent`, or
nothing when there is no space. `pane` is the pane the new cell is for. -/
def splitUnder (w : WindowOptions) (width pad : Int32) (type : LayoutType) (size : Int32)
    (before : Bool) (pane : Option Nat) (parent : Option LayoutType) :
    List Nat → Edge → LayoutCell → Exec (Option (List LayoutCell))
  | [], e, .windowpane floating wp g =>
      if floating then throw .fatal
      else if !layoutSplitCheckSpace w width pad e g type then pure none
      else
        let (size1, size2) := layoutSplitSizes g size before type
        let (g1, g2) := splitGeometry g type size1 size2
        let halves := if before then [.windowpane false pane g1, .windowpane false wp g2]
          else [.windowpane false wp g1, .windowpane false pane g2]
        -- A parent of the same type takes the new cell; otherwise a new one is put in.
        pure (some (if parent = some type then halves else [.node type g halves]))
  | i :: path, e, .node t g cells =>
      match cells[i]? with
      | none => throw .nullPointer
      | some c => do
          let r ← splitUnder w width pad type size before pane (some t) path (e.child t cells i) c
          pure (r.map fun cs => [.node t g (cells.take i ++ cs ++ cells.drop (i + 1))])
  | _, _, _ => throw .nullPointer

/-- Split the pane at `path` into two, without `SPAWN_FULLSIZE`. There is no answer
when the pane is too small. -/
def layoutSplitPane (w : WindowOptions) (width pad : Int32) (root : LayoutCell) (path : List Nat)
    (type : LayoutType) (size : Int32) (before : Bool) (pane : Option Nat) :
    Exec (Option LayoutCell) := do
  let r ← splitUnder w width pad type size before pane none path .root root
  pure (r.bind List.head?)

/-! ### Destroying -/

/-- A node that is left with one cell is replaced by that cell. A tiled cell that
becomes the root is put at the origin. -/
def collapse (isRoot : Bool) (t : LayoutType) (g : Geometry) : List LayoutCell → LayoutCell
  | [c] => if isRoot && layoutCellIsTiled c then c.setOffset 0 0 else c
  | cells => .node t g cells

/-- Hand the space of child `i`, which goes out of the flow, to its neighbour. There is
no answer when it has none. -/
def giveToNeighbour (w : WindowOptions) (fuel : Nat) (e : Edge) (t : LayoutType)
    (cells : List LayoutCell) (i : Nat) (size : UInt32) : Exec (Option (List LayoutCell)) :=
  match layoutCellGetNeighbour cells i with
  | none => pure none
  | some j => do
      let ps ← adjustSibling w fuel t (withEdges e t cells) j (wrapI32 (asI32 size + 1))
      pure (some (ps.map Prod.snd))

/-- Take the leaf at a path out of a node. The flag says that the node has dropped out
of the flow with it, and its own space is to be handed on. -/
def destroyIn (w : WindowOptions) (fuel : Nat) (isRoot : Bool) :
    List Nat → Edge → LayoutCell → Exec (LayoutCell × Bool)
  | _, _, .windowpane _ _ _ => throw .nullPointer
  | [], _, .node _ _ _ => throw .nullPointer
  | i :: path, e, .node t g cells =>
      match cells[i]? with
      | none => throw .nullPointer
      | some c =>
          let zeroed : Geometry := if isRoot then g else ⟨0, 0, 0, 0⟩
          if path = [] then
            if !layoutCellIsTiled c then pure (collapse isRoot t g (cells.eraseIdx i), false)
            else do
              match ← giveToNeighbour w fuel e t cells i (c.size t) with
              | some cs => pure (collapse isRoot t g (cs.eraseIdx i), false)
              | none => pure (collapse isRoot t zeroed (cells.eraseIdx i), true)
          else do
            let (c', out) ← destroyIn w fuel false path (e.child t cells i) c
            if out then
              match ← giveToNeighbour w fuel e t cells i (c.size t) with
              | some cs => pure (.node t g (cs.set i c'), false)
              | none => pure (.node t zeroed (cells.set i c'), true)
            else pure (.node t g (cells.set i c'), false)

/-- Destroy the cell at `path` and redistribute the space. Nothing is left when it is
the root. -/
def layoutDestroyCell (w : WindowOptions) (fuel : Nat) (root : LayoutCell) (path : List Nat) :
    Exec (Option LayoutCell) :=
  if path = [] then pure none
  else do
    let (root, _) ← destroyIn w fuel true path .root root
    pure (some root)

end Ztmux.Layout
