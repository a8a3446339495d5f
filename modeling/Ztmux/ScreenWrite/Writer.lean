import Ztmux.ScreenWrite.Cell

/-!
The state of a screen writer: the cursor and the scroll region of its screen, the write list of
every line, and the text being collected.

Numbers are those of an `u32` and wrap as in a release build. `trapped` remembers that an unsigned
operation wrapped or that a cell past the last column was written; `badOrder` that the writer gave
up over the order of a write list. Neither changes what the writer does.
-/

namespace Ztmux.ScreenWrite

inductive ItemType
  | text
  | clear
  deriving DecidableEq, Repr

/-- `screen_write_citem`; an item is on the list it is stored in, and `id` is its address. -/
structure Item where
  id : Nat
  x : Nat
  used : Nat
  type : ItemType
  bg : Nat
  gc : GridCell
  wrapped : Bool

structure Mode where
  wrap : Bool
  insert : Bool
  origin : Bool
  sync : Bool

structure Writer (G : Type) where
  grid : G
  sx : Nat
  sy : Nat
  cx : Nat
  cy : Nat
  rupper : Nat
  rlower : Nat
  mode : Mode
  sel : Option (Nat → Nat → Bool)
  /-- The write list. -/
  items : Nat → List Item
  data : Nat → Option (Nat → UInt8)
  /-- The context. -/
  wp : Option Pane
  item : Item
  scrolled : Nat
  bg : Nat
  syncDirty : Option (List Bool)
  /-- Items that are not in use, shared by all writers. -/
  freelist : List Nat
  nextItem : Nat
  trapped : Bool
  badOrder : Bool

abbrev Write (G : Type) := StateM (Writer G)

variable {G : Type} [GridView G]

/-! ### Arithmetic -/

def note (ok : Bool) : Write G Unit :=
  modify fun w => { w with trapped := w.trapped || !ok }

def sub (a b : Nat) : Write G Nat := do
  note (decide (b ≤ a))
  pure ((a + 2 ^ 32 - b) % 2 ^ 32)

def add (a b : Nat) : Write G Nat := do
  note (decide (a + b < 2 ^ 32))
  pure ((a + b) % 2 ^ 32)

/-- The source's `if n > bound { n = bound }`. -/
def atMost (n bound : Nat) : Nat := if bound < n then bound else n

def asU32 (x : Int) : Nat := (x % 2 ^ 32).toNat

/-! ### Cells of the grid -/

def getCell (x y : Nat) : Write G GridCell := do pure (GridView.getCell (← get).grid x y)

/-- Columns `px` to `px + nx - 1` of the screen are written. -/
def touch (px nx : Nat) : Write G Unit := do
  note (decide (nx = 0 ∨ px + nx ≤ (← get).sx))

def setGrid (f : G → G) : Write G Unit := modify fun w => { w with grid := f w.grid }

def gridViewSetCell (x y : Nat) (gc : GridCell) : Write G Unit := do
  touch x 1
  setGrid fun g => GridView.setCell g x y gc

def gridViewSetPadding (x y : Nat) : Write G Unit := do
  touch x 1
  setGrid fun g => GridView.setPadding g x y

/-- Of a default colour only cells that the line has are written, and these are on the screen. -/
def gridViewClear (px py nx ny bg : Nat) : Write G Unit := do
  if COLOUR_DEFAULT bg ∨ ny = 0 then pure () else touch px nx
  setGrid fun g => GridView.clear g px py nx ny bg

def gridViewInsertCells (px py nx bg : Nat) : Write G Unit := do
  let sx := (← get).sx
  if sx - 1 ≤ px then gridViewClear px py 1 1 bg
  else
    let dx ← add px nx
    let left ← sub sx px
    let left ← sub left nx
    touch px left
    touch dx left
    setGrid fun g => GridView.moveCells g dx px py left bg

/-! ### The cursor -/

/-- `-1` leaves the coordinate. -/
def setCursorX (w : Writer G) (cx : Int) : Nat :=
  if cx = -1 then w.cx else if w.sx < asU32 cx then asU32 (wrapI32 w.sx - 1) else asU32 cx

def setCursorY (w : Writer G) (cy : Int) : Nat :=
  if cy = -1 then w.cy
  else if w.sy - 1 < asU32 cy then asU32 (wrapI32 w.sy - 1) else asU32 cy

def setCursor (cx cy : Int) : Write G Unit :=
  modify fun w =>
    if cx ≠ -1 ∧ asU32 cx = w.cx ∧ cy ≠ -1 ∧ asU32 cy = w.cy then w
    else { w with cx := setCursorX w cx, cy := setCursorY w cy }

/-! ### Drawing -/

/-- The rows `y` to `y + ny - 1` are dirty; a map that is too short is made anew, and then all
rows are. -/
def markDirty (sy y ny : Nat) (dirty : Option (List Bool)) : List Bool :=
  let fresh := List.replicate sy false
  let mark (y ny : Nat) (rows : List Bool) : List Bool :=
    rows.mapIdx fun i b => b || decide (y ≤ i ∧ i < y + ny)
  match dirty with
  | none => mark y ny fresh
  | some rows => if rows.length < sy then mark 0 sy fresh else mark y ny rows

def syncRows (y ny : Nat) : Write G Unit :=
  modify fun w =>
    if w.wp.isSome ∧ y < w.sy ∧ ny ≠ 0 then
      { w with syncDirty := some (markDirty w.sy y (atMost ny (w.sy - y)) w.syncDirty) }
    else w

def paneRedraws (w : Writer G) : Bool := w.wp.any fun p => p.redraw

def shouldDrawLines (y ny : Nat) : Write G Bool := do
  let w ← get
  if paneRedraws w then pure false
  else if w.mode.sync then do
    syncRows y ny
    pure false
  else pure true

def shouldDrawLine (y : Nat) : Write G Bool := shouldDrawLines y 1

def paneIsObscured (w : Writer G) : Bool := w.wp.any Pane.obscured

/-! ### Items -/

/-- An item that holds nothing. -/
def zeroedItem (id : Nat) : Item :=
  ⟨id, 0, 0, .text, 0, ⟨⟨fun _ => 0, 0, 0, 0⟩, 0, .empty, 0, 0, 0, 0⟩, false⟩

def getCitem : Write G Item := do
  let w ← get
  match w.freelist with
  | ci :: rest => do
      set { w with freelist := rest }
      pure (zeroedItem ci)
  | [] => do
      set { w with nextItem := w.nextItem + 1 }
      pure (zeroedItem w.nextItem)

def freeCitem (id : Nat) : Write G Unit :=
  modify fun w => { w with freelist := w.freelist ++ [id] }

def setItems (y : Nat) (items : List Item) : Write G Unit :=
  modify fun w => { w with items := Function.update w.items y items }

def newItem : Write G Unit := do
  let ci ← getCitem
  modify fun w => { w with item := ci }

/-- What a trim leaves on the list, the item that a new one goes before, and `*wrapped`. -/
structure Trimmed where
  items : List Item
  before : Option Nat
  wrapped : Option Bool

def Trimmed.cons (ci : Item) (t : Trimmed) : Trimmed := { t with items := ci :: t.items }

/-- An item that covers both sides of the columns `sx` to `ex`. -/
def splitItem (sx ex cex : Nat) (ci : Item) (rest : List Item) (wrapped : Option Bool) :
    Write G Trimmed := do
  let ci2 ← getCitem
  let before ← sub sx ci.x
  let x ← add ex 1
  let after ← sub cex ex
  let ci2 := { ci2 with type := ci.type, bg := ci.bg, gc := ci.gc, x := x, used := after }
  pure ⟨{ ci with used := before } :: ci2 :: rest, some ci2.id, wrapped⟩

/-- An item that covers the end of the columns. -/
def cutStart (ex cex : Nat) (ci : Item) (rest : List Item) (wrapped : Option Bool) :
    Write G Trimmed := do
  let x ← add ex 1
  let used ← sub cex ex
  pure ⟨{ ci with x := x, used := used } :: rest, some ci.id, wrapped⟩

def cutEnd (sx : Nat) (ci : Item) : Write G Item := do
  let used ← sub sx ci.x
  pure { ci with used := used }

/-- `*wrapped`, once an item inside the columns is gone. -/
def wrappedBy (ci : Item) (wrapped : Option Bool) : Option Bool :=
  if ci.x = 0 ∧ ci.wrapped = true then wrapped.map fun _ => true else wrapped

def trimItems (sx ex : Nat) : List Item → Option Bool → Write G Trimmed
  | [], wrapped => pure ⟨[], none, wrapped⟩
  | ci :: rest, wrapped => do
      let cex ← add ci.x ci.used
      let cex ← sub cex 1
      if cex < sx then do
        let t ← trimItems sx ex rest wrapped
        pure (t.cons ci)
      else if ex < ci.x then pure ⟨ci :: rest, some ci.id, wrapped⟩
      else if sx ≤ ci.x ∧ cex ≤ ex then do
        freeCitem ci.id
        trimItems sx ex rest (wrappedBy ci wrapped)
      else if ci.x < sx ∧ sx ≤ cex ∧ cex ≤ ex then do
        let ci ← cutEnd sx ci
        let t ← trimItems sx ex rest wrapped
        pure (t.cons ci)
      else if ex < cex ∧ sx ≤ ci.x ∧ ci.x ≤ ex then cutStart ex cex ci rest wrapped
      else splitItem sx ex cex ci rest wrapped

def collectTrim (y x used : Nat) (wrapped : Option Bool) : Write G (Option Nat × Option Bool) := do
  let ex ← add x used
  let ex ← sub ex 1
  let t ← trimItems x ex ((← get).items y) wrapped
  setItems y t.items
  pure (t.before, t.wrapped)

def insertBefore (before : Nat) (ci : Item) : List Item → List Item
  | [] => []
  | i :: rest => if i.id = before then ci :: i :: rest else i :: insertBefore before ci rest

def insertItem (y : Nat) (before : Option Nat) (ci : Item) : Write G Unit :=
  modify fun w =>
    let items := match before with
      | none => w.items y ++ [ci]
      | some before => insertBefore before ci (w.items y)
    { w with items := Function.update w.items y items }

/-- All items of a line go to the free list. -/
def freeLine (y : Nat) : Write G Unit :=
  modify fun w => { w with
    freelist := w.freelist ++ (w.items y).map Item.id
    items := Function.update w.items y [] }

def collectClear (y n : Nat) : Write G Unit := (List.range' y n).forM freeLine

/-- The items of line `y + 1` go to line `y`, behind those that are there, and its text with
them. -/
def moveLine (y : Nat) : Write G Unit :=
  modify fun w => { w with
    items := Function.update (Function.update w.items y (w.items y ++ w.items (y + 1))) (y + 1) []
    data := Function.update w.data y (w.data (y + 1)) }

def setData (y : Nat) (text : Option (Nat → UInt8)) : Write G Unit :=
  modify fun w => { w with data := Function.update w.data y text }

def collectScroll (bg : Nat) : Write G Unit := do
  let w ← get
  collectClear w.rupper 1
  (List.range' w.rupper (w.rlower - w.rupper)).forM moveLine
  setData w.rlower (w.data w.rupper)
  let ci ← getCitem
  insertItem w.rlower none { ci with x := 0, used := w.sx, type := .clear, bg := bg }

/-! ### Flushing -/

/-- Whether some columns of the item are in the range. -/
def inRange (xoff : Int) (ci : Item) (r : Nat × Nat) : Bool :=
  let rStart : Int := r.1
  let rEnd := wrapI32 (r.1 + r.2 : Nat)
  let cStart := wrapI32 ci.x
  let cEnd := wrapI32 ((ci.x + ci.used) % 2 ^ 32 : Nat)
  let wStart := if cStart + xoff < rStart then rStart - xoff else cStart
  let wEnd := if rEnd < cEnd + xoff then rEnd - xoff else cEnd
  decide (r.2 ≠ 0 ∧ ¬(rEnd ≤ cStart + xoff ∨ cEnd + xoff ≤ rStart) ∧ wStart < wEnd)

def xoffOf (wp : Option Pane) : Int := wp.elim 0 Pane.xoff

def yoffOf (wp : Option Pane) : Int := wp.elim 0 Pane.yoff

/-- Whether any of the item is written. -/
def isWritten (w : Writer G) (y : Nat) (ci : Item) : Bool :=
  let ranges := match w.wp with
    | none => windowVisibleRanges none 0 y w.sx
    | some p => p.seen y ci.id
  ranges.any (inRange (xoffOf w.wp) ci)

/-- The items of a line, of which those that are written leave the list. -/
def flushItems (y : Nat) : List Item → Option Nat → Write G (List Item)
  | [], _ => pure []
  | ci :: rest, last => do
      let _ ← add ci.x ci.used
      let w ← get
      set { w with badOrder := w.badOrder || last.any fun x => decide (ci.x ≤ x) }
      if isWritten w y ci then do
        freeCitem ci.id
        flushItems y rest (some ci.x)
      else do
        let kept ← flushItems y rest last
        pure (ci :: kept)

def collectFlushLine (y : Nat) : Write G Unit := do
  let w ← get
  let wsy := w.wp.elim w.sy Pane.wsy
  if (wsy : Int) ≤ y + yoffOf w.wp then pure ()
  else do
    let kept ← flushItems y (w.items y) none
    setItems y kept

/-- The answer is `false` when the pane is drawn instead. -/
def collectFlushScrolled : Write G Bool := do
  let w ← get
  if paneIsObscured w then pure false
  else if w.wp.any Pane.overlay then do
    set { w with wp := w.wp.map Pane.flagRedraw }
    pure false
  else do
    let height ← sub w.rlower w.rupper
    let height ← add height 1
    modify fun w => { w with scrolled := atMost w.scrolled height }
    let past := w.wp.elim 0 fun p => p.yoff + p.sy - p.wsy
    if 0 < past then do
      let _ ← sub w.rlower past.toNat
      pure true
    else pure true

def discard : Write G Unit := do
  (List.range (← get).sy).forM freeLine
  modify fun w => { w with scrolled := 0, bg := 8 }

def syncLine (y : Nat) : Write G Unit := do
  if ((← get).items y).isEmpty then pure ()
  else do
    let _ ← shouldDrawLine y
    pure ()

def flushLines (scrollOnly : Bool) : Write G Unit := do
  modify fun w => { w with bg := 8 }
  if scrollOnly then pure ()
  else (List.range (← get).sy).forM collectFlushLine

/-- The part of a flush that is reached once the scrolling is done. -/
def flushScrolled (scrollOnly : Bool) : Write G Unit := do
  if ← collectFlushScrolled then do
    modify fun w => { w with scrolled := 0 }
    flushLines scrollOnly
  else discard

def collectFlush (scrollOnly : Bool) : Write G Unit := do
  let w ← get
  if paneRedraws w then discard
  else if w.mode.sync then do
    (List.range w.sy).forM syncLine
    discard
  else if w.scrolled ≠ 0 then flushScrolled scrollOnly
  else flushLines scrollOnly

end Ztmux.ScreenWrite
