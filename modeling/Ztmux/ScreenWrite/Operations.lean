import Ztmux.ScreenWrite.Writer

/-!
The operations of the screen writer, in the order of the source.
-/

namespace Ztmux.ScreenWrite

open Utf8

variable {G : Type} [GridView G]

/-! ### Scrolling -/

/-- What is pending for another background is flushed first. -/
def changeBackground (bg : Nat) : Write G Unit := do
  if bg ≠ (← get).bg then do
    collectFlush true
    modify fun w => { w with bg := bg }
  else pure ()

def scrollOne (bg : Nat) : Write G Unit := do
  let w ← get
  setGrid fun g => GridView.scrollRegionUp g w.rupper w.rlower bg
  collectScroll bg

def countScrolled (lines : Nat) : Write G Unit := do
  let scrolled ← add (← get).scrolled lines
  modify fun w => { w with scrolled := scrolled }

def linefeed (wrapped : Bool) (bg : Nat) : Write G Unit := do
  let w ← get
  if wrapped then setGrid fun g => GridView.setWrapped g w.cy else pure ()
  changeBackground bg
  let w ← get
  if w.cy = w.rlower then do
    scrollOne bg
    countScrolled 1
  else if w.cy < w.sy - 1 then setCursor (-1) (wrapI32 (wrapI32 w.cy + 1))
  else pure ()

/-! ### Cells -/

def gridCellsLookEqual (gc1 gc2 : GridCell) : Bool :=
  decide (gc1.fg = gc2.fg ∧ gc1.bg = gc2.bg ∧ gc1.attr = gc2.attr ∧
    { gc1.flags with cleared := false } = { gc2.flags with cleared := false } ∧
    gc1.link = gc2.link)

def gridCellsEqual (gc1 gc2 : GridCell) : Bool :=
  gridCellsLookEqual gc1 gc2 && decide (gc1.data.width = gc2.data.width) &&
    decide (gc1.data.size = gc2.data.size) &&
    decide (gc1.data.initializedSlice = gc2.data.initializedSlice)

/-- The padding cells at `xx` and left of it are overwritten. The answers are where that stops and
the cell that was read last. -/
def overwritePaddingLeft (cy : Nat) : Nat → GridCell → Write G (Nat × GridCell)
  | 0, last => pure (0, last)
  | xx + 1, _ => do
      let gc ← getCell (xx + 1) cy
      if gc.flags.padding then do
        gridViewSetCell (xx + 1) cy GRID_DEFAULT_CELL
        overwritePaddingLeft cy xx gc
      else pure (xx + 1, gc)

/-- The padding cells from `xx` on, of `n` cells, are overwritten by `cell`. -/
def overwritePaddingRight (cy : Nat) (cell : GridCell) : Nat → Nat → Write G Bool
  | 0, _ => pure false
  | n + 1, xx => do
      let gc ← getCell xx cy
      if gc.flags.padding then do
        gridViewSetCell xx cy cell
        let _ ← overwritePaddingRight cy cell n (xx + 1)
        pure true
      else pure false

/-- What stands for the rest of a tab that is overwritten: its blank, one column wide. -/
def restOfCell (gc : GridCell) : GridCell :=
  if gc.flags.tab then { gc with data := utf8Set 0x20 } else GRID_DEFAULT_CELL

def overwriteStart (gc : GridCell) : Write G Bool := do
  let w ← get
  if gc.flags.padding then do
    let _ ← add w.cx 1
    let r ← overwritePaddingLeft w.cy w.cx gc
    gridViewSetCell r.1 w.cy GRID_DEFAULT_CELL
    pure true
  else pure false

def overwriteEnd (gc : GridCell) (width : Nat) : Write G Bool := do
  let w ← get
  if width ≠ 1 ∨ gc.data.width ≠ 1 ∨ gc.flags.padding = true then do
    let xx ← add w.cx width
    let xx ← sub xx 1
    overwritePaddingRight w.cy (restOfCell gc) (w.sx - (xx + 1)) (xx + 1)
  else pure false

def overwrite (gc : GridCell) (width : Nat) : Write G Bool := do
  let start ← overwriteStart gc
  let finish ← overwriteEnd gc width
  pure (start || finish)

/-- The cell before the cursor, and how many columns it is away. -/
def lastCell (cx cy : Nat) : Write G (Nat × GridCell) := do
  let last ← getCell (cx - 1) cy
  if cx ≠ 1 ∧ last.flags.padding = true then do
    let last ← getCell (cx - 2) cy
    pure (2, last)
  else pure (1, last)

/-- What becomes of a character, as it may be combined with the cell before it: it is combined,
and maybe the two made wide, or it is written on its own, or it is dropped. -/
inductive Combination
  | combine (wide : Bool)
  | write
  | drop
  deriving DecidableEq

def zeroWidth (ud : Utf8Data) : Bool := utf8IsZwj ud || utf8IsVs ud || decide (ud.width = 0)

def alone (ud : Utf8Data) : Combination := if zeroWidth ud then .drop else .write

/-- `always` is the option `variation-selector-always-wide`. -/
def combination (always : Bool) (ud : Utf8Data) (n : Nat) (last : GridCell) : Combination :=
  if n ≠ last.data.width.toNat ∨ last.flags.padding = true then alone ud
  else if zeroWidth ud = true then
    if utf8Size < (last.data.size + ud.size).toNat then .write
    else .combine (!utf8IsZwj ud && utf8IsVs ud && always)
  else if utf8IsModifier ud then
    if last.data.size < 2 ∨ utf8Size < (last.data.size + ud.size).toNat then .write
    else .combine true
  else if utf8HasZwj last.data then
    if utf8Size < (last.data.size + ud.size).toNat then .write else .combine false
  else .write

def combinedCell (last : GridCell) (ud : Utf8Data) (wide : Bool) : GridCell :=
  { last with data := { utf8Append last.data ud with
    width := if wide then 2 else last.data.width } }

/-- The widened cell and its padding. -/
def combineWide (cx cy : Nat) (cell : GridCell) : Write G Nat := do
  let cx ← add cx 1
  let x ← sub cx 2
  gridViewSetCell x cy cell
  let pad ← sub cx 1
  gridViewSetPadding pad cy
  pure cx

def combineNarrow (cx cy n : Nat) (cell : GridCell) : Write G Nat := do
  let x ← sub cx n
  gridViewSetCell x cy cell
  pure cx

/-- Whether all of the `n` columns before `cx` can be seen. -/
def combinedVisible (w : Writer G) (cx cy n : Nat) : Bool :=
  decide (n ≤ ((windowVisibleRanges w.wp (wrapI32 (cx - n : Nat)) (cy + yoffOf w.wp) n).map
    Prod.snd).sum)

def combineInto (ud : Utf8Data) (cx cy n : Nat) (last : GridCell) (wide : Bool) :
    Write G Unit := do
  collectFlush false
  let widen := wide && decide (last.data.width = 1)
  let cell := combinedCell last ud widen
  let n := if widen then 2 else n
  let cx ← if widen then combineWide cx cy cell else combineNarrow cx cy n cell
  if combinedVisible (← get) cx cy n then do
    setCursor (wrapI32 (wrapI32 cx - n)) (wrapI32 cy)
    setCursor (wrapI32 cx) (wrapI32 cy)
  else pure ()

/-- `screen_write_combine`; the answer is whether there is nothing left to write. -/
def combine (always : Bool) (gc : GridCell) : Write G Bool := do
  let w ← get
  if gc.data.size < 2 ∨ w.cx = 0 then pure (zeroWidth gc.data)
  else do
    let r ← lastCell w.cx w.cy
    match combination always gc.data r.1 r.2 with
    | .combine wide => do
        combineInto gc.data w.cx w.cy r.1 r.2 wide
        pure true
    | .write => pure false
    | .drop => pure true

/-- The cells behind a wide character. -/
def setPaddings (cx cy width : Nat) : Write G Unit := do
  let _ ← add cx width
  (List.range' (cx + 1) (width - 1)).forM fun xx => gridViewSetPadding xx cy

def overwriteExtended (width : Nat) : Write G Bool := do
  let w ← get
  if GridView.extended w.grid w.cy then do
    let now ← getCell w.cx w.cy
    overwrite now width
  else pure false

/-- Whether the cell is there already. -/
def sameCell (w : Writer G) (gc : GridCell) : Bool :=
  if GridView.cellsize w.grid w.cy ≤ w.cx then gridCellsEqual gc GRID_DEFAULT_CELL
  else !GridView.entryDiffers w.grid w.cx w.cy gc

def selectedAt (w : Writer G) : Bool := w.sel.any fun s => s w.cx w.cy

def storeCell (gc : GridCell) (skip selected : Bool) : Write G Unit := do
  let w ← get
  if selected ≠ gc.flags.selected then
    gridViewSetCell w.cx w.cy { gc with flags := { gc.flags with selected := selected } }
  else if skip then pure ()
  else gridViewSetCell w.cx w.cy gc

/-- The cursor behind the cell, or on the last column where lines do not wrap. -/
def advance (width : Nat) : Write G Unit := do
  let w ← get
  let notWrap : Int := if w.mode.wrap then 0 else 1
  if w.cx ≤ asU32 (wrapI32 w.sx - notWrap - width) then do
    let cx ← add w.cx width
    setCursor (wrapI32 cx) (-1)
  else setCursor (wrapI32 (wrapI32 w.sx - notWrap)) (-1)

/-- With insert mode what follows the cell is drawn as well. -/
def drawInserted : Write G Unit := do
  if (← get).mode.insert then do
    collectFlush false
    let _ ← shouldDrawLine (← get).cy
    pure ()
  else pure ()

/-- The cell at the cursor, where it fits; `skip` says that nothing was changed so far. -/
def putCell (gc : GridCell) (skip : Bool) : Write G Unit := do
  let width := gc.data.width.toNat
  let changed ← overwriteExtended width
  let w ← get
  setPaddings w.cx w.cy width
  let w ← get
  let skip := skip && !changed && decide (width ≤ 1) && sameCell w gc
  let selected := selectedAt w
  storeCell gc skip selected
  advance width
  drawInserted
  if skip && !selected then pure ()
  else do
    let _ ← shouldDrawLine (← get).cy
    pure ()

/-- A line that the cell does not fit on is wrapped. -/
def wrapCell (width : Nat) : Write G Unit := do
  let w ← get
  if w.mode.wrap then do
    let bound ← sub w.sx width
    if bound < w.cx then do
      linefeed true 8
      setCursor 0 (-1)
      collectFlush true
    else pure ()
  else pure ()

def insertSpace (width : Nat) : Write G Unit := do
  let w ← get
  if w.mode.insert then gridViewInsertCells w.cx w.cy width 8 else pure ()

/-- Where lines do not wrap a wide character needs room on its line. -/
def doesNotFit (w : Writer G) (width : Nat) : Prop :=
  w.mode.wrap = false ∧ 1 < width ∧ (w.sx < width ∨ (w.cx ≠ w.sx ∧ w.sx - width < w.cx))

instance (w : Writer G) (width : Nat) : Decidable (doesNotFit w width) := by
  unfold doesNotFit
  infer_instance

def writeCell (gc : GridCell) : Write G Unit := do
  let width := gc.data.width.toNat
  let w ← get
  if doesNotFit w width then pure ()
  else do
    insertSpace width
    wrapCell width
    let bound ← sub w.sx width
    let now ← get
    if bound < now.cx ∨ now.sy - 1 < now.cy then pure ()
    else putCell gc (!w.mode.insert)

/-- `screen_write_cell` -/
def cell (always : Bool) (gc : GridCell) : Write G Unit := do
  if gc.flags.padding then pure ()
  else if ← combine always gc then pure ()
  else do
    collectFlush true
    writeCell gc

/-! ### Collected text -/

/-- What the text does to the cells left of it. -/
def clearBefore (cx cy : Nat) (gc : GridCell) : Write G Unit := do
  if cx = 0 then pure ()
  else do
    let r ← overwritePaddingLeft cy cx gc
    if 1 < r.2.data.width then gridViewSetCell r.1 cy GRID_DEFAULT_CELL else pure ()

def textAt (w : Writer G) (y x : Nat) : Nat → UInt8 :=
  fun i => (w.data y).elim 0 fun text => text (x + i)

/-- The cells of a collected item. -/
def writeItem (ci : Item) : Write G Unit := do
  let w ← get
  clearBefore w.cx w.cy ci.gc
  touch w.cx ci.used
  setGrid fun g => GridView.setCells g w.cx w.cy ci.gc (textAt w w.cy ci.x) ci.used
  let cx ← add w.cx ci.used
  setCursor (wrapI32 cx) (-1)
  let w ← get
  let _ ← overwritePaddingRight w.cy GRID_DEFAULT_CELL (w.sx - w.cx) w.cx
  pure ()

def collectEnd : Write G Unit := do
  let w ← get
  if w.item.used = 0 then pure ()
  else do
    let r ← collectTrim w.cy w.cx w.item.used (some w.item.wrapped)
    let ci := { w.item with x := w.cx, wrapped := r.2.getD w.item.wrapped }
    insertItem w.cy r.1 ci
    newItem
    writeItem ci

/-- Whether the cell can be collected. -/
def isPlain (w : Writer G) (gc : GridCell) : Prop :=
  gc.data.width = 1 ∧ gc.data.size = 1 ∧ gc.data.data 0 < 0x7f ∧ gc.flags.tab = false ∧
    gc.attr &&& GRID_ATTR_CHARSET = 0 ∧ w.mode.wrap = true ∧ w.mode.insert = false ∧ w.sel = none

instance (w : Writer G) (gc : GridCell) : Decidable (isPlain w gc) := by
  unfold isPlain
  infer_instance

/-- A full line ends the collection. -/
def endFull : Write G Unit := do
  let w ← get
  if w.sx - 1 < w.cx ∨ w.sx - 1 - w.cx < w.item.used then collectEnd else pure ()

def wrapCollected : Write G Unit := do
  let w ← get
  if w.sx - 1 < w.cx then do
    modify fun w => { w with item := { w.item with wrapped := true } }
    linefeed true 8
    setCursor 0 (-1)
  else pure ()

/-- One more byte of text; it is kept with the line, which has room for one of each column. -/
def collectByte (gc : GridCell) : Write G Unit := do
  let w ← get
  let x ← add w.cx w.item.used
  touch x 1
  let used ← add w.item.used 1
  let text := (w.data w.cy).getD fun _ => 0
  modify fun w => { w with
    data := Function.update w.data w.cy (some (Function.update text x (gc.data.data 0)))
    item := { w.item with gc := if w.item.used = 0 then gc else w.item.gc, used := used } }

def collectAdd (always : Bool) (gc : GridCell) : Write G Unit := do
  let w ← get
  if isPlain w gc then do
    endFull
    wrapCollected
    collectByte gc
  else do
    collectEnd
    collectFlush false
    cell always gc

/-! ### Starting and stopping -/

def start : Write G Unit := do
  newItem
  modify fun w => { w with scrolled := 0, bg := 8 }

def stop : Write G Unit := do
  collectEnd
  collectFlush false
  freeCitem (← get).item.id

end Ztmux.ScreenWrite
