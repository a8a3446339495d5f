import Ztmux.ScreenWrite.Cell

/-!
The cells of a grid.

A cell is stored in an entry of four bytes, or, when these cannot hold it, in a record that the
entry has the number of. Characters of more than three bytes are in the table of UTF-8
characters, which a store may add to. Positions and sizes are natural numbers.
-/

namespace Ztmux.Grids

open Utf8 ScreenWrite

/-! ### Data -/

def COLOUR_FLAG_256 : Int := 0x01000000
def COLOUR_FLAG_RGB : Int := 0x02000000
def COLOUR_FLAG_THEME : Int := 0x04000000

/-- `c & flag != 0`, where `flag` is one bit. -/
def colourHas (c flag : Int) : Bool := c / flag % 2 == 1

/-- An extended cell. -/
structure GridExtdEntry where
  data : Utf8Char
  attr : UInt16
  flags : GridFlags
  fg : Int
  bg : Int
  us : Int
  link : Nat

/-- An entry. The two readings of its union are fields of their own; the flags say which is
used, and it is written whenever the flags change. -/
structure GridCellEntry where
  flags : GridFlags
  attr : UInt8
  fg : UInt8
  bg : UInt8
  data : UInt8
  offset : Nat

structure GridLineFlags where
  wrapped : Bool
  extended : Bool
  dead : Bool
  startPrompt : Bool
  startOutput : Bool
  hyperlink : Bool
  deriving DecidableEq, Repr

def GridLineFlags.empty : GridLineFlags := ⟨false, false, false, false, false, false⟩

/-- A line. `cellsize` and `extdsize` are the lengths of the two arrays. -/
structure GridLine where
  celldata : List GridCellEntry
  cellused : Nat
  extddata : List GridExtdEntry
  flags : GridLineFlags

def GridLine.cellsize (gl : GridLine) : Nat := gl.celldata.length

def GridLine.zeroed : GridLine := ⟨[], 0, [], .empty⟩

structure Grid where
  sx : Nat
  sy : Nat
  hscrolled : Nat
  hsize : Nat
  linedata : List GridLine

def GRID_PADDING_CELL : GridCell :=
  ⟨⟨fun i => if i.val = 0 then 0x21 else 0, 0, 0, 0⟩, 0, { GridFlags.empty with padding := true },
    8, 8, 8, 0⟩

def GRID_CLEARED_CELL : GridCell :=
  { GRID_DEFAULT_CELL with flags := { GridFlags.empty with cleared := true } }

def GRID_CLEARED_ENTRY : GridCellEntry :=
  ⟨{ GridFlags.empty with cleared := true }, 0, 8, 8, 0x20, 0⟩

/-! ### Storing a cell -/

def gridStoreCell (gce : GridCellEntry) (gc : GridCell) (c : UInt8) : GridCellEntry :=
  { gce with
    flags := { gc.flags with
      cleared := false
      fg256 := gc.flags.fg256 || colourHas gc.fg COLOUR_FLAG_256
      bg256 := gc.flags.bg256 || colourHas gc.bg COLOUR_FLAG_256 }
    attr := gc.attr.toUInt8
    fg := UInt8.ofNat (gc.fg % 256).toNat
    bg := UInt8.ofNat (gc.bg % 256).toNat
    data := c }

/-- What of a cell an entry cannot hold. -/
def cellNeedsExtended (gc : GridCell) : Bool :=
  decide (0xff < gc.attr) || decide (1 < gc.data.size) || decide (1 < gc.data.width) ||
    colourHas gc.fg COLOUR_FLAG_RGB || colourHas gc.fg COLOUR_FLAG_THEME ||
    colourHas gc.bg COLOUR_FLAG_RGB || colourHas gc.bg COLOUR_FLAG_THEME ||
    decide (gc.us ≠ 8) || decide (gc.link ≠ 0) || gc.flags.tab

def gridNeedExtendedCell (gce : GridCellEntry) (gc : GridCell) : Bool :=
  gce.flags.extended || cellNeedsExtended gc

/-- An extended entry is added to a line for the cell at `px`; it is written by the caller. -/
def gridGetExtendedCell (gl : GridLine) (px : Nat) (gce : GridCellEntry) (flags : GridFlags)
    (gee : GridExtdEntry) : GridLine :=
  { gl with
    celldata := gl.celldata.set px
      { gce with offset := gl.extddata.length, flags := { flags with extended := true } }
    extddata := gl.extddata ++ [gee] }

def GridLine.flagExtended (gl : GridLine) (gc : GridCell) : GridLine :=
  { gl with flags := { gl.flags with
      extended := true
      hyperlink := gl.flags.hyperlink || decide (gc.link ≠ 0) } }

/-- The word an extended cell has for its character; a tab has its width. -/
def extendedWord (table : Utf8Table) (gc : GridCell) : Exec (Utf8Table × Utf8Char) :=
  if gc.flags.tab then pure (table, gc.data.width.toUInt32)
  else do
    let (table, _, uc) ← utf8FromData table gc.data
    pure (table, uc)

def gridExtendedCell (table : Utf8Table) (gl : GridLine) (px : Nat) (gce : GridCellEntry)
    (gc : GridCell) : Exec (Utf8Table × GridLine) := do
  let flags := { gc.flags with cleared := false }
  if gce.flags.extended ∧ gl.extddata.length ≤ gce.offset then throw .fatal
  else do
    let (table, uc) ← extendedWord table gc
    let gee := ⟨uc, gc.attr, flags, gc.fg, gc.bg, gc.us, gc.link⟩
    let gl := gl.flagExtended gc
    if gce.flags.extended then
      pure (table, { gl with extddata := gl.extddata.set gce.offset gee })
    else pure (table, gridGetExtendedCell gl px gce flags gee)

/-! ### Clearing and expanding -/

def blankWord : Utf8Char := utf8SetSize 1 ||| utf8SetWidth 1 ||| 0x20

/-- Whether a colour is one that only an extended cell can have. -/
def wideColour (bg : UInt32) : Bool := bg &&& 0x06000000 != 0

/-- Copy the default into a cell. -/
def gridClearCell (gl : GridLine) (px : Nat) (bg : UInt32) : GridLine :=
  if bg = 8 then { gl with celldata := gl.celldata.set px GRID_CLEARED_ENTRY }
  else if wideColour bg then
    (gridGetExtendedCell gl px GRID_CLEARED_ENTRY GRID_CLEARED_ENTRY.flags
      ⟨blankWord, 0, .empty, 8, asI32 bg, 8, 0⟩).flagExtended GRID_CLEARED_CELL
  else
    { gl with celldata := gl.celldata.set px { GRID_CLEARED_ENTRY with
        flags := { GRID_CLEARED_ENTRY.flags with bg256 := bg &&& 0x01000000 != 0 }
        bg := bg.toUInt8 } }

/-- Clear `n` cells from `px` on. -/
def clearCells (bg : UInt32) (px : Nat) : Nat → GridLine → GridLine
  | 0, gl => gl
  | n + 1, gl => clearCells bg (px + 1) n (gridClearCell gl px bg)

/-- The size that a line is given for `sx` cells on a grid `gsx` wide. -/
def expandSize (gsx sx : Nat) : Nat :=
  if sx < gsx / 4 then gsx / 4
  else if sx < gsx / 2 then gsx / 2
  else if sx < gsx then gsx
  else sx

def gridExpandLine (gsx : Nat) (gl : GridLine) (sx : Nat) (bg : UInt32) : GridLine :=
  if sx ≤ gl.cellsize then gl
  else
    clearCells bg gl.cellsize (expandSize gsx sx - gl.cellsize)
      { gl with celldata := gl.celldata ++
          List.replicate (expandSize gsx sx - gl.cellsize) GRID_CLEARED_ENTRY }

/-- Empty a line and set the background colour if needed. -/
def gridEmptyLine (gsx : Nat) (bg : UInt32) : GridLine :=
  if bg = 8 ∨ bg = 9 then .zeroed else gridExpandLine gsx .zeroed gsx bg

/-! ### Reading and setting cells -/

def gridSetTab (gc : GridCell) (width : Nat) : Exec GridCell :=
  if utf8Size < width then throw .outOfBounds
  else
    pure { gc with
      data := ⟨fun i => if i.val < width then 0x20 else 0, UInt8.ofNat width, UInt8.ofNat width,
        UInt8.ofNat width⟩
      flags := { gc.flags with tab := true, padding := false } }

/-- The cell of an extended entry. -/
def readExtended (table : Utf8Table) (gee : GridExtdEntry) : Exec GridCell :=
  -- an attribute that is not one
  if 0x7fff < gee.attr then throw .fatal
  else do
    let gc : GridCell := ⟨GRID_DEFAULT_CELL.data, gee.attr, gee.flags, gee.fg, gee.bg, gee.us,
      gee.link⟩
    if gee.flags.tab then gridSetTab gc gee.data.toNat
    else do
      let ud ← utf8ToData table gee.data
      pure { gc with data := ud }

/-- The cell of an entry that is not extended. -/
def readPacked (gce : GridCellEntry) : GridCell where
  flags := { gce.flags with fg256 := false, bg256 := false }
  attr := gce.attr.toUInt16
  fg := gce.fg.toNat + if gce.flags.fg256 then COLOUR_FLAG_256 else 0
  bg := gce.bg.toNat + if gce.flags.bg256 then COLOUR_FLAG_256 else 0
  us := 8
  data := utf8Set gce.data
  link := 0

def gridGetCell1 (table : Utf8Table) (gl : GridLine) (px : Nat) : Exec GridCell :=
  match gl.celldata[px]? with
  | none => throw .outOfBounds
  | some gce =>
      if gce.flags.extended then
        match gl.extddata[gce.offset]? with
        | none => pure GRID_DEFAULT_CELL
        | some gee => readExtended table gee
      else pure (readPacked gce)

/-- What `grid_get_cell` reads in a line. -/
def lineGetCell (table : Utf8Table) (gl : GridLine) (px : Nat) : Exec GridCell :=
  if gl.cellsize ≤ px then pure GRID_DEFAULT_CELL else gridGetCell1 table gl px

def gridGetCell (table : Utf8Table) (gd : Grid) (px py : Nat) : Exec GridCell :=
  if gd.hsize + gd.sy ≤ py then pure GRID_DEFAULT_CELL
  else
    match gd.linedata[py]? with
    | none => throw .outOfBounds
    | some gl => lineGetCell table gl px

/-- What `grid_set_cell` does to its line. -/
def lineSetCell (table : Utf8Table) (gsx : Nat) (gl : GridLine) (px : Nat) (gc : GridCell) :
    Exec (Utf8Table × GridLine) :=
  let gl := gridExpandLine gsx gl (px + 1) 8
  let gl := { gl with cellused := if gl.cellused < px + 1 then px + 1 else gl.cellused }
  match gl.celldata[px]? with
  | none => throw .outOfBounds
  | some gce =>
      if gridNeedExtendedCell gce gc then gridExtendedCell table gl px gce gc
      else
        pure (table,
          { gl with celldata := gl.celldata.set px (gridStoreCell gce gc (gc.data.data 0)) })

def gridSetCell (table : Utf8Table) (gd : Grid) (px py : Nat) (gc : GridCell) :
    Exec (Utf8Table × Grid) :=
  if gd.hsize + gd.sy ≤ py then pure (table, gd)
  else
    match gd.linedata[py]? with
    | none => throw .outOfBounds
    | some gl => do
        let (table, gl) ← lineSetCell table gd.sx gl px gc
        pure (table, { gd with linedata := gd.linedata.set py gl })

def gridSetPadding (table : Utf8Table) (gd : Grid) (px py : Nat) : Exec (Utf8Table × Grid) :=
  gridSetCell table gd px py GRID_PADDING_CELL

end Ztmux.Grids
