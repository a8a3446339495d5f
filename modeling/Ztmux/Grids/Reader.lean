import Ztmux.Grids.Store

/-!
Reading a grid.

A reader has a place on a grid and moves it by what is there. A line is as long as its last cell
that is not blank, within the width of the grid, and a line that is wrapped goes on in the next one.
-/

namespace Ztmux.Grids

open Utf8 ScreenWrite

/-! ### Lines -/

def gridGetLine (gd : Grid) (line : Nat) : Exec GridLine :=
  match gd.linedata[line]? with
  | none => throw .outOfBounds
  | some gl => pure gl

def isBlank (gc : GridCell) : Bool :=
  !gc.flags.padding && gc.data.size == 1 && gc.data.data 0 == 0x20

section

variable (table : Utf8Table) (gd : Grid)

def trimBlanks (py : Nat) : Nat → Exec Nat
  | 0 => pure 0
  | px + 1 => do
      let gc ← gridGetCell table gd px py
      if isBlank gc then trimBlanks py px else pure (px + 1)

def gridLineLength (py : Nat) : Exec Nat := do
  let gl ← gridGetLine gd py
  trimBlanks table gd py (if gd.sx < gl.cellsize then gd.sx else gl.cellsize)

def lastLine : Nat := gd.hsize + gd.sy - 1

end

/-- The place of a reader. -/
structure GridReader where
  cx : Nat
  cy : Nat
  deriving DecidableEq, Repr

/-! ### Jumping to a character -/

/-- Whether a cell holds this character. -/
def gridReaderCellEqualsData (gc : GridCell) (ud : Utf8Data) : Bool :=
  !gc.flags.padding && gc.data.size == ud.size && gc.data.initializedSlice == ud.initializedSlice

section

variable (table : Utf8Table) (gd : Grid) (jc : Utf8Data)

/-- Look for the character in the next `n` columns of a line. -/
def jumpInLine (py : Nat) : Nat → Nat → Exec (Option Nat)
  | 0, _ => pure none
  | n + 1, px => do
      let gc ← gridGetCell table gd px py
      if gridReaderCellEqualsData gc jc then pure (some px) else jumpInLine py n (px + 1)

/-- Look in a line and in those that it wraps into. The number is that of the lines below. -/
def jumpLines : Nat → Nat → Nat → Exec (Option (Nat × Nat))
  | 0, px, py => do
      let xx ← gridLineLength table gd py
      let found ← jumpInLine table gd jc py (xx - px) px
      pure (found.map fun px => (px, py))
  | n + 1, px, py => do
      let xx ← gridLineLength table gd py
      let found ← jumpInLine table gd jc py (xx - px) px
      match found with
      | some px => pure (some (px, py))
      | none => do
          let gl ← gridGetLine gd py
          if !gl.flags.wrapped then pure none else jumpLines n 0 (py + 1)

/-- Jump forward to a character. -/
def gridReaderCursorJump (gr : GridReader) : Exec (Bool × GridReader) :=
  if lastLine gd < gr.cy then pure (false, gr)
  else do
    let found ← jumpLines table gd jc (lastLine gd - gr.cy) gr.cx gr.cy
    match found with
    | none => pure (false, gr)
    | some (px, py) => pure (true, ⟨px, py⟩)

/-- Look in the columns to the left of `px`. -/
def jumpBackInLine (py : Nat) : Nat → Exec (Option Nat)
  | 0 => pure none
  | px + 1 => do
      let gc ← gridGetCell table gd px py
      if gridReaderCellEqualsData gc jc then pure (some px) else jumpBackInLine py px

/-- Look in the lines above `py`, in the first `xx` columns of the last of them. -/
def jumpBackLines : Nat → Nat → Exec (Option (Nat × Nat))
  | 0, _ => pure none
  | 1, xx => do
      let found ← jumpBackInLine table gd jc 0 xx
      pure (found.map fun px => (px, 0))
  | above + 2, xx => do
      let found ← jumpBackInLine table gd jc (above + 1) xx
      match found with
      | some px => pure (some (px, above + 1))
      | none => do
          let gl ← gridGetLine gd above
          if !gl.flags.wrapped then pure none
          else do
            let xx ← gridLineLength table gd above
            jumpBackLines (above + 1) xx

def gridReaderCursorJumpBack (gr : GridReader) : Exec (Bool × GridReader) := do
  let found ← jumpBackLines table gd jc (gr.cy + 1) (gr.cx + 1)
  match found with
  | none => pure (false, gr)
  | some (px, py) => pure (true, ⟨px, py⟩)

end

end Ztmux.Grids
