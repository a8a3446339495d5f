import Ztmux.Grids.Reader
import Ztmux.Utf8.Decode

/-!
Moving by words.

Going forward, a line that is wrapped is read to the width of the grid, and another one up to the
blank behind its last character. Going back, blanks are left out by starting at the length of a
line, and words that are wrapped are followed from the width of the grid. The names of the functions
of the reader are those of the source.
-/

namespace Ztmux.Grids

open Utf8 ScreenWrite

/-! ### Sets of characters -/

/-- The characters of a string, one after the other; a byte that begins none is one of its own. -/
def fromcstrLoop (width : Width) (s : List UInt8) : Nat → Nat → Exec (List Utf8Data)
  | 0, _ => throw .outOfFuel
  | fuel + 1, i =>
      match s[i]? with
      | none => pure []
      | some ch => do
          let r ← utf8Decode width s fuel i ch
          if r.2.1 = .done then do
            let dst ← fromcstrLoop width s fuel r.1
            pure (r.2.2 :: dst)
          else do
            let dst ← fromcstrLoop width s fuel (r.1 + 1)
            pure (utf8Set (s.getD r.1 0) :: dst)

def utf8Fromcstr (width : Width) (src : List UInt8) (fuel : Nat) : Exec (List Utf8Data) :=
  fromcstrLoop width src fuel 0

/-- Whether a string has a character. -/
def utf8Cstrhas (width : Width) (s : List UInt8) (fuel : Nat) (ud : Utf8Data) : Exec Bool := do
  let copy ← utf8Fromcstr width s fuel
  pure ((copy.takeWhile fun c => decide (c.size ≠ 0)).any fun c => c.size ==
    ud.size && c.initializedSlice == ud.initializedSlice)

def WHITESPACE : List UInt8 := [0x09, 0x20]

section

variable (table : Utf8Table) (gd : Grid) (width : Width)

/-- The cell that padding belongs to, and its column. At the start of a line the column wraps
around, and the cell is a default one. -/
def paddedCell (py : Nat) : Nat → Exec (GridCell × Nat)
  | 0 => pure (GRID_DEFAULT_CELL, 2 ^ 32 - 1)
  | pxx + 1 => do
      let gc ← gridGetCell table gd pxx py
      if 0 < pxx ∧ gc.flags.padding then paddedCell py pxx else pure (gc, pxx)

/-- Check if a character is in a set: the number of columns, or 0. -/
def gridInSet (set : List UInt8) (fuel px py : Nat) : Exec Nat := do
  let gc ← gridGetCell table gd px py
  if 0x09 ∈ set ∧ gc.flags.tab then pure gc.data.width.toNat
  else do
    let tab ← if 0x09 ∈ set ∧ gc.flags.padding then paddedCell table gd py px
        else pure (GRID_DEFAULT_CELL, px)
    if tab.1.flags.tab then pure ((tab.1.data.width.toNat + 2 ^ 32 - (px - tab.2)) % 2 ^ 32)
    else if gc.flags.padding then pure 0
    else do
      let has ← utf8Cstrhas width set fuel gc.data
      pure has.toNat

def gridReaderInSet (set : List UInt8) (fuel : Nat) (gr : GridReader) : Exec Bool := do
  let n ← gridInSet table gd width set fuel gr.cx gr.cy
  pure (decide (n ≠ 0))

/-! ### The cursor -/

/-- Move left to a cell that is not padding. -/
def skipPadding (cy : Nat) : Nat → Exec Nat
  | 0 => pure 0
  | cx + 1 => do
      let gc ← gridGetCell table gd (cx + 1) cy
      if gc.flags.padding then skipPadding cy cx else pure (cx + 1)

def gridReaderCursorDown (gr : GridReader) : Exec GridReader := do
  let cy := if gr.cy < lastLine gd then gr.cy + 1 else gr.cy
  let cx ← skipPadding table gd cy gr.cx
  pure ⟨cx, cy⟩

def gridReaderCursorUp (gr : GridReader) : Exec GridReader := do
  let cy := gr.cy - 1
  let cx ← skipPadding table gd cy gr.cx
  pure ⟨cx, cy⟩

/-- The first of the lines that are joined to this one. -/
def firstWrapped : Nat → Exec Nat
  | 0 => pure 0
  | cy + 1 => do
      let gl ← gridGetLine gd cy
      if gl.flags.wrapped then firstWrapped cy else pure (cy + 1)

def gridReaderCursorStartOfLine (gr : GridReader) (wrap : Bool) : Exec GridReader := do
  let cy ← if wrap then firstWrapped gd gr.cy else pure gr.cy
  pure ⟨0, cy⟩

/-- The last of the lines that are joined to this one. The number is that of the lines below. -/
def lastWrapped : Nat → Nat → Exec Nat
  | 0, cy => pure cy
  | n + 1, cy => do
      let gl ← gridGetLine gd cy
      if gl.flags.wrapped then lastWrapped n (cy + 1) else pure cy

def gridReaderCursorEndOfLine (gr : GridReader) (wrap all : Bool) : Exec GridReader := do
  let cy ← if wrap then lastWrapped gd (lastLine gd - gr.cy) gr.cy else pure gr.cy
  if all then pure ⟨gd.sx, cy⟩
  else do
    let cx ← gridLineLength table gd cy
    pure ⟨cx, cy⟩

/-- The last column of a line: that of the grid, or the blank behind its last character. -/
def lineLimit (cy : Nat) : Exec Nat := do
  let gl ← gridGetLine gd cy
  if gl.flags.wrapped then pure (gd.sx - 1) else gridLineLength table gd cy

/-- Go on to the next lines while the cursor is behind the last column. -/
def gridReaderHandleWrap : Nat → GridReader → Nat → Exec (Bool × GridReader × Nat)
  | 0, _, _ => throw .outOfFuel
  | fuel + 1, gr, xx =>
      if xx < gr.cx then
        if gr.cy = lastLine gd then pure (false, gr, xx)
        else do
          let gr ← gridReaderCursorStartOfLine gd gr false
          let gr ← gridReaderCursorDown table gd gr
          let xx ← lineLimit table gd gr.cy
          gridReaderHandleWrap fuel gr xx
      else pure (true, gr, xx)

/-! ### Forward -/

/-- Move right at least once, while the cells are of the word. -/
def skipWord (goesOn : GridReader → Exec Bool) : Nat → GridReader → Nat → Exec (GridReader × Nat)
  | 0, _, _ => throw .outOfFuel
  | fuel + 1, gr, xx => do
      let (more, gr, xx) ← gridReaderHandleWrap table gd (fuel + 1) { gr with cx := gr.cx + 1 } xx
      if !more then pure (gr, xx)
      else do
        let go ← goesOn gr
        if go then skipWord goesOn fuel gr xx else pure (gr, xx)

/-- Move right while the cells are blank. -/
def skipBlanks (whitespace : GridReader → Exec Bool) : Nat → GridReader → Nat → Exec GridReader
  | 0, _, _ => throw .outOfFuel
  | fuel + 1, gr, xx => do
      let (more, gr, xx) ← gridReaderHandleWrap table gd (fuel + 1) gr xx
      if !more then pure gr
      else do
        let blank ← whitespace gr
        if blank then skipBlanks whitespace fuel { gr with cx := gr.cx + 1 } xx else pure gr

/-- Move to the start of the next word, given what tells blanks and separators. -/
def nextWord (whitespace separators : GridReader → Exec Bool) (fuel : Nat) (gr : GridReader) :
    Exec GridReader := do
  -- Do not break up wrapped words.
  let xx ← lineLimit table gd gr.cy
  let (more, gr, xx) ← gridReaderHandleWrap table gd fuel gr xx
  if !more then pure gr
  else do
    let blank ← whitespace gr
    if blank then skipBlanks table gd whitespace fuel gr xx
    else do
      let separator ← separators gr
      let (gr, xx) ←
        if separator then
          skipWord table gd (fun gr => do
            let separator ← separators gr
            if !separator then pure false
            else do
              let blank ← whitespace gr
              pure !blank) fuel gr xx
        else
          skipWord table gd (fun gr => do
            let separator ← separators gr
            if separator then pure false
            else do
              let blank ← whitespace gr
              pure !blank) fuel gr xx
      skipBlanks table gd whitespace fuel gr xx

def gridReaderCursorNextWord (separators : List UInt8) (fuel : Nat) (gr : GridReader) :
    Exec GridReader :=
  nextWord table gd (gridReaderInSet table gd width WHITESPACE fuel)
    (gridReaderInSet table gd width separators fuel) fuel gr

/-! ### Back -/

/-- Move left to a cell that is not blank, and tell whether it is a letter. There may be none. -/
def previousCell (whitespace separators : GridReader → Exec Bool) (stopAtEol : Bool) :
    Nat → GridReader → Exec (GridReader × Option Bool)
  | 0, _ => throw .outOfFuel
  | fuel + 1, gr =>
      if 0 < gr.cx then do
        let gr := { gr with cx := gr.cx - 1 }
        let blank ← whitespace gr
        if !blank then do
          let separator ← separators gr
          pure (gr, some !separator)
        else previousCell whitespace separators stopAtEol fuel gr
      else if gr.cy = 0 then pure (gr, none)
      else do
        let gr ← gridReaderCursorUp table gd gr
        let gr ← gridReaderCursorEndOfLine table gd gr false false
        let atEol ← if stopAtEol && decide (0 < gr.cx) then whitespace { gr with cx := gr.cx - 1 }
            else pure false
        if atEol then pure (gr, some false)
        else previousCell whitespace separators stopAtEol fuel gr

/-- Move left to the beginning of a word. -/
def wordStart (whitespace separators : GridReader → Exec Bool) (wordIsLetters : Bool) :
    Nat → GridReader → Exec GridReader
  | 0, _ => throw .outOfFuel
  | fuel + 1, old => do
      let left ← if old.cx = 0 then
          if old.cy = 0 then pure none
          else do
            let gl ← gridGetLine gd (old.cy - 1)
            if !gl.flags.wrapped then pure none
            else do
              let gr ← gridReaderCursorUp table gd old
              let gr ← gridReaderCursorEndOfLine table gd gr false true
              pure (some gr)
        else pure (some old)
      match left with
      | none => pure old
      | some gr => do
          let gr := if 0 < gr.cx then { gr with cx := gr.cx - 1 } else gr
          let blank ← whitespace gr
          if blank then pure old
          else do
            let separator ← separators gr
            if wordIsLetters = separator then pure old
            else wordStart whitespace separators wordIsLetters fuel gr

/-- Move to the beginning of the previous word, given what tells blanks and separators. -/
def previousWord (whitespace separators : GridReader → Exec Bool) (already stopAtEol : Bool)
    (fuel : Nat) (gr : GridReader) :
    Exec GridReader := do
  let blank ← if already then pure true else whitespace gr
  let (gr, letters) ←
    if blank then previousCell table gd whitespace separators stopAtEol fuel gr
    else do
      let separator ← separators gr
      pure (gr, some !separator)
  match letters with
  | none => pure gr
  | some wordIsLetters => wordStart table gd whitespace separators wordIsLetters fuel gr

def gridReaderCursorPreviousWord (separators : List UInt8) (already stopAtEol : Bool) (fuel : Nat)
    (gr : GridReader) :
    Exec GridReader :=
  previousWord table gd (gridReaderInSet table gd width WHITESPACE fuel)
    (gridReaderInSet table gd width separators fuel) already
    stopAtEol fuel gr

end

end Ztmux.Grids
