import Ztmux.Grids.Columns

/-!
Reflowing the lines of a grid to another width.

The lines are taken one after the other. A line that fits is moved to the new grid, one that is too
wide is split into several, and one that is wrapped has as much as possible of the lines below
joined to it. A line that has been used up is marked as dead. The width of a line is that of
its cells as they are read.
-/

namespace Ztmux.Grids

open Utf8 ScreenWrite

/-- The table of characters, the grid that lines are taken from and the one they are put in. -/
structure Reflow where
  table : Utf8Table
  gd : Grid
  target : Grid

/-- A line that has been used up. -/
def deadLine : GridLine :=
  { GridLine.zeroed with flags := { GridLineFlags.empty with dead := true } }

def gridReflowDead (gd : Grid) (yy : Nat) : Grid := gd.setLine yy deadLine

def gridReflowAdd (gd : Grid) (n : Nat) : Grid :=
  { gd with sy := gd.sy + n, linedata := gd.linedata ++ List.replicate n .zeroed }

/-- Move a line across. -/
def gridReflowMove (st : Reflow) (yy : Nat) (gl : GridLine) : Reflow :=
  { st with
    gd := gridReflowDead st.gd yy
    target := (gridReflowAdd st.target 1).setLine st.target.sy gl }

/-- Mark a line as wrapped. -/
def flagWrapped (gd : Grid) (yy : Nat) : Exec Grid :=
  match gd.linedata[yy]? with
  | none => throw .outOfBounds
  | some gl => pure (gd.setLine yy { gl with flags := { gl.flags with wrapped := true } })

/-! ### Measuring -/

/-- The width of `n` cells from `i` on, behind some of this width, and where the available width is
hit. -/
def measureCells (table : Utf8Table) (gl : GridLine) (sx : Nat) :
    Nat → Nat → Nat → Nat → Exec (Nat × Nat)
  | 0, _, hit, width => pure (hit, width)
  | n + 1, i, hit, width => do
      let gc ← gridGetCell1 table gl i
      measureCells table gl sx n (i + 1)
        (if hit = 0 ∧ sx < width + gc.data.width.toNat then i else hit)
        (width + gc.data.width.toNat)

/-- Work out the width of a line. -/
def measureLine (table : Utf8Table) (gl : GridLine) (sx : Nat) : Exec (Nat × Nat) :=
  if gl.flags.extended then measureCells table gl sx gl.cellused 0 0 0
  else pure (if sx < gl.cellused then sx else gl.cellused, gl.cellused)

/-! ### Joining -/

/-- Where joining lines has got to: what is in the target line, how many lines have been looked
at and whether all of them were wrapped, and of the last one used how many cells were
wanted and how many are left. -/
structure Join where
  table : Utf8Table
  target : Grid
  width : Nat
  hit : Nat
  lines : Nat
  wrapped : Bool
  last : Option (Nat × Nat)

/-- Join as much as possible of a line, from the cell `want` on. -/
def joinCells (sx dst : Nat) (gl : GridLine) : Nat → Nat → Join → Exec (Nat × Join)
  | 0, want, j => pure (want, j)
  | n + 1, want, j => do
      let gc ← gridGetCell1 j.table gl want
      if sx < j.width + gc.data.width.toNat then pure (want, j)
      else do
        let (table, target) ← gridSetCell j.table j.target j.hit dst gc
        joinCells sx dst gl n (want + 1)
          { j with table, target, width := j.width + gc.data.width.toNat, hit := j.hit + 1 }

/-- Loop until no more to consume or target line is full. -/
def joinLines (sx dst : Nat) : List GridLine → Join → Exec Join
  | [], j => pure j
  | gl :: rest, j =>
      let wrapped := j.wrapped && gl.flags.wrapped
      if gl.cellused = 0 then
        if wrapped then joinLines sx dst rest { j with lines := j.lines + 1, wrapped }
        else pure { j with wrapped }
      else do
        let (want, j) ← joinCells sx dst gl gl.cellused 0 { j with wrapped }
        -- not even the first cell
        if want = 0 then pure j
        else
          let j := { j with lines := j.lines + 1, last := some (want, gl.cellused - want) }
          if wrapped = false ∨ want ≠ gl.cellused ∨ j.width = sx then pure j
          else joinLines sx dst rest j

def removeConsumed (gd : Grid) (yy want left : Nat) : Grid :=
  let gd := gridMoveCells gd 0 want yy left 8
  { gd with linedata := gd.linedata.modify yy fun gl =>
      { gl with celldata := gl.celldata.take left, cellused := left } }

/-- Remove `n` lines that were completely consumed. -/
def removeLines : Nat → Nat → Grid → Grid
  | 0, _, gd => gd
  | n + 1, yy, gd => removeLines n (yy + 1) (gridReflowDead gd yy)

/-- Adjust the scroll position. -/
def joinScroll (gd : Grid) (dst lines : Nat) : Grid :=
  { gd with hscrolled :=
      if dst + lines < gd.hscrolled then gd.hscrolled - lines
      else if dst < gd.hscrolled then dst
      else gd.hscrolled }

/-- Take away from the lines below what was joined. -/
def finishJoin (gd : Grid) (yy dst : Nat) (j : Join) : Reflow :=
  match j.last with
  | none => ⟨j.table, gd, j.target⟩
  | some (want, left) =>
      let lines := if left ≠ 0 then j.lines - 1 else j.lines
      let gd := if left ≠ 0 then removeConsumed gd (yy + j.lines) want left else gd
      let target :=
        if left = 0 ∧ j.wrapped = false then
          { j.target with linedata := unwrapLine j.target.linedata dst }
        else j.target
      ⟨j.table, joinScroll (removeLines lines (yy + 1) gd) dst lines, target⟩

/-- Join lines below onto the last line of the target. -/
def joinBelow (st : Reflow) (sx yy width : Nat) : Exec Reflow :=
  let dst := st.target.sy - 1
  match st.target.linedata[dst]? with
  | none => throw .outOfBounds
  | some gl => do
      let j ← joinLines sx dst (st.gd.linedata.drop (yy + 1))
        ⟨st.table, st.target, width, gl.cellused, 0, true, none⟩
      pure (finishJoin st.gd yy dst j)

/-- Join line below onto this one. -/
def gridReflowJoin (st : Reflow) (sx yy width : Nat) (already : Bool) : Exec Reflow :=
  if already then joinBelow st sx yy width
  else
    match st.gd.linedata[yy]? with
    | none => throw .outOfBounds
    | some gl => joinBelow (gridReflowMove st yy gl) sx yy width

/-! ### Splitting -/

/-- Count the lines for `n` cells from `i` on. -/
def countLines (table : Utf8Table) (gl : GridLine) (sx : Nat) : Nat → Nat → Nat → Nat → Exec Nat
  | 0, _, lines, _ => pure lines
  | n + 1, i, lines, width => do
      let gc ← gridGetCell1 table gl i
      if sx < width + gc.data.width.toNat then
        countLines table gl sx n (i + 1) (lines + 1) gc.data.width.toNat
      else countLines table gl sx n (i + 1) lines (width + gc.data.width.toNat)

/-- How many lines we need to insert. -/
def splitLines (table : Utf8Table) (gl : GridLine) (sx hit : Nat) : Exec Nat :=
  if gl.flags.extended then countLines table gl sx (gl.cellused - hit) hit 2 0
  else if sx = 0 then throw .fatal
  else pure (1 + (gl.cellused - 1) / sx)

/-- Where copying the sections of a line has got to. -/
structure Split where
  table : Utf8Table
  target : Grid
  line : Nat
  width : Nat
  xx : Nat

/-- Copy `n` cells from `i` on. -/
def splitCells (sx : Nat) (gl : GridLine) : Nat → Nat → Split → Exec Split
  | 0, _, s => pure s
  | n + 1, i, s => do
      let gc ← gridGetCell1 s.table gl i
      let s ←
        if sx < s.width + gc.data.width.toNat then do
          let target ← flagWrapped s.target s.line
          pure { s with target, line := s.line + 1, width := 0, xx := 0 }
        else pure s
      let (table, target) ← gridSetCell s.table s.target s.xx s.line gc
      splitCells sx gl n (i + 1)
        { s with table, target, width := s.width + gc.data.width.toNat, xx := s.xx + 1 }

/-- Split this line into several new ones. -/
def gridReflowSplit (st : Reflow) (sx yy hit : Nat) : Exec Reflow :=
  match st.gd.linedata[yy]? with
  | none => throw .outOfBounds
  | some gl => do
      let lines ← splitLines st.table gl sx hit
      let first := st.target.sy
      let s ← splitCells sx gl (gl.cellused - hit) hit
        ⟨st.table, gridReflowAdd st.target lines, first + 1, 0, 0⟩
      let target ← if gl.flags.wrapped then flagWrapped s.target s.line else pure s.target
      let target := target.setLine first
        { gl with
          celldata := gl.celldata.take hit
          cellused := hit
          flags := { gl.flags with wrapped := true } }
      let gd := gridReflowDead st.gd yy
      let gd := { gd with hscrolled :=
        if yy ≤ gd.hscrolled then gd.hscrolled + (lines - 1) else gd.hscrolled }
      if s.width < sx ∧ gl.flags.wrapped = true then
        gridReflowJoin ⟨s.table, gd, target⟩ sx yy s.width true
      else pure ⟨s.table, gd, target⟩

/-! ### Reflowing -/

def reflowLine (sx : Nat) (st : Reflow) (yy : Nat) : Exec Reflow :=
  match st.gd.linedata[yy]? with
  | none => throw .outOfBounds
  | some gl =>
      if gl.flags.dead then pure st
      else do
        let (hit, width) ← measureLine st.table gl sx
        if width = sx then pure (gridReflowMove st yy gl)
        else if sx < width then gridReflowSplit st sx yy hit
        else if gl.flags.wrapped then gridReflowJoin st sx yy width false
        else pure (gridReflowMove st yy gl)

/-- `n` source lines from `yy` on. -/
def reflowLines (sx : Nat) : Nat → Nat → Reflow → Exec Reflow
  | 0, _, st => pure st
  | n + 1, yy, st => do
      let st ← reflowLine sx st yy
      reflowLines sx n (yy + 1) st

/-- What is there before the first line. -/
def Reflow.start (table : Utf8Table) (gd : Grid) : Reflow := ⟨table, gd, ⟨gd.sx, 0, 0, 0, []⟩⟩

/-- Replace the old grid with the new one. -/
def finishReflow (st : Reflow) : Grid :=
  let target :=
    if st.target.sy < st.gd.sy then gridReflowAdd st.target (st.gd.sy - st.target.sy)
    else st.target
  let hsize := target.sy - st.gd.sy
  { st.gd with
    hsize
    hscrolled := if hsize < st.gd.hscrolled then hsize else st.gd.hscrolled
    linedata := target.linedata }

/-- Reflow lines on grid to new width. -/
def gridReflow (table : Utf8Table) (gd : Grid) (sx : Nat) : Exec (Utf8Table × Grid) := do
  let st ← reflowLines sx (gd.hsize + gd.sy) 0 (.start table gd)
  pure (st.table, finishReflow st)

end Ztmux.Grids
