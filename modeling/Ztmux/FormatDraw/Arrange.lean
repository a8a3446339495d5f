import Ztmux.Machine

/-!
The five arrangements of a drawn format. A format is drawn into one screen a
section; an arrangement decides how much of each section is copied to the line,
and where.

Positions are `u32` and subtraction wraps. A drawing keeps the copies it made and
whether any of its subtractions wrapped. Offsets count from the cursor of the
target screen.
-/

namespace Ztmux.FormatDraw

inductive Section
  | left
  | centre
  | right
  | absoluteCentre
  | list
  | listLeft
  | listRight
  | after
  deriving DecidableEq, Repr

/-- Every section, in the order of the source. -/
def Section.all : List Section :=
  [.left, .centre, .right, .absoluteCentre, .list, .listLeft, .listRight, .after]

abbrev Widths := Section → UInt32

/-- The screens of a format of `size` bytes. A section ends at its cursor; each
of its columns was drawn by a byte of the format that drew no other. -/
structure Screens where
  size : UInt32
  cx : Widths
  fits : (Section.all.map fun part => (cx part).toNat).sum ≤ size.toNat

/-- A copy of `width` columns of a section from its column `start`. -/
structure Put where
  part : Section
  offset : UInt32
  start : UInt32
  width : UInt32
  deriving DecidableEq, Repr

structure Canvas where
  puts : List Put
  wrapped : Bool
  deriving DecidableEq, Repr

def Canvas.blank : Canvas := ⟨[], false⟩

abbrev Draw := StateM Canvas

/-- A subtraction of the source. -/
def minus (a b : UInt32) : Draw UInt32 :=
  modifyGet fun canvas => (a - b, { canvas with wrapped := canvas.wrapped || decide (a < b) })

def formatDrawPut (part : Section) (offset start width : UInt32) : Draw Unit :=
  modify fun canvas => { canvas with puts := canvas.puts ++ [⟨part, offset, start, width⟩] }

theorem minus_bind {α : Type} (a b : UInt32) (f : UInt32 → Draw α) (canvas : Canvas) :
    (minus a b >>= f) canvas =
      f (a - b) { canvas with wrapped := canvas.wrapped || decide (a < b) } := rfl

theorem formatDrawPut_run (part : Section) (offset start width : UInt32) (canvas : Canvas) :
    formatDrawPut part offset start width canvas =
      ((), { canvas with puts := canvas.puts ++ [⟨part, offset, start, width⟩] }) := rfl

theorem pure_run {α : Type} (a : α) (canvas : Canvas) : (pure a : Draw α) canvas = (a, canvas) :=
  rfl

/-! ### Trimming the widths -/

def Widths.set (width : Widths) (part : Section) (n : UInt32) : Widths :=
  fun other => if other = part then n else width other

/-- One turn of the trimming loop of an arrangement: the first section of the
order that has columns left loses one, and the last takes the `else`. -/
def trimOne : List Section → Widths → Draw Widths
  | [], width => pure width
  | [part], width => do
      let n ← minus (width part) 1
      pure (width.set part n)
  | part :: rest, width =>
      if 0 < width part then do
        let n ← minus (width part) 1
        pure (width.set part n)
      else
        trimOne rest width

def total (order : List Section) (width : Widths) : UInt32 := (order.map width).sum

def trimTurns (available : UInt32) (order : List Section) : Nat → Widths → Draw Widths
  | 0, width => pure width
  | turns + 1, width =>
      if available < total order width then do
        let width ← trimOne order width
        trimTurns available order turns width
      else
        pure width

/-- The trimming loop. A turn takes one column off the total, so the total is
turns enough. -/
def trim (available : UInt32) (order : List Section) (width : Widths) : Draw Widths :=
  trimTurns available order (total order width).toNat width

/-! ### The arrangements -/

/-- Where the list starts in its own screen so that the focus stays visible. -/
def focusCentre (focusStart focusEnd : Int32) : UInt32 :=
  (focusStart + (focusEnd - focusStart) / 2).toUInt32

def saturatingSub (a b : UInt32) : UInt32 := if a < b then 0 else a - b

/-- The `<` marker, and the offset, start and width that are left for the list. -/
def putLeftMarker (screens : Screens) (offset start width : UInt32) :
    Draw (UInt32 × UInt32 × UInt32) :=
  if start ≠ 0 ∧ screens.cx .listLeft < width then do
    formatDrawPut .listLeft offset 0 (screens.cx .listLeft)
    let rest ← minus width (screens.cx .listLeft)
    pure (offset + screens.cx .listLeft, start + screens.cx .listLeft, rest)
  else
    pure (offset, start, width)

/-- The `>` marker, and the width that is left for the list. -/
def putRightMarker (screens : Screens) (offset start width : UInt32) : Draw UInt32 :=
  if start + width < screens.cx .list ∧ screens.cx .listRight < width then do
    let column ← minus (offset + width) (screens.cx .listRight)
    formatDrawPut .listRight column 0 (screens.cx .listRight)
    minus width (screens.cx .listRight)
  else
    pure width

def listStart (screens : Screens) (focusStart focusEnd : Int32) (width : UInt32) : Draw UInt32 :=
  let start := saturatingSub (focusCentre focusStart focusEnd) (width / 2)
  if screens.cx .list < start + width then
    minus (screens.cx .list) width
  else
    pure start

def formatDrawPutList (screens : Screens) (offset width : UInt32) (focusStart focusEnd : Int32) :
    Draw Unit :=
  if screens.cx .list ≤ width then
    formatDrawPut .list offset 0 width
  else do
    let start ← listStart screens focusStart focusEnd width
    let (offset, start, width) ← putLeftMarker screens offset start width
    let width ← putRightMarker screens offset start width
    formatDrawPut .list offset start width

/-- The absolute centre over the whole of the space. -/
def putAbsoluteCentre (available : UInt32) (screens : Screens) : Draw Unit := do
  let width := if available < screens.cx .absoluteCentre then available
    else screens.cx .absoluteCentre
  let room ← minus available width
  formatDrawPut .absoluteCentre (room / 2) 0 width

/-- The right section at the end of the space. -/
def putRight (available : UInt32) (screens : Screens) (width : UInt32) : Draw Unit := do
  let offset ← minus available width
  let start ← minus (screens.cx .right) width
  formatDrawPut .right offset start width

/-- The centre section halfway between `low` and `high`. -/
def putHalfway (screens : Screens) (low high width : UInt32) : Draw Unit := do
  let gap ← minus high low
  let offset ← minus (low + gap / 2) (width / 2)
  let start ← minus (screens.cx .centre / 2) (width / 2)
  formatDrawPut .centre offset start width

def formatDrawNone (available : UInt32) (screens : Screens) : Draw Unit := do
  let width ← trim available [.centre, .right, .left] screens.cx
  formatDrawPut .left 0 0 (width .left)
  putRight available screens (width .right)
  let high ← minus available (width .right)
  putHalfway screens (width .left) high (width .centre)
  putAbsoluteCentre available screens

/-- The focus an arrangement falls back to when a bound of it is missing. -/
def focusOr (focusStart focusEnd fallback : Int32) : Int32 × Int32 :=
  if focusStart = -1 ∨ focusEnd = -1 then (fallback, fallback) else (focusStart, focusEnd)

/-- With no list left, `after` is copied past the cursor of the left screen. The
cursor stays, so that none of it is drawn. -/
def formatDrawLeft (available : UInt32) (screens : Screens) (focusStart focusEnd : Int32) :
    Draw Unit := do
  let width ← trim available [.centre, .list, .right, .after, .left] screens.cx
  if width .list = 0 then
    formatDrawNone available screens
  else do
    formatDrawPut .left 0 0 (width .left)
    putRight available screens (width .right)
    formatDrawPut .after (width .left + width .list) 0 (width .after)
    let high ← minus available (width .right)
    putHalfway screens (width .left + width .list + width .after) high (width .centre)
    let focus := focusOr focusStart focusEnd 0
    formatDrawPutList screens (width .left) (width .list) focus.1 focus.2
    putAbsoluteCentre available screens

/-- The middle of what `left` and `right` leave. -/
def middleOf (available : UInt32) (width : Widths) : Draw UInt32 := do
  let high ← minus available (width .right)
  let gap ← minus high (width .left)
  pure (width .left + gap / 2)

def formatDrawCentre (available : UInt32) (screens : Screens) (focusStart focusEnd : Int32) :
    Draw Unit := do
  let width ← trim available [.list, .after, .centre, .right, .left] screens.cx
  if width .list = 0 then
    formatDrawNone available screens
  else do
    formatDrawPut .left 0 0 (width .left)
    putRight available screens (width .right)
    let middle ← middleOf available width
    let high ← minus middle (width .list / 2)
    let offset ← minus high (width .centre)
    formatDrawPut .centre offset 0 (width .centre)
    let low ← minus middle (width .list / 2)
    formatDrawPut .after (low + width .list) 0 (width .after)
    let focus := focusOr focusStart focusEnd ((screens.cx .list).toInt32 / 2)
    let offset ← minus middle (width .list / 2)
    formatDrawPutList screens offset (width .list) focus.1 focus.2
    putAbsoluteCentre available screens

def formatDrawRight (available : UInt32) (screens : Screens) (focusStart focusEnd : Int32) :
    Draw Unit := do
  let width ← trim available [.centre, .list, .right, .after, .left] screens.cx
  if width .list = 0 then
    formatDrawNone available screens
  else do
    formatDrawPut .left 0 0 (width .left)
    let offset ← minus available (width .after)
    let start ← minus (screens.cx .after) (width .after)
    formatDrawPut .after offset start (width .after)
    let high ← minus (← minus (← minus available (width .right)) (width .list)) (width .after)
    formatDrawPut .right high 0 (width .right)
    let high ← minus (← minus (← minus available (width .right)) (width .list)) (width .after)
    putHalfway screens (width .left) high (width .centre)
    let focus := focusOr focusStart focusEnd 0
    let offset ← minus (← minus available (width .list)) (width .after)
    formatDrawPutList screens offset (width .list) focus.1 focus.2
    putAbsoluteCentre available screens

def formatDrawAbsoluteCentre (available : UInt32) (screens : Screens)
    (focusStart focusEnd : Int32) : Draw Unit := do
  let width ← trim available [.centre, .right, .left] screens.cx
  let width ← trim available [.list, .after, .absoluteCentre] width
  formatDrawPut .left 0 0 (width .left)
  putRight available screens (width .right)
  let middle ← middleOf available width
  let offset ← minus middle (width .centre)
  formatDrawPut .centre offset 0 (width .centre)
  let focus := focusOr focusStart focusEnd ((screens.cx .list).toInt32 / 2)
  let room ← minus (← minus available (width .list)) (width .absoluteCentre)
  let offset := room / 2
  formatDrawPut .absoluteCentre offset 0 (width .absoluteCentre)
  let offset := offset + width .absoluteCentre
  formatDrawPutList screens offset (width .list) focus.1 focus.2
  let offset := offset + width .list
  formatDrawPut .after offset 0 (width .after)

inductive Align
  | default
  | left
  | centre
  | right
  | absoluteCentre
  deriving DecidableEq, Repr

/-- How the sections are arranged depends on where the list is. -/
def arrange (listAlign : Align) (available : UInt32) (screens : Screens)
    (focusStart focusEnd : Int32) : Draw Unit :=
  match listAlign with
  | .default => formatDrawNone available screens
  | .left => formatDrawLeft available screens focusStart focusEnd
  | .centre => formatDrawCentre available screens focusStart focusEnd
  | .right => formatDrawRight available screens focusStart focusEnd
  | .absoluteCentre => formatDrawAbsoluteCentre available screens focusStart focusEnd

def drawn (listAlign : Align) (available : UInt32) (screens : Screens)
    (focusStart focusEnd : Int32) : Canvas :=
  (arrange listAlign available screens focusStart focusEnd Canvas.blank).2

end Ztmux.FormatDraw
