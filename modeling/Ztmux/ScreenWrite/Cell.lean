import Ztmux.Utf8.Table

/-!
Cells, what the screen writer asks of a grid, and the part of a line of a pane that is not
covered by another pane.
-/

namespace Ztmux.ScreenWrite

open Utf8

/-! ### Cells -/

structure GridFlags where
  fg256 : Bool
  bg256 : Bool
  padding : Bool
  extended : Bool
  selected : Bool
  nopalette : Bool
  cleared : Bool
  tab : Bool
  deriving DecidableEq

def GridFlags.empty : GridFlags := ⟨false, false, false, false, false, false, false, false⟩

def GRID_ATTR_CHARSET : UInt16 := 0x80

structure GridCell where
  data : Utf8Data
  attr : UInt16
  flags : GridFlags
  fg : Int
  bg : Int
  us : Int
  link : Nat

/-- A character of one byte and one column. -/
def utf8Set (ch : UInt8) : Utf8Data := ⟨fun i => if i.val = 0 then ch else 0, 1, 1, 1⟩

def GRID_DEFAULT_CELL : GridCell :=
  ⟨{ utf8Set 0x20 with have_ := 0 }, 0, .empty, 8, 8, 8, 0⟩

def COLOUR_DEFAULT (c : Nat) : Prop := c = 8 ∨ c = 9

instance (c : Nat) : Decidable (COLOUR_DEFAULT c) := by
  unfold COLOUR_DEFAULT
  infer_instance

/-! ### Characters that combine -/

def utf8IsZwj (ud : Utf8Data) : Bool :=
  decide (ud.size = 3 ∧ ud.initializedSlice = [0xe2, 0x80, 0x8d])

def utf8HasZwj (ud : Utf8Data) : Bool :=
  decide (3 ≤ ud.size.toNat ∧
    ud.initializedSlice.drop (ud.size.toNat - 3) = [0xe2, 0x80, 0x8d])

def utf8IsVs (ud : Utf8Data) : Bool :=
  decide (ud.size = 3 ∧ ud.initializedSlice = [0xef, 0xb8, 0x8f])

/-- `utf8_towc`, for the characters of four bytes: the modifiers are among these. -/
def utf8Towc (ud : Utf8Data) : Option Nat :=
  match ud.initializedSlice with
  | a :: b :: c :: d :: _ =>
      if a &&& 0xf8 = 0xf0 ∧ b &&& 0xc0 = 0x80 ∧ c &&& 0xc0 = 0x80 ∧ d &&& 0xc0 = 0x80 then
        some ((a &&& 0x07).toNat * 2 ^ 18 + (b &&& 0x3f).toNat * 2 ^ 12 +
          (c &&& 0x3f).toNat * 2 ^ 6 + (d &&& 0x3f).toNat)
      else none
  | [] | [_] | [_, _] | [_, _, _] => none

/-- `UTF8_MODIFIER_TABLE` is two runs of code points. -/
def inModifierTable (wc : Nat) : Bool :=
  decide ((0x1f1e6 ≤ wc ∧ wc ≤ 0x1f1ff) ∨ (0x1f3fb ≤ wc ∧ wc ≤ 0x1f3ff))

def utf8IsModifier (ud : Utf8Data) : Bool := (utf8Towc ud).any inModifierTable

/-- `ud` with the bytes of `more` behind its own. -/
def utf8Append (ud more : Utf8Data) : Utf8Data :=
  { ud with
    data := fun i =>
      if i.val < ud.size.toNat then ud.data i
      else if i.val < ud.size.toNat + more.size.toNat then
        more.data (Fin.ofNat utf8Size (i.val - ud.size.toNat))
      else ud.data i
    size := ud.size + more.size }

/-! ### The grid -/

/-- What the screen writer asks of a grid: `grid_view_*`, and the line at a row of the screen. -/
class GridView (G : Type) where
  getCell : G → Nat → Nat → GridCell
  setCell : G → Nat → Nat → GridCell → G
  setPadding : G → Nat → Nat → G
  setCells : G → Nat → Nat → GridCell → (Nat → UInt8) → Nat → G
  clear : G → Nat → Nat → Nat → Nat → Nat → G
  clearHistory : G → Nat → G
  scrollRegionUp : G → Nat → Nat → Nat → G
  scrollRegionDown : G → Nat → Nat → Nat → G
  moveLines : G → Nat → Nat → Nat → Nat → G
  moveCells : G → Nat → Nat → Nat → Nat → Nat → G
  hasHistory : G → Bool
  cellsize : G → Nat → Nat
  wrapped : G → Nat → Bool
  setWrapped : G → Nat → G
  extended : G → Nat → Bool
  /-- The entry at a place is not the one this cell would be stored as. -/
  entryDiffers : G → Nat → Nat → GridCell → Bool

/-! ### Visible ranges -/

/-- A pane in its window, and the panes above it: for every row of the window the first and last
column of each. The ranges that a line is flushed with live in the pane, and a redraw computes
them again while they are in use; `seen` is what they are when an item of a row is written. What
holds of a writer holds with any of them. -/
structure Pane where
  xoff : Int
  yoff : Int
  sx : Nat
  sy : Nat
  wsx : Nat
  wsy : Nat
  redraw : Bool
  overlay : Bool
  covered : Bool
  scrollOnClear : Bool
  above : Int → List (Int × Int)
  seen : Nat → Nat → List (Nat × Nat)

def Pane.flagRedraw (p : Pane) : Pane := { p with redraw := true }

/-- `screen_write_pane_is_obscured`: the pane leaves the window, or a floating pane above it
overlaps it. -/
def Pane.obscured (p : Pane) : Bool :=
  decide (p.xoff < 0 ∨ p.yoff < 0 ∨ p.wsx < p.xoff + p.sx ∨ p.wsy < p.yoff + p.sy) || p.covered

/-- A range, and the columns `lb` to `rb` of a pane above it taken out. -/
def obscureRange (lb rb : Int) (r : Nat × Nat) : List (Nat × Nat) :=
  let sx : Int := r.1
  let ex := sx + wrapI32 r.2 - 1
  if r.2 = 0 ∨ rb < lb then [r]
  else if sx < lb ∧ lb ≤ ex ∧ ex < rb then [(r.1, (lb - sx).toNat)]
  else if sx ≤ rb ∧ rb ≤ ex ∧ lb ≤ sx then [((rb + 1).toNat, (ex - rb).toNat)]
  else if sx < lb ∧ rb ≤ ex then [(r.1, (lb - sx).toNat), ((rb + 1).toNat, (ex - rb).toNat)]
  else if lb ≤ sx ∧ ex < rb then [(r.1, 0)]
  else [r]

def obscureRanges (above : List (Int × Int)) (ranges : List (Nat × Nat)) : List (Nat × Nat) :=
  above.foldl (fun ranges b => ranges.flatMap (obscureRange b.1 b.2)) ranges

/-- The width of a line of the window, cut at the right edge. Where the line starts right of the
edge the difference wraps. -/
def clipWidth (wsx px width : Nat) : Nat :=
  if wsx < px + width then (wsx + 2 ^ 32 - px) % 2 ^ 32 else width

/-- Columns left of the window are cut off. -/
def clipLeft (px : Int) (width : Nat) : Nat × Nat :=
  if px < 0 then (0, width - (-px).toNat) else (px.toNat, width)

def windowVisibleRanges (wp : Option Pane) (px py : Int) (width : Nat) : List (Nat × Nat) :=
  let c := clipLeft px width
  if py < 0 ∨ c.2 = 0 then []
  else
    match wp with
    | none => [c]
    | some p =>
        if p.wsy ≤ py.toNat then []
        else obscureRanges (p.above py) [(c.1, clipWidth p.wsx c.1 c.2)]

end Ztmux.ScreenWrite
