import Ztmux.Machine
import Ztmux.Library.Decimal

/-!
Mouse reports: `input_key_get_mouse` writes one for a pane (`ported/input_keys.rs`), and
`tty_keys_mouse` reads one from a terminal (`ported/tty_keys.rs`). A nested server writes what
the outer one reads.
-/

namespace Ztmux.Mouse

/-- The parts of a mouse event that a report is made of or makes. -/
structure MouseEvent where
  x : UInt32
  y : UInt32
  b : UInt32
  lx : UInt32
  ly : UInt32
  lb : UInt32
  sgrType : UInt32
  sgrB : UInt32
  deriving DecidableEq, Repr

/-- The mouse bits of a screen's mode. -/
structure MouseMode where
  standard : Bool
  button : Bool
  all : Bool
  utf8 : Bool
  sgr : Bool
  deriving DecidableEq, Repr

def MouseMode.allMouseModes (mode : MouseMode) : Bool := mode.standard || mode.button || mode.all

def MouseMode.motionMouseModes (mode : MouseMode) : Bool := mode.button || mode.all

def mouseParamMax : UInt32 := 0xff

def mouseParamUtf8Max : UInt32 := 0x7ff

def mouseParamBtnOff : UInt32 := 0x20

def mouseParamPosOff : UInt32 := 0x21

def mouseMaskButtons : UInt32 := 195

def mouseMaskDrag : UInt32 := 32

def mouseWheelUp : UInt32 := 64

def mouseWheelDown : UInt32 := 65

def mouseDrag (b : UInt32) : Bool := b &&& mouseMaskDrag != 0

def mouseWheel (b : UInt32) : Bool :=
  b &&& mouseMaskButtons == mouseWheelUp || b &&& mouseMaskButtons == mouseWheelDown

def mouseRelease (b : UInt32) : Bool := b &&& mouseMaskButtons == 3

/-- The bytes of `ESC`, `[`, `<`, `;`, `M`, `m` and a blank. -/
def esc : UInt8 := 27

def bracket : UInt8 := 91

def less : UInt8 := 60

def semicolon : UInt8 := 59

def press : UInt8 := 77

def release : UInt8 := 109

def blank : UInt8 := 32

/-- A character below 2048 in UTF-8. -/
def inputKeySplit2 (c : UInt32) : List UInt8 :=
  if 0x7f < c then [(c >>> 6).toUInt8 ||| 0xc0, (c.toUInt8 &&& 0x3f) ||| 0x80] else [c.toUInt8]

/-- A coordinate in the legacy format, as far as that goes. -/
def legacyPosition (x : UInt32) : UInt8 :=
  if mouseParamMax < x + mouseParamPosOff then mouseParamMax.toUInt8
  else x.toUInt8 + mouseParamPosOff.toUInt8

/-- Whether a pane is told of the event at all. -/
def reported (mode : MouseMode) (m : MouseEvent) : Bool :=
  -- motion is for panes that ask for it
  !(mouseDrag m.b && !mode.motionMouseModes) && mode.allMouseModes &&
    -- so is a release without a button
    if m.sgrType ≠ blank.toUInt32 then
      !(mouseDrag m.sgrB && mouseRelease m.sgrB && !mode.all)
    else !(mouseDrag m.b && mouseRelease m.b && mouseRelease m.lb && !mode.all)

/-- The SGR format is for a pane that asks for it, of an event that came in it. -/
def usesSgr (mode : MouseMode) (m : MouseEvent) : Bool := m.sgrType != blank.toUInt32 && mode.sgr

def sgrReport (m : MouseEvent) (x y : UInt32) : List UInt8 :=
  [esc, bracket, less] ++ decimalBytes m.sgrB.toNat ++ [semicolon] ++ decimalBytes (x + 1).toNat ++
    [semicolon] ++ decimalBytes (y + 1).toNat ++ inputKeySplit2 m.sgrType.toUInt8.toUInt32

def utf8Report (m : MouseEvent) (x y : UInt32) : List UInt8 :=
  [esc, bracket, press] ++ inputKeySplit2 (m.b + mouseParamBtnOff) ++
    inputKeySplit2 (x + mouseParamPosOff) ++ inputKeySplit2 (y + mouseParamPosOff)

def legacyReport (m : MouseEvent) (x y : UInt32) : List UInt8 :=
  [esc, bracket, press, (m.b + mouseParamBtnOff).toUInt8, legacyPosition x, legacyPosition y]

/-- The report for a pane, where it gets one. -/
def inputKeyGetMouse (mode : MouseMode) (m : MouseEvent) (x y : UInt32) : Option (List UInt8) :=
  if !reported mode m then none
  else if usesSgr mode m then some (sgrReport m x y)
  else if mode.utf8 then
    if mouseParamUtf8Max - mouseParamBtnOff < m.b ∨ mouseParamUtf8Max - mouseParamPosOff < x ∨
        mouseParamUtf8Max - mouseParamPosOff < y then none
    else some (utf8Report m x y)
  else if mouseParamMax < m.b + mouseParamBtnOff then none
  else some (legacyReport m x y)

/-! ## Reading -/

/-- The byte at `i`; there is none at or past the length. -/
def byteAt (buf : List UInt8) (i : Nat) : Exec UInt8 :=
  match buf[i]? with
  | none => .error .outOfBounds
  | some ch => .ok ch

/-- A number as far as it has been read, and whether it has wrapped, which the source does not
keep. -/
structure Number where
  value : UInt32
  wrapped : Bool
  deriving DecidableEq, Repr

def Number.zero : Number := ⟨0, false⟩

def Number.push (n : Number) (ch : UInt8) : Number :=
  ⟨10 * n.value + (ch - 48).toUInt32, n.wrapped || 2 ^ 32 ≤ 10 * n.value.toNat + digitValue ch⟩

/-- How the digits of a number end. -/
inductive NumberEnd
  | more
  | bad
  | stop (ch : UInt8)
  deriving DecidableEq, Repr

/-- Where the reader is after a number, and the number. -/
structure NumberRead where
  ending : NumberEnd
  size : Nat
  number : Number

/-- One of the three loops of the SGR format. -/
def readNumber (buf : List UInt8) (stops : UInt8 → Bool) : Nat → Nat → Number → Exec NumberRead
  | 0, _, _ => .error .outOfFuel
  | fuel + 1, size, n =>
    if buf.length ≤ size then .ok ⟨.more, size, n⟩
    else do
      let ch ← byteAt buf size
      if stops ch then .ok ⟨.stop ch, size + 1, n⟩
      else if !isDigit ch then .ok ⟨.bad, size + 1, n⟩
      else readNumber buf stops fuel (size + 1) (n.push ch)

/-- What the terminal remembers of the mouse. -/
structure LastMouse where
  x : UInt32
  y : UInt32
  b : UInt32
  deriving DecidableEq, Repr

/-- 0 for a report, 1 for a part of one, -1 for none and -2 for one that is not valid; how far
the reader got; and whether a number has wrapped, which the source does not keep. -/
structure MouseRead where
  ret : Int
  size : Nat
  m : MouseEvent
  last : LastMouse
  wrapped : Bool
  deriving DecidableEq, Repr

/-- What a call leaves that finds no report. -/
def noReport (last : LastMouse) (m : MouseEvent) (ret : Int) (size : Nat) (wrapped : Bool) :
    MouseRead :=
  ⟨ret, size, m, last, wrapped⟩

/-- The event of a report, which the terminal then remembers. -/
def mouseRead (last : LastMouse) (m : MouseEvent) (size : Nat) (x y b : UInt32) (sgrType : UInt8)
    (sgrB : UInt32) (wrapped : Bool) : MouseRead where
  ret := 0
  size := size
  m := { m with
    lx := last.x
    x := x
    ly := last.y
    y := y
    lb := last.b
    b := b
    sgrType := sgrType.toUInt32
    sgrB := sgrB }
  last := ⟨x, y, b⟩
  wrapped := wrapped

def readLegacy (last : LastMouse) (buf : List UInt8) (m : MouseEvent) : Exec MouseRead :=
  if buf.length ≤ 3 then .ok (noReport last m 1 3 false)
  else do
    let b ← byteAt buf 3
    if buf.length ≤ 4 then .ok (noReport last m 1 4 false)
    else do
      let x ← byteAt buf 4
      if buf.length ≤ 5 then .ok (noReport last m 1 5 false)
      else do
        let y ← byteAt buf 5
        if b.toUInt32 < mouseParamBtnOff ∨ x.toUInt32 < mouseParamPosOff ∨
            y.toUInt32 < mouseParamPosOff then .ok (noReport last m (-2) 6 false)
        else .ok (mouseRead last m 6 (x.toUInt32 - mouseParamPosOff) (y.toUInt32 - mouseParamPosOff)
          (b.toUInt32 - mouseParamBtnOff) blank 0 false)

/-- What three numbers and the byte behind them say. -/
def sgrEvent (last : LastMouse) (m : MouseEvent) (size : Nat) (sgrB x y : UInt32) (ch : UInt8)
    (wrapped : Bool) : MouseRead :=
  if x < 1 ∨ y < 1 then noReport last m (-2) size wrapped
  -- some terminals send a release of the wheel, which has none
  else if ch = release ∧ mouseWheel sgrB then noReport last m (-2) size wrapped
  else mouseRead last m size (x - 1) (y - 1) (if ch = release then 3 else sgrB) ch sgrB wrapped

/-- Goes on behind a number, where the byte after it is one to go on at. -/
def andThen (last : LastMouse) (m : MouseEvent) (wrapped : Bool) (r : NumberRead)
    (k : UInt8 → Exec MouseRead) : Exec MouseRead :=
  match r.ending with
  | .more => .ok (noReport last m 1 r.size (wrapped || r.number.wrapped))
  | .bad => .ok (noReport last m (-1) r.size (wrapped || r.number.wrapped))
  | .stop ch => k ch

def readSgr (last : LastMouse) (buf : List UInt8) (m : MouseEvent) : Exec MouseRead := do
  let fuel := buf.length + 1
  let b ← readNumber buf (· == semicolon) fuel 3 .zero
  andThen last m false b fun _ => do
    let x ← readNumber buf (· == semicolon) fuel b.size .zero
    andThen last m b.number.wrapped x fun _ => do
      let y ← readNumber buf (fun ch => ch == press || ch == release) fuel x.size .zero
      andThen last m (b.number.wrapped || x.number.wrapped) y fun ch =>
        .ok (sgrEvent last m y.size b.number.value x.number.value y.number.value ch
          (b.number.wrapped || x.number.wrapped || y.number.wrapped))

def ttyKeysMouse (last : LastMouse) (buf : List UInt8) (m : MouseEvent) : Exec MouseRead := do
  let first ← byteAt buf 0
  if first ≠ esc then .ok (noReport last m (-1) 0 false)
  else if buf.length = 1 then .ok (noReport last m 1 0 false)
  else do
    let second ← byteAt buf 1
    if second ≠ bracket then .ok (noReport last m (-1) 0 false)
    else if buf.length = 2 then .ok (noReport last m 1 0 false)
    else do
      let third ← byteAt buf 2
      if third = press then readLegacy last buf m
      else if third = less then readSgr last buf m
      else .ok (noReport last m (-1) 0 false)

end Ztmux.Mouse
