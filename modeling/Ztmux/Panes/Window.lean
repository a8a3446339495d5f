import Ztmux.Library.Memory

/-!
The panes of a window.

A pane is on three lists of its window: the panes in their order, the panes by depth, and, while
it has been active and is not, the stack of the last active ones. A zoom lays every cell of the
layout aside, and the end of the zoom takes it back.
-/

namespace Ztmux.Panes

inductive LayoutType
  | leftRight
  | topBottom
  | windowPane
  deriving DecidableEq, Repr

structure LayoutCell where
  type : LayoutType
  floating : Bool
  parent : Option Nat
  sx : UInt32
  sy : UInt32
  xoff : Int
  yoff : Int
  wp : Option Nat
  cells : List Nat
  deriving DecidableEq

structure WindowPane where
  visited : Bool
  zoomed : Bool
  changed : Bool
  activePoint : UInt32
  layoutCell : Option Nat
  savedLayoutCell : Option Nat
  deriving DecidableEq

structure Window where
  sx : UInt32
  sy : UInt32
  pane : Memory WindowPane
  cell : Memory LayoutCell
  panes : List Nat
  zIndex : List Nat
  lastPanes : List Nat
  active : Option Nat
  zoomed : Bool
  layoutRoot : Option Nat
  savedLayoutRoot : Option Nat
  nextActivePoint : UInt32

structure SpawnFlags where
  before : Bool
  fullsize : Bool
  floating : Bool
  deriving DecidableEq

def windowCreate (sx sy : UInt32) : Window :=
  ⟨sx, sy, .empty, .empty, [], [], [], none, false, none, none, 0⟩

def windowPaneCreate : WindowPane := ⟨false, false, false, 0, none, none⟩

/-! ### Lists -/

def tailqPrev (wp : Nat) : List Nat → Option Nat
  | [] => none
  | [_] => none
  | p :: q :: rest => if q = wp then some p else tailqPrev wp (q :: rest)

def tailqNext (wp : Nat) : List Nat → Option Nat
  | [] => none
  | p :: rest => if p = wp then rest.head? else tailqNext wp rest

def tailqInsertBefore (other wp : Nat) : List Nat → List Nat
  | [] => []
  | p :: rest => if p = other then wp :: p :: rest else p :: tailqInsertBefore other wp rest

def tailqInsertAfter (other wp : Nat) : List Nat → List Nat
  | [] => []
  | p :: rest => if p = other then p :: wp :: rest else p :: tailqInsertAfter other wp rest

def notNull : Option Nat → Exec Nat
  | none => .error .nullPointer
  | some p => .ok p

/-! ### The active pane -/

def windowPaneStackRemove (w : Window) : Option Nat → Exec Window
  | none => pure w
  | some wp => do
      if (← w.pane.deref wp).visited then
        pure { w with
          lastPanes := w.lastPanes.erase wp
          pane := w.pane.modify wp fun p => { p with visited := false } }
      else pure w

def windowPaneStackPush (w : Window) : Option Nat → Exec Window
  | none => pure w
  | some wp => do
      let w ← windowPaneStackRemove w (some wp)
      pure { w with
        lastPanes := wp :: w.lastPanes
        pane := w.pane.modify wp fun p => { p with visited := true } }

/-- The pane becomes the active one. -/
def makeActive (w : Window) (wp : Nat) : Window :=
  { w with
    active := some wp
    nextActivePoint := w.nextActivePoint + 1
    pane := w.pane.modify wp fun p =>
      { p with activePoint := w.nextActivePoint, changed := true } }

def windowSetActivePane (w : Window) (wp : Nat) : Exec (Window × Int) := do
  let _ ← w.pane.deref wp
  if some wp = w.active then pure (w, 0)
  else
    let lastwp := w.active
    let w ← windowPaneStackRemove w (some wp)
    let w ← windowPaneStackPush w lastwp
    pure (makeActive w wp, 1)

def isFloating (w : Window) : Option Nat → Exec Bool
  | none => pure false
  | some lc => do pure (← w.cell.deref lc).floating

def windowPaneIsFloating (w : Window) (wp : Nat) : Exec Bool := do
  isFloating w (← w.pane.deref wp).layoutCell

/-- The loop looks at `wp`, then at the active pane, where it stops. -/
def windowRedrawActiveSwitch (w : Window) (wp : Nat) : Exec Window := do
  if some wp = w.active then pure w
  else
    if ← windowPaneIsFloating w wp then pure { w with zIndex := wp :: w.zIndex.erase wp }
    else pure w

/-! ### Adding and removing panes -/

/-- The list of panes with the new pane `wp` in it. -/
def insertPane (w : Window) (other : Option Nat) (flags : SpawnFlags) (wp : Nat) :
    Exec (List Nat) := do
  if w.panes = [] then pure [wp]
  else if flags.before then
    if flags.fullsize then pure (wp :: w.panes)
    else
      let other ← notNull other
      let _ ← w.pane.deref other
      pure (tailqInsertBefore other wp w.panes)
  else if flags.fullsize ∨ flags.floating then pure (w.panes ++ [wp])
  else
    let other ← notNull other
    let _ ← w.pane.deref other
    pure (tailqInsertAfter other wp w.panes)

def windowAddPane (w : Window) (other : Option Nat) (flags : SpawnFlags) : Exec (Window × Nat) := do
  let other := other.or w.active
  let wp := w.pane.next
  let panes ← insertPane w other flags wp
  pure ({ w with
    pane := w.pane.alloc windowPaneCreate
    panes := panes
    zIndex := if flags.floating then wp :: w.zIndex else w.zIndex ++ [wp] }, wp)

/-- `PANE_CHANGED`, of a pane that was made active. -/
def paneChanged (w : Window) (wp : Nat) : Window :=
  { w with pane := w.pane.modify wp fun p => { p with changed := true } }

/-- The pane that becomes active when `wp` is lost. -/
def successor (w : Window) (wp : Nat) : Option Nat :=
  (w.lastPanes.head?.or (tailqPrev wp w.panes)).or (tailqNext wp w.panes)

/-- The new active pane, if there is one, leaves the stack. -/
def settleActive (w : Window) : Option Nat → Exec Window
  | none => pure w
  | some p => do
      let w ← windowPaneStackRemove w (some p)
      pure (paneChanged w p)

/-- What `window_lost_pane` does when the pane was the active one. -/
def replaceActive (w : Window) (wp : Nat) : Exec Window :=
  settleActive { w with active := successor w wp } (successor w wp)

def windowLostPane (w : Window) (wp : Nat) : Exec Window := do
  let w ← windowPaneStackRemove w (some wp)
  if some wp = w.active then replaceActive w wp else pure w

def windowRemovePane (w : Window) (wp : Nat) : Exec Window := do
  let w ← windowLostPane w wp
  pure { w with
    panes := w.panes.erase wp
    zIndex := w.zIndex.erase wp
    pane := w.pane.free wp }

/-! ### Zoom -/

/-- `layout_free_cell`, for a pane's cell: the pane loses the cell it has. -/
def unlinkPane (w : Window) : Option Nat → Exec Window
  | none => pure w
  | some wp => do
      let lc ← notNull (← w.pane.deref wp).layoutCell
      let _ ← w.cell.deref lc
      pure { w with
        cell := w.cell.modify lc fun c => { c with parent := none }
        pane := w.pane.modify wp fun p => { p with layoutCell := none } }

/-- What is in a cell: a pane, or cells that `free` frees one after the other. -/
def freeContents (free : Window → Nat → Exec Window) (w : Window) (c : LayoutCell) : Exec Window :=
  if c.type = .windowPane then unlinkPane w c.wp else c.cells.foldlM free w

def layoutFreeCell : Nat → Window → Nat → Exec Window
  | 0, _, _ => .error .outOfFuel
  | fuel + 1, w, lc => do
      let c ← w.cell.deref lc
      let w ← freeContents (layoutFreeCell fuel) w c
      pure { w with cell := w.cell.free lc }

/-- Cells are no deeper inside each other than there are cells. -/
def layoutFree (w : Window) : Exec Window :=
  match w.layoutRoot with
  | none => pure w
  | some lc => layoutFreeCell (w.cell.next + 1) w lc

/-- A layout of the one pane `wp`. -/
def layoutInit (w : Window) (wp : Nat) : Window :=
  { w with
    layoutRoot := some w.cell.next
    cell := w.cell.alloc ⟨.windowPane, false, none, w.sx, w.sy, 0, 0, some wp, []⟩
    pane := w.pane.modify wp fun p => { p with layoutCell := some w.cell.next } }

def windowCountPanes (w : Window) : UInt32 := UInt32.ofNat w.panes.length

/-- Every pane of the window lays its cell aside. -/
def saveCells (w : Window) : Memory WindowPane :=
  w.pane.map fun q p => if q ∈ w.panes then
    { p with savedLayoutCell := p.layoutCell, layoutCell := none } else p

def markZoomed (w : Window) (wp : Nat) : Window :=
  { w with pane := w.pane.modify wp fun p => { p with zoomed := true } }

def layAside (w : Window) : Window :=
  { w with pane := saveCells w, savedLayoutRoot := w.layoutRoot }

/-- What `window_zoom` does once `wp` is the active pane. -/
def zoomPane (w : Window) (wp : Nat) : Window :=
  { layoutInit (layAside (markZoomed w wp)) wp with zoomed := true }

def windowZoom (w : Window) (wp : Nat) : Exec (Window × Int) := do
  let _ ← w.pane.deref wp
  if w.zoomed then pure (w, -1)
  else if windowCountPanes w = 1 then pure (w, -1)
  else
    let r ← windowSetActivePane w wp
    pure (zoomPane r.1 wp, 0)

/-- Every pane of the window takes back the cell it laid aside. -/
def restoreCells (w : Window) : Memory WindowPane :=
  w.pane.map fun q p => if q ∈ w.panes then
    { p with layoutCell := p.savedLayoutCell, savedLayoutCell := none, zoomed := false } else p

def windowUnzoom (w : Window) : Exec (Window × Int) := do
  if w.zoomed then
    let w ← layoutFree { w with zoomed := false }
    pure ({ w with
      layoutRoot := w.savedLayoutRoot
      savedLayoutRoot := none
      pane := restoreCells w }, 0)
  else pure (w, -1)

end Ztmux.Panes
