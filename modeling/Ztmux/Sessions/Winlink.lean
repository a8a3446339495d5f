import Ztmux.Machine

/-!
Sessions and the links to windows they hold.

A session holds its winlinks in a tree by index, here a list in that order, and remembers
the ones that were visited on a stack. A winlink is known by its address; what can change
in one while it is linked, its flags, is kept by address, and a winlink that is not in the tree
it is looked for in was freed. A window counts the winlinks that point to it.
-/

namespace Ztmux.Sessions

abbrev Window := Nat
abbrev SessionId := Nat

structure Winlink where
  ptr : Nat
  idx : Int
  window : Window
  deriving DecidableEq, Repr

structure Session where
  windows : List Winlink
  lastw : List Nat
  curw : Option Nat
  baseIndex : Int
  deriving DecidableEq, Repr

/-- The sessions of the server, one group of them, the flags of the winlinks (`WINLINK_VISITED`
and the three alerts), the winlinks of the windows with their counts, and the next address. -/
structure World where
  sessions : SessionId → Session
  group : List SessionId
  visited : Nat → Bool
  alerts : Nat → BitVec 3
  winlinks : Window → List Nat
  references : Window → UInt32
  fresh : Nat

def World.modify (σ : World) (s : SessionId) (f : Session → Session) : World :=
  { σ with sessions := Function.update σ.sessions s (f (σ.sessions s)) }

def i32Max : Int := 2 ^ 31 - 1

/-! ### Looking up -/

/-- Read the winlink at an address. -/
def deref (windows : List Winlink) (p : Nat) : Exec Winlink :=
  match windows.find? fun wl => wl.ptr = p with
  | some wl => .ok wl
  | none => .error .useAfterFree

def winlinkFindByIndex (windows : List Winlink) (idx : Int) : Exec (Option Winlink) :=
  if idx < 0 then .error .fatal else .ok (windows.find? fun wl => wl.idx = idx)

def winlinkFindByWindow (windows : List Winlink) (w : Window) : Option Winlink :=
  windows.find? fun wl => wl.window = w

/-- The winlinks behind one, and those before it, nearest first. -/
def following (windows : List Winlink) (p : Nat) : List Winlink :=
  (windows.dropWhile fun wl => wl.ptr ≠ p).tail

def preceding (windows : List Winlink) (p : Nat) : List Winlink :=
  (windows.takeWhile fun wl => wl.ptr ≠ p).reverse

/-! ### Linking -/

/-- The loop of `winlink_next_index`, which is back at its first index after 2^31 turns. -/
def nextIndex (windows : List Winlink) : Nat → Int → Exec Int
  | 0, _ => pure (-1)
  | turns + 1, i => do
      match ← winlinkFindByIndex windows i with
      | none => pure i
      | some _ => nextIndex windows turns (if i = i32Max then 0 else i + 1)

def winlinkNextIndex (windows : List Winlink) (idx : Int) : Exec Int :=
  nextIndex windows (2 ^ 31) idx

/-- The index that `winlink_add` takes, if there is one. -/
def winlinkIndex (windows : List Winlink) (idx : Int) : Exec (Option Int) := do
  if idx < 0 then
    let next ← winlinkNextIndex windows (wrapI32 (-idx - 1))
    pure (if next = -1 then none else some next)
  else
    match ← winlinkFindByIndex windows idx with
    | some _ => pure none
    | none => pure (some idx)

/-- Put a winlink into the tree. -/
def rbInsert (wl : Winlink) : List Winlink → List Winlink
  | [] => [wl]
  | x :: xs => if wl.idx < x.idx then wl :: x :: xs else x :: rbInsert wl xs

/-- `winlink_add`, and `winlink_set_window` of the winlink it returns. -/
def winlinkAdd (σ : World) (windows : List Winlink) (idx : Int) (w : Window) :
    Exec (Option (World × List Winlink × Winlink)) := do
  match ← winlinkIndex windows idx with
  | none => pure none
  | some idx =>
      let wl : Winlink := ⟨σ.fresh, idx, w⟩
      pure (some
        ({ σ with
            fresh := σ.fresh + 1
            visited := Function.update σ.visited wl.ptr false
            alerts := Function.update σ.alerts wl.ptr 0
            winlinks := Function.update σ.winlinks w (σ.winlinks w ++ [wl.ptr])
            references := Function.update σ.references w (σ.references w + 1) },
          rbInsert wl windows, wl))

/-- What `winlink_remove` does beside taking the winlink out of its tree. -/
def unlink (σ : World) (wl : Winlink) : World :=
  { σ with
    winlinks := Function.update σ.winlinks wl.window ((σ.winlinks wl.window).erase wl.ptr)
    references := Function.update σ.references wl.window (σ.references wl.window - 1) }

/-! ### The stack of visited winlinks -/

def winlinkStackRemove (σ : World) (s : SessionId) (p : Nat) : World :=
  if σ.visited p then
    { σ.modify s fun x => { x with lastw := x.lastw.erase p } with
      visited := Function.update σ.visited p false }
  else σ

def winlinkStackPush (σ : World) (s : SessionId) : Option Nat → World
  | none => σ
  | some p =>
      let σ := winlinkStackRemove σ s p
      { σ.modify s fun x => { x with lastw := p :: x.lastw } with
        visited := Function.update σ.visited p true }

/-- The alerts of every winlink to a window are cleared. -/
def winlinkClearFlags (σ : World) (w : Window) : World :=
  { σ with alerts := fun p => if p ∈ σ.winlinks w then 0 else σ.alerts p }

/-! ### The current winlink -/

def sessionSetCurrent (σ : World) (s : SessionId) : Option Nat → Exec (World × Int)
  | none => pure (σ, -1)
  | some p =>
      if (σ.sessions s).curw = some p then pure (σ, 1)
      else do
        let wl ← deref (σ.sessions s).windows p
        let pushed := winlinkStackPush (winlinkStackRemove σ s p) s (σ.sessions s).curw
        pure (winlinkClearFlags (pushed.modify s fun x => { x with curw := some p }) wl.window, 0)

/-- The first winlink of a walk, or the first with an alert. -/
def sessionAlert (σ : World) (alert : Bool) (walk : List Winlink) : Option Winlink :=
  if alert then walk.find? fun wl => σ.alerts wl.ptr ≠ 0 else walk.head?

/-- What `session_next` and `session_previous` share: a walk from the current winlink on, and
one over the whole tree when that one finds nothing. -/
def sessionStep (σ : World) (s : SessionId) (alert : Bool) (walk : Nat → List Winlink)
    (all : List Winlink) : Exec (World × Int) :=
  match (σ.sessions s).curw with
  | none => pure (σ, -1)
  | some c => do
      let _ ← deref (σ.sessions s).windows c
      let wl := (sessionAlert σ alert (walk c)).or (sessionAlert σ alert all)
      sessionSetCurrent σ s (wl.map (·.ptr))

def sessionNext (σ : World) (s : SessionId) (alert : Bool) : Exec (World × Int) :=
  let windows := (σ.sessions s).windows
  sessionStep σ s alert (following windows) windows

def sessionPrevious (σ : World) (s : SessionId) (alert : Bool) : Exec (World × Int) :=
  let windows := (σ.sessions s).windows
  sessionStep σ s alert (preceding windows) windows.reverse

def sessionSelect (σ : World) (s : SessionId) (idx : Int) : Exec (World × Int) := do
  let wl ← winlinkFindByIndex (σ.sessions s).windows idx
  sessionSetCurrent σ s (wl.map (·.ptr))

def sessionLast (σ : World) (s : SessionId) : Exec (World × Int) :=
  match (σ.sessions s).lastw.head? with
  | none => pure (σ, -1)
  | some p => if (σ.sessions s).curw = some p then pure (σ, 1) else sessionSetCurrent σ s (some p)

/-- `session_last(s) != 0 && session_previous(s, false) != 0`, and `session_next` then. -/
def leaveCurrent (σ : World) (s : SessionId) : Exec World := do
  let last ← sessionLast σ s
  if last.2 = 0 then pure last.1
  else
    let previous ← sessionPrevious last.1 s false
    if previous.2 = 0 then pure previous.1 else pure (← sessionNext previous.1 s false).1

end Ztmux.Sessions
