import Ztmux.Sessions.Winlink

/-!
Attaching and detaching windows, renumbering, and keeping a group of sessions together.

`session_group_synchronize1` and `session_renumber_windows` both replace the winlinks of a
session: they link the windows again into an empty tree, look the current winlink and those
on the stack up in it, and free the old ones.
-/

namespace Ztmux.Sessions

/-! ### Replacing the winlinks of a session -/

/-- Link a window and take the alerts of the winlink that is replaced. -/
def relink (σ : World) (new : List Winlink) (wl : Winlink) (idx : Int) :
    Exec (World × List Winlink × Winlink) := do
  match ← winlinkAdd σ new idx wl.window with
  | none => .error .nullPointer
  | some (σ, new, wl2) =>
      pure ({ σ with alerts := Function.update σ.alerts wl2.ptr (σ.alerts wl.ptr) }, new, wl2)

/-- The stack, with the winlinks that `find` returns for those on the old one. -/
def restack (σ : World) (old : List Winlink) (find : Winlink → Exec (Option Winlink)) :
    List Nat → Exec (World × List Nat)
  | [] => pure (σ, [])
  | p :: ps => do
      match ← find (← deref old p) with
      | none => restack σ old find ps
      | some wl2 =>
          let rest ← restack { σ with visited := Function.update σ.visited wl2.ptr true } old find
              ps
          pure (rest.1, wl2.ptr :: rest.2)

/-- Free the old winlinks and give the session the new ones. -/
def replaceWindows (σ : World) (s : SessionId) (old new : List Winlink) (lastw : List Nat)
    (curw : Option Winlink) : World :=
  (old.foldl unlink σ).modify s fun x =>
    { x with windows := new, lastw := lastw, curw := curw.map (·.ptr) }

/-! ### Synchronizing -/

/-- Link all the windows of the target. -/
def copyWindows (σ : World) (new : List Winlink) : List Winlink → Exec (World × List Winlink)
  | [] => pure (σ, new)
  | wl :: wls => do
      let r ← relink σ new wl wl.idx
      copyWindows r.1 r.2.1 wls

/-- If the current window has vanished, move to the next. -/
def moveOff (σ : World) (ww : List Winlink) (s : SessionId) : Exec World :=
  match (σ.sessions s).curw with
  | none => pure σ
  | some c => do
      let cur ← deref (σ.sessions s).windows c
      match ← winlinkFindByIndex ww cur.idx with
      | some _ => pure σ
      | none => leaveCurrent σ s

/-- The index at which the current winlink is looked up: that of the session, or of the target
when the session has none yet. -/
def currentIndex (σ : World) (target s : SessionId) : Exec Int :=
  match (σ.sessions s).curw with
  | some c => do pure (← deref (σ.sessions s).windows c).idx
  | none =>
      match (σ.sessions target).curw with
      | some c => do pure (← deref (σ.sessions target).windows c).idx
      | none => .error .nullPointer

def sessionGroupSynchronize1 (σ : World) (target s : SessionId) : Exec World := do
  let ww := (σ.sessions target).windows
  if ww = [] then pure σ
  else
    let σ ← moveOff σ ww s
    let old := σ.sessions s
    let idx ← currentIndex σ target s
    let copied ← copyWindows σ [] ww
    let curw ← winlinkFindByIndex copied.2 idx
    let stack ← restack copied.1 old.windows (fun wl => winlinkFindByIndex copied.2 wl.idx)
        old.lastw
    pure (replaceWindows stack.1 s old.windows copied.2 stack.2 curw)

/-- Synchronize the members of a list to the target. -/
def synchronizeAll (σ : World) (target : SessionId) : List SessionId → Exec World
  | [] => pure σ
  | s :: ss => do
      if s = target then synchronizeAll σ target ss
      else synchronizeAll (← sessionGroupSynchronize1 σ target s) target ss

def sessionGroupSynchronizeFrom (σ : World) (target : SessionId) : Exec World :=
  if target ∈ σ.group then synchronizeAll σ target σ.group else pure σ

/-! ### Attaching and detaching -/

/-- The new winlink, or nothing and the message `index in use`. -/
def sessionAttach (σ : World) (s : SessionId) (w : Window) (idx : Int) :
    Exec (World × Except String Nat) := do
  match ← winlinkAdd σ (σ.sessions s).windows idx w with
  | none => pure (σ, .error ("index in use: " ++ toString idx))
  | some (σ, windows, wl) =>
      let σ ← sessionGroupSynchronizeFrom (σ.modify s fun x => { x with windows := windows }) s
      pure (σ, .ok wl.ptr)

/-- The winlink is taken off the stack and out of the tree. -/
def removeWinlink (σ : World) (s : SessionId) (wl : Winlink) : World :=
  let σ := winlinkStackRemove { σ with alerts := Function.update σ.alerts wl.ptr 0 } s wl.ptr
  unlink (σ.modify s fun x => { x with windows := x.windows.erase wl }) wl

/-- Move off the winlink that is to be removed. -/
def leaveRemoved (σ : World) (s : SessionId) (p : Nat) : Exec World :=
  if (σ.sessions s).curw = some p then leaveCurrent σ s else pure σ

/-- Whether the session has no window left. -/
def sessionDetach (σ : World) (s : SessionId) (p : Nat) : Exec (World × Bool) := do
  let σ ← leaveRemoved σ s p
  let wl ← deref (σ.sessions s).windows p
  let σ ← sessionGroupSynchronizeFrom (removeWinlink σ s wl) s
  pure (σ, (σ.sessions s).windows.isEmpty)

def sessionDestroy (σ : World) (s : SessionId) : World :=
  if (σ.sessions s).curw = none then σ
  else
    let old := (σ.sessions s).windows
    { replaceWindows σ s old [] [] none with group := σ.group.erase s }

def serverDestroySessionGroup (σ : World) (s : SessionId) : World :=
  if s ∈ σ.group then σ.group.foldl sessionDestroy σ else sessionDestroy σ s

/-- A caller of `session_detach` destroys a session that is empty. -/
def serverUnlinkWindow (σ : World) (s : SessionId) (p : Nat) : Exec World := do
  let r ← sessionDetach σ s p
  pure (if r.2 then serverDestroySessionGroup r.1 s else r.1)

/-! ### Renumbering -/

/-- Give the windows new indexes from `newIdx` on. `cur` is the new index of the current
winlink. -/
def renumber (curw : Option Nat) (σ : World) (new : List Winlink) (newIdx cur : Int) :
    List Winlink → Exec (World × List Winlink × Int)
  | [] => pure (σ, new, cur)
  | wl :: wls => do
      let r ← relink σ new wl newIdx
      renumber curw r.1 r.2.1 (wrapI32 (newIdx + 1)) (if curw = some wl.ptr then r.2.2.idx
        else cur) wls

/-- The winlinks on a stack lose the flag. -/
def unvisit (σ : World) (ps : List Nat) : World :=
  { σ with visited := fun p => if p ∈ ps then false else σ.visited p }

def sessionRenumberWindows (σ : World) (s : SessionId) : Exec World := do
  let old := σ.sessions s
  let renumbered ← renumber old.curw σ [] old.baseIndex 0 old.windows
  let stack ← restack (unvisit renumbered.1 old.lastw) old.windows
    (fun wl => pure (winlinkFindByWindow renumbered.2.1 wl.window)) old.lastw
  let curw ← winlinkFindByIndex renumbered.2.1 renumbered.2.2
  pure (replaceWindows stack.1 s old.windows renumbered.2.1 stack.2 curw)

/-! ### Calls -/

inductive Call
  | attach (w : Window) (idx : Int)
  | detach (p : Nat)
  | setCurrent (p : Option Nat)
  | select (idx : Int)
  | next (alert : Bool)
  | previous (alert : Bool)
  | last
  | renumber
  deriving DecidableEq, Repr

def exec (σ : World) (s : SessionId) : Call → Exec World
  | .attach w idx => do pure (← sessionAttach σ s w idx).1
  | .detach p => serverUnlinkWindow σ s p
  | .setCurrent p => do pure (← sessionSetCurrent σ s p).1
  | .select idx => do pure (← sessionSelect σ s idx).1
  | .next alert => do pure (← sessionNext σ s alert).1
  | .previous alert => do pure (← sessionPrevious σ s alert).1
  | .last => do pure (← sessionLast σ s).1
  | .renumber => sessionRenumberWindows σ s

end Ztmux.Sessions
