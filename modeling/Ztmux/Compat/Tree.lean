import Ztmux.Machine
import Ztmux.Library.RedBlack

/-!
The red-black tree that is kept in its elements.

Each element has an entry with its links and its colour; a null pointer is `none`. Where the
source has two branches that are mirror images, the side is a parameter.
-/

namespace Ztmux.Compat

open RedBlack

/-- `rb_entry` -/
structure Entry (T : Type*) where
  left : Option T
  right : Option T
  parent : Option T
  color : Color
  deriving DecidableEq, Repr

variable {T : Type}

def Entry.child (e : Entry T) : Side → Option T
  | .left => e.left
  | .right => e.right

def Entry.setChild (e : Entry T) (p : Option T) : Side → Entry T
  | .left => { e with left := p }
  | .right => { e with right := p }

/-- `rb_head`, and the entries of all the elements there are. -/
structure Heap (T : Type) where
  root : Option T
  entry : T → Entry T

variable [DecidableEq T]

/-! ### Entries -/

def rbEntry (h : Heap T) : Option T → Exec (Entry T)
  | none => .error .nullPointer
  | some x => .ok (h.entry x)

def rbChild (d : Side) (h : Heap T) (p : Option T) : Exec (Option T) := do
  pure ((← rbEntry h p).child d)

def rbParent (h : Heap T) (p : Option T) : Exec (Option T) := do pure (← rbEntry h p).parent

def rbColor (h : Heap T) (p : Option T) : Exec Color := do pure (← rbEntry h p).color

def Heap.modify (h : Heap T) (x : T) (f : Entry T → Entry T) : Heap T :=
  { h with entry := Function.update h.entry x (f (h.entry x)) }

def rbModify (h : Heap T) (p : Option T) (f : Entry T → Entry T) : Exec (Heap T) :=
  match p with
  | none => .error .nullPointer
  | some x => .ok (h.modify x f)

def rbSetChild (d : Side) (h : Heap T) (p value : Option T) : Exec (Heap T) :=
  rbModify h p fun e => e.setChild value d

def rbSetParent (h : Heap T) (p value : Option T) : Exec (Heap T) :=
  rbModify h p fun e => { e with parent := value }

def rbSetColor (h : Heap T) (p : Option T) (color : Color) : Exec (Heap T) :=
  rbModify h p fun e => { e with color := color }

def rbSetBlackRed (h : Heap T) (black red : Option T) : Exec (Heap T) := do
  rbSetColor (← rbSetColor h black .black) red .red

def rbSet (h : Heap T) (elm parent : Option T) : Exec (Heap T) :=
  rbModify h elm fun _ => ⟨none, none, parent, .red⟩

/-- Skip a call when a pointer is null. -/
def unlessNull (p : Option T) (h : Heap T) (call : Exec (Heap T)) : Exec (Heap T) :=
  if p = none then pure h else call

/-- Make a parent, or the head, point to another element than `elm`. -/
def rbReplace (h : Heap T) (parent elm value : Option T) : Exec (Heap T) :=
  if parent = none then pure { h with root := value }
  else do
    if (← rbChild .left h parent) = elm then rbSetChild .left h parent value
    else rbSetChild .right h parent value

/-! ### Rotation -/

/-- Move an element down to the side `d`. -/
def rbRotate (d : Side) (h : Heap T) (elm : Option T) : Exec (Heap T) := do
  let tmp ← rbChild d.other h elm
  let h ← rbSetChild d.other h elm (← rbChild d h tmp)
  let h ← unlessNull (← rbChild d.other h elm) h (do rbSetParent h (← rbChild d h tmp) elm)
  let h ← rbSetParent h tmp (← rbParent h elm)
  let h ← rbReplace h (← rbParent h tmp) elm tmp
  let h ← rbSetChild d h tmp elm
  rbSetParent h elm tmp

def rbRotateLeft (h : Heap T) (elm : Option T) : Exec (Heap T) := rbRotate .left h elm

def rbRotateRight (h : Heap T) (elm : Option T) : Exec (Heap T) := rbRotate .right h elm

/-! ### Colours -/

/-- `!p.is_null() && rb_color(p) == RB_RED` -/
def isRed (h : Heap T) (p : Option T) : Exec Bool :=
  if p = none then pure false else do pure (decide ((← rbColor h p) = .red))

/-- The side of `parent` that points to `elm`, where the source tries the left one. -/
def sideOf (h : Heap T) (parent elm : Option T) : Exec Side := do
  pure (if (← rbChild .left h parent) = elm then .left else .right)

/-- Bring a red element that is on the inner side to the outer one. It changes places with its
parent. -/
def turnOut (d : Side) (h : Heap T) (parent elm : Option T) :
    Exec (Heap T × Option T × Option T) := do
  if (← rbChild d.other h parent) = elm then pure (← rbRotate d h parent, elm, parent)
  else pure (h, parent, elm)

def blackenRoot (h : Heap T) : Exec (Heap T) := rbSetColor h h.root .black

def rbInsertColor : Nat → Heap T → Option T → Exec (Heap T)
  | 0, _, _ => .error .outOfFuel
  | fuel + 1, h, elm => do
      let parent ← rbParent h elm
      if ← isRed h parent then
        let gparent ← rbParent h parent
        let d ← sideOf h gparent parent
        let tmp ← rbChild d.other h gparent
        if ← isRed h tmp then
          let h ← rbSetBlackRed (← rbSetColor h tmp .black) parent gparent
          rbInsertColor fuel h gparent
        else
          let r ← turnOut d h parent elm
          let h ← rbRotate d.other (← rbSetBlackRed r.1 r.2.1 gparent) gparent
          rbInsertColor fuel h r.2.2
      else blackenRoot h

/-- A red sibling is rotated away. -/
def blackSibling (d : Side) (h : Heap T) (parent : Option T) : Exec (Heap T × Option T) := do
  let tmp ← rbChild d.other h parent
  if (← rbColor h tmp) = .red then
    let h ← rbRotate d (← rbSetBlackRed h tmp parent) parent
    pure (h, ← rbChild d.other h parent)
  else pure (h, tmp)

/-- Neither child of the sibling is red. -/
def blackChildren (h : Heap T) (tmp : Option T) : Exec Bool := do
  if ← isRed h (← rbChild .left h tmp) then pure false
  else pure (!(← isRed h (← rbChild .right h tmp)))

/-- When the outer child of the sibling is not red, the inner one takes its place. -/
def redOuter (d : Side) (h : Heap T) (parent tmp : Option T) : Exec (Heap T × Option T) := do
  if ← isRed h (← rbChild d.other h tmp) then pure (h, tmp)
  else
    let inner ← rbChild d h tmp
    let h ← unlessNull inner h (rbSetColor h inner .black)
    let h ← rbRotate d.other (← rbSetColor h tmp .red) tmp
    pure (h, ← rbChild d.other h parent)

/-- The last turn of the loop: the sibling takes the colour of the parent and its place. -/
def lastTurn (d : Side) (h : Heap T) (parent tmp : Option T) : Exec (Heap T) := do
  let r ← redOuter d h parent tmp
  let h ← rbSetColor r.1 r.2 (← rbColor r.1 parent)
  let h ← rbSetColor h parent .black
  let outer ← rbChild d.other h r.2
  let h ← unlessNull outer h (rbSetColor h outer .black)
  rbRotate d h parent

/-- `if !elm.is_null() { rb_set_color(elm, RB_BLACK) }` -/
def blacken (h : Heap T) (elm : Option T) : Exec (Heap T) :=
  unlessNull elm h (rbSetColor h elm .black)

def rbRemoveColor : Nat → Heap T → Option T → Option T → Exec (Heap T)
  | 0, _, _, _ => .error .outOfFuel
  | fuel + 1, h, parent, elm => do
      if (← isRed h elm) || decide (elm = h.root) then blacken h elm
      else
        let d ← sideOf h parent elm
        let r ← blackSibling d h parent
        if ← blackChildren r.1 r.2 then
          let h ← rbSetColor r.1 r.2 .red
          rbRemoveColor fuel h (← rbParent h parent) parent
        else
          let h ← lastTurn d r.1 parent r.2
          blacken h h.root

/-! ### Searching -/

/-- The last element on the side `d` from one on. -/
def rbEnd (d : Side) : Nat → Heap T → Option T → Exec (Option T)
  | 0, _, _ => .error .outOfFuel
  | fuel + 1, h, elm => do
      let next ← rbChild d h elm
      if next = none then pure elm else rbEnd d fuel h next

def rbFindBy (cmp : T → Ordering) : Nat → Heap T → Option T → Exec (Option T)
  | 0, _, _ => .error .outOfFuel
  | _ + 1, _, none => pure none
  | fuel + 1, h, some x =>
      match cmp x with
      | .lt => do rbFindBy cmp fuel h (← rbChild .left h (some x))
      | .gt => do rbFindBy cmp fuel h (← rbChild .right h (some x))
      | .eq => pure (some x)

/-- The loop of `rb_insert`: the element that compares equal, or the parent for the new one and
the last comparison. -/
def rbDescend (cmp : T → Ordering) :
    Nat → Heap T → Option T → Option T → Ordering → Exec (T ⊕ Option T × Ordering)
  | 0, _, _, _, _ => .error .outOfFuel
  | _ + 1, _, none, parent, comp => pure (.inr (parent, comp))
  | fuel + 1, h, some x, _, _ =>
      match cmp x with
      | .lt => do rbDescend cmp fuel h (← rbChild .left h (some x)) (some x) .lt
      | .gt => do rbDescend cmp fuel h (← rbChild .right h (some x)) (some x) .gt
      | .eq => pure (.inl x)

/-- `rb_minmax`, to one side. -/
def rbMinMax (d : Side) : Nat → Heap T → Option T → Option T → Exec (Option T)
  | 0, _, _, _ => .error .outOfFuel
  | _ + 1, _, none, parent => pure parent
  | fuel + 1, h, some x, _ => do rbMinMax d fuel h (← rbChild d h (some x)) (some x)

def rbMin (fuel : Nat) (h : Heap T) : Exec (Option T) := rbMinMax .left fuel h h.root none

def rbMax (fuel : Nat) (h : Heap T) : Exec (Option T) := rbMinMax .right fuel h h.root none

/-- `!rb_parent(elm).is_null()` and the parent points to `elm` on the side `d`. -/
def isSibling (d : Side) (h : Heap T) (elm : Option T) : Exec Bool := do
  let parent ← rbParent h elm
  if parent = none then pure false else pure (decide ((← rbChild d h parent) = elm))

/-- Up from the side `d`. -/
def rbClimb (d : Side) : Nat → Heap T → Option T → Exec (Option T)
  | 0, _, _ => .error .outOfFuel
  | fuel + 1, h, elm => do
      if ← isSibling d h elm then rbClimb d fuel h (← rbParent h elm)
      else rbParent h elm

/-- The element behind one on the side `d`. -/
def rbStep (d : Side) (fuel : Nat) (h : Heap T) (elm : Option T) : Exec (Option T) := do
  let next ← rbChild d h elm
  if next = none then
    if ← isSibling d.other h elm then rbParent h elm else rbClimb d fuel h elm
  else rbEnd d.other fuel h next

def rbNext (fuel : Nat) (h : Heap T) (elm : Option T) : Exec (Option T) := rbStep .right fuel h elm

def rbPrev (fuel : Nat) (h : Heap T) (elm : Option T) : Exec (Option T) := rbStep .left fuel h elm

/-- `rb_foreach`: the elements from one on, by `rb_next`. -/
def rbForeach (fuel : Nat) (h : Heap T) : Nat → Option T → Exec (List T)
  | 0, _ => .error .outOfFuel
  | _ + 1, none => pure []
  | turns + 1, some x => do pure (x :: (← rbForeach fuel h turns (← rbNext fuel h (some x))))

/-! ### Inserting and removing

Elements compare as their keys do. -/

variable {K : Type} [LinearOrder K] (key : T → K)

def rbFind (fuel : Nat) (h : Heap T) (elm : T) : Exec (Option T) :=
  rbFindBy (fun x => compare (key elm) (key x)) fuel h h.root

/-- Link a new element below the parent that was found for it. -/
def rbLink (h : Heap T) (elm : T) (parent : Option T) (comp : Ordering) : Exec (Heap T) := do
  let h ← rbSet h (some elm) parent
  if parent = none then pure { h with root := some elm }
  else if comp = .lt then rbSetChild .left h parent (some elm)
  else rbSetChild .right h parent (some elm)

/-- The element with an equal key that is in the tree already, or null. -/
def rbInsert (fuel : Nat) (h : Heap T) (elm : T) : Exec (Heap T × Option T) := do
  match ← rbDescend (fun x => compare (key elm) (key x)) fuel h h.root none .eq with
  | .inl x => pure (h, some x)
  | .inr r => pure (← rbInsertColor fuel (← rbLink h elm r.1 r.2) (some elm), none)

/-- The loop that goes up to the root for nothing. -/
def rbAscend : Nat → Heap T → Option T → Exec Unit
  | 0, _, _ => .error .outOfFuel
  | fuel + 1, h, left => do
      let left ← rbParent h left
      if left = none then pure () else rbAscend fuel h left

/-- Take an element with at most one child out of the tree. -/
def rbSplice (h : Heap T) (elm child : Option T) : Exec (Heap T × Option T × Color) := do
  let parent ← rbParent h elm
  let color ← rbColor h elm
  let h ← unlessNull child h (rbSetParent h child parent)
  pure (← rbReplace h parent elm child, parent, color)

/-- An element takes over the links and the colour of another one. -/
def rbTakePlace (h : Heap T) (old : T) (elm : Option T) : Exec (Heap T) := do
  let h ← rbModify h elm fun _ => h.entry old
  let h ← rbReplace h (← rbParent h (some old)) (some old) elm
  let h ← rbSetParent h (← rbChild .left h (some old)) elm
  let right ← rbChild .right h (some old)
  unlessNull right h (rbSetParent h right elm)

/-- The successor takes the place of an element with two children: what is to be repaired, its
parent and the colour that was taken out. -/
def rbRemoveInner (fuel : Nat) (h : Heap T) (old : T) :
    Exec (Heap T × Option T × Option T × Color) := do
  let elm ← rbEnd .left fuel h (← rbChild .right h (some old))
  let child ← rbChild .right h elm
  let r ← rbSplice h elm child
  let parent := if (← rbParent r.1 elm) = some old then elm else r.2.1
  let h ← rbTakePlace r.1 old elm
  if parent = none then pure (h, child, parent, r.2.2)
  else
    rbAscend fuel h parent
    pure (h, child, parent, r.2.2)

/-- An element with at most one child. -/
def rbRemoveOuter (h : Heap T) (old : T) (child : Option T) :
    Exec (Heap T × Option T × Option T × Color) := do
  let r ← rbSplice h (some old) child
  pure (r.1, child, r.2.1, r.2.2)

def rbRemoveLinks (fuel : Nat) (h : Heap T) (old : T) :
    Exec (Heap T × Option T × Option T × Color) := do
  let left ← rbChild .left h (some old)
  let right ← rbChild .right h (some old)
  if left = none then rbRemoveOuter h old right
  else if right = none then rbRemoveOuter h old left
  else rbRemoveInner fuel h old

def rbRemove (fuel : Nat) (h : Heap T) (old : T) : Exec (Heap T) := do
  let r ← rbRemoveLinks fuel h old
  if r.2.2.2 = .black then rbRemoveColor fuel r.1 r.2.2.1 r.2.1 else pure r.1

end Ztmux.Compat
