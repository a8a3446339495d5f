import Mathlib
import Ztmux.Layout.Custom

/-!
The paste buffers.

A buffer lives in the heap from the call that makes it until `paste_free`, and is found through
two trees, one by name and one by age. A tree is the list of its elements in order: a
search compares with the elements of the tree as they are at that moment, so an element
that is freed or renamed while a tree holds it is seen by whoever reads it next.

A call is given names as references. A reference to the name of a buffer is good for as long as
the buffer keeps that string: it is gone with the buffer, and when a rename assigns another.
-/

namespace Ztmux.Paste

open Ztmux Ztmux.Layout

/-- Buffers are numbered in the order they are allocated. -/
abbrev Ptr := Nat

structure PasteBuffer where
  data : List UInt8
  size : Nat
  name : Text
  /-- Which of its strings the name is, the first being that it was made with. -/
  string : Nat
  automatic : Bool
  order : UInt32
  deriving DecidableEq, Inhabited

/-- `none` is memory that was freed, or not given out yet. -/
abbrev Heap := Ptr → Option PasteBuffer

/-- The static variables of the source and the heap. `fresh` is the next buffer allocated. -/
structure Store where
  heap : Heap
  fresh : Ptr
  nextIndex : UInt32
  nextOrder : UInt32
  numAutomatic : UInt32
  byName : List Ptr
  byTime : List Ptr

def Store.empty : Store := ⟨fun _ => none, 0, 0, 0, 0, [], []⟩

def pasteCmpNames (a b : PasteBuffer) : Ordering := compareOfLessAndEq a.name b.name

/-- Newer buffers come first. -/
def pasteCmpTimes (a b : PasteBuffer) : Ordering := compareOfLessAndEq b.order a.order

def deref (heap : Heap) (pb : Ptr) : Exec PasteBuffer :=
  match heap pb with
  | some b => .ok b
  | none => .error .useAfterFree

/-- A name given to a call: a string of the caller's, or the one that a buffer has. -/
inductive Name
  | own (text : Text)
  | borrowed (pb : Ptr) (string : Nat)
  deriving DecidableEq

def readName (heap : Heap) : Name → Exec Text
  | .own text => pure text
  | .borrowed pb string => do
      let b ← deref heap pb
      if b.string = string then pure b.name else .error .useAfterFree

def readText (heap : Heap) : Option Name → Exec (Option Text)
  | none => pure none
  | some name => return some (← readName heap name)

/-- The notification is queued with a copy of the name. It is taken as made also where the command
is run by a hook, which notifies nobody. -/
def notifyPasteBuffer (heap : Heap) (name : Option Name) : Exec Unit := do
  let _ ← readText heap name
  pure ()

/-- A notification of a buffer under the name it has. -/
def notifyOwn (heap : Heap) (pb : Ptr) : Exec Unit := do
  let b ← deref heap pb
  notifyPasteBuffer heap (some (.borrowed pb b.string))

/-! ### The trees -/

def rbFindBy (heap : Heap) (cmp : PasteBuffer → Ordering) : List Ptr → Exec (Option Ptr)
  | [] => pure none
  | pb :: rest => do
      match cmp (← deref heap pb) with
      | .eq => pure (some pb)
      | _ => rbFindBy heap cmp rest

/-- The tree with `elm`, or as it is when it holds an equal element. -/
def rbInsert (heap : Heap) (cmp : PasteBuffer → PasteBuffer → Ordering) (elm : Ptr) :
    List Ptr → Exec (List Ptr)
  | [] => pure [elm]
  | pb :: rest => do
      match cmp (← deref heap elm) (← deref heap pb) with
      | .lt => pure (elm :: pb :: rest)
      | .eq => pure (pb :: rest)
      | .gt => pure (pb :: (← rbInsert heap cmp elm rest))

/-- Removing reads the links in the element. -/
def rbRemove (heap : Heap) (elm : Ptr) (tree : List Ptr) : Exec (List Ptr) := do
  let _ ← deref heap elm
  pure (tree.erase elm)

/-- The element after `pb`. -/
def rbNext (tree : List Ptr) (pb : Ptr) : Option Ptr := tree[tree.idxOf pb + 1]?

/-! ### Looking up -/

def pasteWalk (σ : Store) : Option Ptr → Exec (Option Ptr)
  | none => pure σ.byTime.head?
  | some pb => do
      let _ ← deref σ.heap pb
      pure (rbNext σ.byTime pb)

/-- The first automatic buffer from `pb` on. -/
def skipNamed (σ : Store) : List Ptr → Exec (Option Ptr)
  | [] => pure none
  | pb :: rest => do
      if (← deref σ.heap pb).automatic then pure (some pb) else skipNamed σ rest

def pasteGetTop (σ : Store) : Exec (Option Ptr) := skipNamed σ σ.byTime

def pasteGetName (σ : Store) : Option Text → Exec (Option Ptr)
  | none => pure none
  | some [] => pure none
  | some name => rbFindBy σ.heap (fun pb => compareOfLessAndEq name pb.name) σ.byName

/-! ### The operations -/

/-- What an operation prints when it fails. -/
inductive PasteError
  | noBuffer
  | newNameEmpty
  | noBufferNamed (oldname : Text)
  | emptyBufferName
  deriving DecidableEq

def PasteError.message : PasteError → Text
  | .noBuffer => "no buffer".toList
  | .newNameEmpty => "new name is empty".toList
  | .noBufferNamed oldname => "no buffer ".toList ++ oldname
  | .emptyBufferName => "empty buffer name".toList

def pasteFree (σ : Store) (pb : Ptr) : Exec Store := do
  notifyOwn σ.heap pb
  let byName ← rbRemove σ.heap pb σ.byName
  let byTime ← rbRemove σ.heap pb σ.byTime
  let b ← deref σ.heap pb
  pure { σ with
    byName := byName, byTime := byTime,
    numAutomatic := if b.automatic then σ.numAutomatic - 1 else σ.numAutomatic,
    heap := Function.update σ.heap pb none }

def freeFound (σ : Store) : Option Ptr → Exec Store
  | some pb => pasteFree σ pb
  | none => pure σ

/-- The loop of `paste_add` that makes room. The walk steps past a buffer before it is
freed, so it meets the buffers that were there at the start, oldest first. -/
def evict (limit : Int) (σ : Store) : List Ptr → Exec Store
  | [] => pure σ
  | pb :: rest => do
      if (σ.numAutomatic.toNat : Int) < limit then pure σ
      else if (← deref σ.heap pb).automatic then evict limit (← pasteFree σ pb) rest
      else evict limit σ rest

def makeRoom (limit : Int) (σ : Store) : Exec Store := evict limit σ σ.byTime.reverse

/-- The loop of `paste_add` that picks a name no buffer has. -/
def pickName (σ : Store) (pre : Text) : Nat → UInt32 → Exec (Text × UInt32)
  | 0, _ => .error .outOfFuel
  | fuel + 1, tmp => do
      let name := pre ++ decimal tmp
      match ← pasteGetName σ (some name) with
      | none => pure (name, tmp + 1)
      | some _ => pickName σ pre fuel (tmp + 1)

/-- Allocate a buffer, put it into the trees and tell of it. -/
def Store.link (σ : Store) (b : PasteBuffer) : Exec Store := do
  let pb := σ.fresh
  let σ := { σ with heap := Function.update σ.heap pb (some b), fresh := pb + 1 }
  let byName ← rbInsert σ.heap pasteCmpNames pb σ.byName
  let byTime ← rbInsert σ.heap pasteCmpTimes pb σ.byTime
  notifyOwn σ.heap pb
  pure { σ with byName := byName, byTime := byTime }

def pasteAdd (limit : Int) (fuel : Nat) (σ : Store) (pre : Option Text) (data : List UInt8)
    (size : Nat) : Exec Store := do
  let pre := pre.getD "buffer".toList
  if size = 0 then pure σ
  else
    let σ ← makeRoom limit σ
    let order := σ.nextOrder
    let σ := { σ with numAutomatic := σ.numAutomatic + 1, nextOrder := σ.nextOrder + 1 }
    let (name, nextIndex) ← pickName σ pre fuel σ.nextIndex
    { σ with nextIndex := nextIndex }.link ⟨data, size, name, 0, true, order⟩

/-- The store and the error, if the call returns -1. -/
def pasteRename (σ : Store) (oldname newname : Option Name) :
    Exec (Store × Option PasteError) := do
  let old ← readText σ.heap oldname
  if old.getD [] = [] then pure (σ, some .noBuffer)
  else
    let new ← readText σ.heap newname
    if new.getD [] = [] then pure (σ, some .newNameEmpty)
    else
      match ← pasteGetName σ old with
      | none => pure (σ, some (.noBufferNamed (old.getD [])))
      | some pb =>
          let σ ← freeFound σ (← pasteGetName σ new)
          let byName ← rbRemove σ.heap pb σ.byName
          let b ← deref σ.heap pb
          -- the new name is copied here, after the buffer that had it was freed
          let name ← readText σ.heap newname
          let σ := { σ with
            heap := Function.update σ.heap pb (some { b with
              name := name.getD []
              string := b.string + 1
              automatic := false })
            numAutomatic := if b.automatic then σ.numAutomatic - 1 else σ.numAutomatic }
          let byName ← rbInsert σ.heap pasteCmpNames pb byName
          -- and both names are read again, after the buffer's old one was dropped
          notifyPasteBuffer σ.heap oldname
          notifyPasteBuffer σ.heap newname
          pure ({ σ with byName := byName }, none)

/-- The buffer has a copy of the name, and it is told of under that copy. -/
def pasteSet (limit : Int) (fuel : Nat) (σ : Store) (data : List UInt8) (size : Nat)
    (name : Option Name) : Exec (Store × Option PasteError) := do
  if size = 0 then pure (σ, none)
  else
    match name with
    | none => pure (← pasteAdd limit fuel σ none data size, none)
    | some name =>
        let text ← readName σ.heap name
        if text = [] then pure (σ, some .emptyBufferName)
        else
          let order := σ.nextOrder
          let σ := { σ with nextOrder := σ.nextOrder + 1 }
          let σ ← freeFound σ (← pasteGetName σ (some text))
          pure (← σ.link ⟨data, size, text, 0, false, order⟩, none)

def pasteReplace (σ : Store) (pb : Ptr) (data : List UInt8) (size : Nat) : Exec Store := do
  let b ← deref σ.heap pb
  let σ := { σ with heap := Function.update σ.heap pb (some { b with data := data, size := size }) }
  notifyOwn σ.heap pb
  pure σ

inductive Call
  | add (pre : Option Text) (data : List UInt8) (size : Nat)
  | set (data : List UInt8) (size : Nat) (name : Option Name)
  | rename (oldname newname : Option Name)
  | replace (pb : Ptr) (data : List UInt8) (size : Nat)
  | free (pb : Ptr)

def exec (limit : Int) (fuel : Nat) (σ : Store) : Call → Exec (Store × Option PasteError)
  | .add pre data size => return (← pasteAdd limit fuel σ pre data size, none)
  | .set data size name => pasteSet limit fuel σ data size name
  | .rename oldname newname => pasteRename σ oldname newname
  | .replace pb data size => return (← pasteReplace σ pb data size, none)
  | .free pb => return (← pasteFree σ pb, none)

end Ztmux.Paste
