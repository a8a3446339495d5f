import Mathlib

/-!
A command queue.

`cmdq_next` runs the items of a queue from the front. What an item runs may add items to
the queue it is on, so a call of `cmdq_next` is cut into the pieces between which that can
happen: the call starts, an iteration of its loop fires an item, what is fired returns, and
the iteration ends. Between the pieces the queue remembers where the call is.
-/

namespace Ztmux.Cmdq

abbrev Client := Nat

inductive CmdqType
  | command
  | callback
  deriving DecidableEq, Repr

inductive CmdRetval
  | error
  | normal
  | wait
  | stop
  deriving DecidableEq, Repr

/-- An item that was made and not yet put on a queue. -/
structure NewItem where
  id : Nat
  type : CmdqType
  group : UInt32
  deriving DecidableEq, Repr

structure CmdqItem where
  id : Nat
  client : Option Client
  type : CmdqType
  group : UInt32
  fired : Bool
  waiting : Bool
  deriving DecidableEq, Repr

def NewItem.queued (client : Option Client) (new : NewItem) : CmdqItem :=
  ⟨new.id, client, new.type, new.group, false, false⟩

/-- Where `cmdq_next` is. `items` is the number of items it has run, `item` the one it is
at, and `saved` the client of that item while a command runs. -/
inductive Phase
  | outside (items : UInt32)
  | looping (items : UInt32)
  | firing (items : UInt32) (item : Nat) (saved : Option Client)
  | returned (items : UInt32) (item : Nat) (retval : CmdRetval)
  deriving DecidableEq, Repr

structure CmdqList where
  list : List CmdqItem
  references : Client → Int32
  phase : Phase

/-! ### Adding items -/

def reference (references : Client → Int32) : Option Client → Client → Int32
  | some c => Function.update references c (references c + 1)
  | none => references

def serverClientUnref (references : Client → Int32) : Option Client → Client → Int32
  | some c => Function.update references c (references c - 1)
  | none => references

/-- Append to the queue of the client `c`. -/
def cmdqAppend (c : Option Client) (queue : CmdqList) : List NewItem → CmdqList
  | [] => queue
  | item :: next =>
      cmdqAppend c
        { queue with
          references := reference queue.references c
          list := queue.list ++ [item.queued c] } next

/-- A list with `xs` after the first element that meets `p`. -/
def insertAfter {α : Type} (p : α → Bool) (xs : List α) : List α → List α
  | [] => []
  | y :: ys => if p y then y :: (xs ++ ys) else y :: insertAfter p xs ys

/-- The loop of `cmdq_insert_after`. -/
def insertItems (c : Option Client) (queue : CmdqList) (after : Nat) : List NewItem → CmdqList
  | [] => queue
  | item :: next =>
      insertItems c
        { queue with
          references := reference queue.references c
          list := insertAfter (fun x => x.id = after) [item.queued c] queue.list } item.id next

/-- The items are for the client of the item they go after. -/
def cmdqInsertAfter (queue : CmdqList) (after : CmdqItem) (items : List NewItem) : CmdqList :=
  insertItems after.client queue after.id items

/-! ### Removing items -/

/-- Change an item in its place. -/
def CmdqList.modify (queue : CmdqList) (id : Nat) (f : CmdqItem → CmdqItem) : CmdqList :=
  { queue with list := queue.list.map fun x => if x.id = id then f x else x }

def cmdqContinue (queue : CmdqList) (id : Nat) : CmdqList :=
  queue.modify id fun x => { x with waiting := false }

def cmdqRemove (queue : CmdqList) (item : CmdqItem) : CmdqList :=
  { queue with
    references := serverClientUnref queue.references item.client
    list := queue.list.filter fun x => x.id ≠ item.id }

/-- The items behind an item. -/
def behind (item : CmdqItem) (list : List CmdqItem) : List CmdqItem :=
  (list.dropWhile fun x => x.id ≠ item.id).tail

def cmdqRemoveGroup (queue : CmdqList) (item : CmdqItem) : CmdqList :=
  if item.group = 0 then queue
  else
    (behind item queue.list).foldl
      (fun queue this => if this.group = item.group then cmdqRemove queue this else queue) queue

/-! ### Running -/

/-- The start of `cmdq_next`. -/
def cmdqNext (queue : CmdqList) : CmdqList :=
  match queue.list.head? with
  | none => { queue with phase := .outside 0 }
  | some item =>
      if item.waiting then { queue with phase := .outside 0 }
      else { queue with phase := .looping 0 }

/-- One iteration of the loop, up to the call of what the item runs. A command without a client
runs for the one that `cmd_find_client` finds. -/
def cmdqIterate (queue : CmdqList) (items : UInt32) (found : Option Client) : CmdqList :=
  match queue.list.head? with
  | none => { queue with phase := .outside items }
  | some item =>
      if item.waiting then { queue with phase := .outside items }
      else if !item.fired then
        match item.type with
        | .command =>
            { queue.modify item.id fun x =>
                { x with client := if x.client = none then found else x.client } with
              phase := .firing items item.id item.client }
        | .callback => { queue with phase := .firing items item.id item.client }
      else cmdqRemove queue item

/-- The command or callback has returned. A command that failed may still insert its hooks. -/
def cmdqReturn (queue : CmdqList) (items : UInt32) (id : Nat) (saved : Option Client)
    (retval : CmdRetval) : CmdqList :=
  { queue.modify id fun x => { x with client := saved } with
    phase := .returned items id retval }

/-- The group of a command that failed is removed. -/
def CmdqList.afterError (queue : CmdqList) (item : CmdqItem) (retval : CmdRetval) : CmdqList :=
  if item.type = .command ∧ retval = .error then cmdqRemoveGroup queue item else queue

/-- The rest of the iteration. -/
def cmdqFinish (queue : CmdqList) (items : UInt32) (item : CmdqItem) (retval : CmdRetval) :
    CmdqList :=
  let queue := (queue.afterError item retval).modify item.id fun x => { x with fired := true }
  if retval = .wait then
    { queue.modify item.id fun x => { x with waiting := true } with phase := .outside items }
  else { cmdqRemove queue item with phase := .looping (items + 1) }

/-- Whether other code runs: outside the loop, or in it when an item is running. -/
def Phase.Open : Phase → Prop
  | .looping _ => False
  | _ => True

end Ztmux.Cmdq
