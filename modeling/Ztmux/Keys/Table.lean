import Ztmux.Machine

/-!
Key tables, and the clients that use them.

A table counts its references, one from the tree of all tables while it is in it and one from
each client whose key table it is. Nothing keeps a table in the tree because a client uses it.
-/

namespace Ztmux.Keys

def KEYC_MASK_FLAGS : UInt64 := 0xff000000000000

def KEY_BINDING_REPEAT : UInt32 := 1

/-- `key_binding`; the key is that of the map it is in. -/
structure KeyBinding (L : Type) where
  cmdlist : L
  note : Option String
  flags : UInt32

abbrev Bindings (L : Type) := Finmap fun _ : UInt64 => KeyBinding L

structure KeyTable (L : Type) where
  name : String
  keyBindings : Bindings L
  defaultKeyBindings : Bindings L
  references : Nat

/-- A client: its table, and the option `key-table` of its session if it has one. -/
structure Client where
  keytable : Nat
  keyTableOption : Option String

structure State (L : Type) where
  tables : Nat → Option (KeyTable L)
  nextTable : Nat
  keyTables : List Nat
  client : Nat → Client
  clients : List Nat
  nextClient : Nat

variable {L : Type}

def State.empty : State L := ⟨fun _ => none, 0, [], fun _ => ⟨0, none⟩, [], 0⟩

def State.deref (s : State L) (table : Nat) : Exec (KeyTable L) :=
  match s.tables table with
  | none => .error .useAfterFree
  | some t => .ok t

def State.write (s : State L) (table : Nat) (t : KeyTable L) : State L :=
  { s with tables := Function.update s.tables table (some t) }

/-! ### Tables -/

/-- `rb_find_by` in `KEY_TABLES` -/
def findTable (s : State L) (name : String) : List Nat → Exec (Option Nat)
  | [] => pure none
  | table :: rest => do
      if (← s.deref table).name = name then pure (some table) else findTable s name rest

/-- A new table, with the one reference that `KEY_TABLES` has. -/
def State.newTable (s : State L) (name : String) : State L :=
  { s.write s.nextTable ⟨name, ∅, ∅, 1⟩ with
    nextTable := s.nextTable + 1, keyTables := s.keyTables ++ [s.nextTable] }

def keyBindingsGetTable (s : State L) (name : String) (create : Bool) :
    Exec (State L × Option Nat) := do
  let table ← findTable s name s.keyTables
  if table ≠ none ∨ create = false then pure (s, table)
  else pure (s.newTable name, some s.nextTable)

def notNull : Option Nat → Exec Nat
  | none => .error .nullPointer
  | some table => .ok table

def keyBindingsRefTable (s : State L) (table : Nat) : Exec (State L) := do
  let t ← s.deref table
  pure (s.write table { t with references := t.references + 1 })

def keyBindingsUnrefTable (s : State L) (table : Nat) : Exec (State L) := do
  let t ← s.deref table
  if t.references - 1 ≠ 0 then pure (s.write table { t with references := t.references - 1 })
  else pure { s with tables := Function.update s.tables table none }

def keyBindingsGet (t : KeyTable L) (key : UInt64) : Option (KeyBinding L) :=
  t.keyBindings.lookup key

def keyBindingsGetDefault (t : KeyTable L) (key : UInt64) : Option (KeyBinding L) :=
  t.defaultKeyBindings.lookup key

def rbEmpty (bindings : Bindings L) : Bool := decide (bindings.keys = ∅)

/-! ### Clients -/

def serverClientGetKeyTable (s : State L) (c : Nat) : String :=
  match (s.client c).keyTableOption with
  | none => "root"
  | some name => if name = "" then "root" else name

/-- A client gets a table that is in the tree, and a reference to it. -/
def takeTable (s : State L) (c : Nat) (name : String) : Exec (State L) := do
  let r ← keyBindingsGetTable s name true
  let table ← notNull r.2
  keyBindingsRefTable
    { r.1 with client := Function.update r.1.client c { r.1.client c with keytable := table } }
      table

def serverClientSetKeyTable (s : State L) (c : Nat) (name : Option String) : Exec (State L) := do
  let name := name.getD (serverClientGetKeyTable s c)
  takeTable (← keyBindingsUnrefTable s (s.client c).keytable) c name

def serverClientCreate (s : State L) : Exec (State L) := do
  let c := s.nextClient
  let s ← takeTable { s with client := Function.update s.client c ⟨0, none⟩ } c "root"
  pure { s with clients := s.clients ++ [c], nextClient := c + 1 }

def serverClientLost (s : State L) (c : Nat) : Exec (State L) :=
  keyBindingsUnrefTable { s with clients := s.clients.erase c } (s.client c).keytable

/-! ### Bindings -/

/-- What `key_bindings_add` does in its table. -/
def KeyTable.add (t : KeyTable L) (key : UInt64) (note : Option String) (repeats : Bool)
    (cmdlist : Option L) : KeyTable L :=
  match cmdlist, keyBindingsGet t key with
  | none, none => t
  | none, some bd =>
      { t with
        keyBindings := t.keyBindings.insert key
          { bd with
            note := note.or bd.note
            flags := if repeats then bd.flags ||| KEY_BINDING_REPEAT else bd.flags } }
  | some cmdlist, _ =>
      { t with
        keyBindings := (t.keyBindings.erase key).insert key
          ⟨cmdlist, note, if repeats then 0 ||| KEY_BINDING_REPEAT else 0⟩ }

def keyBindingsAdd (s : State L) (name : String) (key : UInt64) (note : Option String)
    (repeats : Bool)
    (cmdlist : Option L) : Exec (State L) := do
  let r ← keyBindingsGetTable s name true
  let table ← notNull r.2
  pure (r.1.write table ((← r.1.deref table).add (key &&& ~~~KEYC_MASK_FLAGS) note repeats cmdlist))

/-- Take a table that has become empty out of the tree. -/
def dropEmpty (s : State L) (table : Nat) (t : KeyTable L) : Exec (State L) :=
  if rbEmpty t.keyBindings && rbEmpty t.defaultKeyBindings then
    keyBindingsUnrefTable { s with keyTables := s.keyTables.erase table } table
  else pure s

def removeFrom (s : State L) (key : UInt64) : Option Nat → Exec (State L)
  | none => pure s
  | some table => do
      let t ← s.deref table
      let key := key &&& ~~~KEYC_MASK_FLAGS
      if keyBindingsGet t key = none then pure s
      else
        let t := { t with keyBindings := t.keyBindings.erase key }
        dropEmpty (s.write table t) table t

def keyBindingsRemove (s : State L) (name : String) (key : UInt64) : Exec (State L) := do
  let r ← keyBindingsGetTable s name false
  removeFrom s key r.2

/-- A binding takes what the default one has. -/
def resetBinding (s : State L) (name : String) (table : Nat) (t : KeyTable L) (key : UInt64) :
    Exec (State L) :=
  match keyBindingsGet t key, keyBindingsGetDefault t key with
  | none, _ => pure s
  | some _, none => keyBindingsRemove s name key
  | some bd, some dd =>
      pure (s.write table
        { t with
          keyBindings := t.keyBindings.insert key
            { bd with cmdlist := dd.cmdlist, note := dd.note, flags := dd.flags } })

def resetIn (s : State L) (name : String) (key : UInt64) : Option Nat → Exec (State L)
  | none => pure s
  | some table => do
      resetBinding s name table (← s.deref table) (key &&& ~~~KEYC_MASK_FLAGS)

def keyBindingsReset (s : State L) (name : String) (key : UInt64) : Exec (State L) := do
  let r ← keyBindingsGetTable s name false
  resetIn s name key r.2

/-- Take a table out of the tree. -/
def dropTable (s : State L) : Option Nat → Exec (State L)
  | none => pure s
  | some table => keyBindingsUnrefTable { s with keyTables := s.keyTables.erase table } table

def moveClient (s : State L) (table : Option Nat) (c : Nat) : Exec (State L) :=
  if some (s.client c).keytable = table then serverClientSetKeyTable s c none else pure s

/-- The clients that used the table go back to the one of their session. -/
def moveClients (table : Option Nat) : State L → List Nat → Exec (State L)
  | s, [] => pure s
  | s, c :: clients => do moveClients table (← moveClient s table c) clients

def keyBindingsRemoveTable (s : State L) (name : String) : Exec (State L) := do
  let r ← keyBindingsGetTable s name false
  let s ← dropTable s r.2
  moveClients r.2 s s.clients

/-- `key_bindings_init_done`: the bindings become the default ones as well. -/
def keyBindingsInitDone : State L → List Nat → Exec (State L)
  | s, [] => pure s
  | s, table :: tables => do
      let t ← s.deref table
      keyBindingsInitDone
        (s.write table { t with defaultKeyBindings := t.defaultKeyBindings ∪ t.keyBindings }) tables

end Ztmux.Keys
