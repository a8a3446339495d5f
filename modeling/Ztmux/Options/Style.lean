import Ztmux.Machine

/-!
Styles of options.

The style that an option stands for is kept with its value. Sets of options inherit from others, so
an option is asked for by way of many sets, and its style may be kept from any of them. What a text
is parsed to may depend on the hyperlinks that are known, and they come and go.
-/

namespace Ztmux.Options

/-! ### Model -/

inductive OptionsTableType
  | string
  | number
  | key
  | colour
  | flag
  | choice
  | command
  deriving DecidableEq

structure OptionsTableEntry where
  name : String
  type_ : OptionsTableType
  isColour : Bool
  separator : Option String
  defaultStr : String
  defaultNum : Int
  deriving DecidableEq

inductive OptionsValue
  | string (s : String)
  | number (n : Int)
  | cmdlist
  deriving DecidableEq

def optionsIsString : Option OptionsTableEntry → Bool
  | none => true
  | some oe => oe.type_ = .string

/-- An option. The value of a string option is a string. -/
structure OptionsEntry (Style : Type) where
  tableentry : Option OptionsTableEntry
  value : OptionsValue
  cached : Bool
  style : Style
  typed : optionsIsString tableentry = true → ∃ s, value = .string s

/-- What an option has to do with styles and formats: a new style, the default one, and the parsers.
They see the style that they change and what the rest of the program has, and return 0 unless they
fail. -/
structure Parsers (World FormatTree Style : Type) where
  zeroed : Style
  styleSet : Style
  styleParse : World → Style → String → Int × Style × World
  styleParseColour : World → Style → String → Int × Style × World
  formatExpand : World → FormatTree → String → String × World

/-- The sets that inherit from others, which end in one that does not. -/
structure Chains where
  parent : Nat → Option Nat
  depth : Nat → Nat
  parent_lt : ∀ oo p : Nat, parent oo = some p → depth p < depth oo
  isGlobal : Nat → Bool

abbrev Tree (Style : Type) := String → Option (OptionsEntry Style)

structure State (World Style : Type) where
  tree : Nat → Tree Style
  world : World

def State.setTree {World Style : Type} (s : State World Style) (oo : Nat) (tree : Tree Style) :
    State World Style := { s with tree := Function.update s.tree oo tree }

def optionsMapName (name : String) : String :=
  if name = "display-panes-color" then "display-panes-colour"
  else if name = "display-panes-active-color" then "display-panes-active-colour"
  else if name = "clock-mode-color" then "clock-mode-colour"
  else if name = "cursor-color" then "cursor-colour"
  else if name = "pane-colors" then "pane-colours"
  else name

section

variable {World FormatTree Style : Type}

/-- The name that an option is found by in a set, and the option. -/
def optionsGetOnly (tree : Tree Style) (name : String) : Option (String × OptionsEntry Style) :=
  match tree name with
  | some o => some (name, o)
  | none => (tree (optionsMapName name)).map fun o => (optionsMapName name, o)

/-- The set that an option is found in, its name there and the option. -/
def optionsGet (c : Chains) (tree : Nat → Tree Style) (oo : Nat) (name : String) :
    Option (Nat × String × OptionsEntry Style) :=
  match optionsGetOnly (tree oo) name with
  | some found => some (oo, found)
  | none =>
      match _hparent : c.parent oo with
      | none => none
      | some p => optionsGet c tree p name
termination_by c.depth oo
decreasing_by exact c.parent_lt oo p (by assumption)

def optionsParentTableEntry (c : Chains) (tree : Nat → Tree Style) (oo : Nat) (name : String) :
    Exec (Option OptionsTableEntry) :=
  match c.parent oo with
  | none => .error .fatal
  | some p =>
      match optionsGet c tree p name with
      | none => .error .fatal
      | some found => .ok found.2.2.tableentry

def optionsRemove (tree : Tree Style) (name : String) : Tree Style := Function.update tree name none

/-- Add an option to a set. One that is found by its name is removed. -/
def optionsAdd (tree : Tree Style) (name : String) (o : OptionsEntry Style) : Tree Style :=
  let tree := match optionsGetOnly tree name with
    | none => tree
    | some found => optionsRemove tree found.1
  Function.update tree name (some o)

def defaultValue (oe : OptionsTableEntry) : OptionsValue :=
  match oe.type_ with
  | .string => .string oe.defaultStr
  | .command => .cmdlist
  | _ => .number oe.defaultNum

/-- An option with the value of its table. -/
def optionsDefault (zeroed : Style) (oe : OptionsTableEntry) : OptionsEntry Style where
  tableentry := some oe
  value := defaultValue oe
  cached := false
  style := zeroed
  typed h := ⟨oe.defaultStr, by rw [defaultValue, of_decide_eq_true h]⟩

def OptionsEntry.setString (o : OptionsEntry Style) (value : String) : OptionsEntry Style where
  tableentry := o.tableentry
  value := .string value
  cached := false
  style := o.style
  typed _ := ⟨value, rfl⟩

def isUser (name : String) : Bool := name.toList.head? = some '@'

/-- The old value, the separator of the table and the new one. -/
def appended (name : String) (o : OptionsEntry Style) (value : String) : Exec String :=
  match o.value with
  | .string old =>
      if isUser name then .ok (old ++ value)
      else match o.tableentry with
        | none => .error .nullPointer
        | some oe => .ok (old ++ oe.separator.getD "" ++ value)
  | _ => .error .outOfBounds

def newValue (name : String) (o : OptionsEntry Style) (append : Bool) (value : String) :
    Exec String :=
  if append && optionsIsString o.tableentry then appended name o value else .ok value

def optionsSetString (P : Parsers World FormatTree Style) (c : Chains) (s : State World Style)
    (oo : Nat)
    (name : String) (append : Bool) (value : String) : Exec (State World Style) :=
  match optionsGetOnly (s.tree oo) name with
  | some (key, o) => do
      let value ← newValue name o append value
      if !optionsIsString o.tableentry then .error .fatal
      else pure (s.setTree oo (Function.update (s.tree oo) key (o.setString value)))
  | none =>
      if isUser name then
        pure (s.setTree oo
          (optionsAdd (s.tree oo) name ⟨none, .string value, false, P.zeroed,
            fun _ => ⟨value, rfl⟩⟩))
      else do
        match ← optionsParentTableEntry c s.tree oo name with
        | none => .error .nullPointer
        | some oe =>
            if !optionsIsString (some oe) then .error .fatal
            else pure (s.setTree oo
              (optionsAdd (s.tree oo) oe.name ((optionsDefault P.zeroed oe).setString value)))

def optionsRemoveOrDefault (P : Parsers World FormatTree Style) (c : Chains) (s : State World Style)
    (oo : Nat)
    (name : String) : State World Style :=
  match optionsGetOnly (s.tree oo) name with
  | none => s
  | some (key, o) =>
      match o.tableentry with
      | none => s.setTree oo (optionsRemove (s.tree oo) key)
      | some oe =>
          if c.isGlobal oo then
            s.setTree oo (optionsAdd (s.tree oo) oe.name (optionsDefault P.zeroed oe))
          else s.setTree oo (optionsRemove (s.tree oo) key)

/-- There is a format in the text. -/
def hasFormat (s : String) : Bool := decide ("#\x7b".toList <:+: s.toList)

/-- A colour or a style, by the table. -/
def Parsers.parse (P : Parsers World FormatTree Style) (oe : Option OptionsTableEntry) :
    World → Style → String → Int × Style × World :=
  if oe.any OptionsTableEntry.isColour then P.styleParseColour else P.styleParse

/-- What is parsed: the text, expanded if there is a format in it and a tree to expand it with. -/
def Parsers.expanded (P : Parsers World FormatTree Style) (w : World) (ft : Option FormatTree)
    (s : String) :
    String × World :=
  match ft with
  | none => (s, w)
  | some ft => if hasFormat s then P.formatExpand w ft s else (s, w)

def OptionsEntry.withStyle (o : OptionsEntry Style) (cached : Bool) (style : Style) :
    OptionsEntry Style :=
  { o with cached := cached, style := style }

/-- The style of an option, or nothing. -/
def optionsStringToStyle (P : Parsers World FormatTree Style) (c : Chains) (s : State World Style)
    (oo : Nat)
    (name : String) (ft : Option FormatTree) : Exec (State World Style × Option Style) :=
  match optionsGet c s.tree oo name with
  | none => .ok (s, none)
  | some (owner, key, o) =>
      if !optionsIsString o.tableentry then .ok (s, none)
      else if o.cached then .ok (s, some o.style)
      else match o.value with
        | .string value =>
            let text := P.expanded s.world ft value
            let r := P.parse o.tableentry text.2 P.styleSet text.1
            -- The flag is set whether the text can be parsed or not.
            let o := o.withStyle (!hasFormat value) r.2.1
            let s :=
              { s.setTree owner (Function.update (s.tree owner) key (some o)) with world := r.2.2 }
            .ok (s, if r.1 ≠ 0 then none else some r.2.1)
        | _ => .error .outOfBounds

/-- What happens to the options. The rest of the program may change the hyperlinks in between. -/
inductive Op (World FormatTree : Type)
  | setString (oo : Nat) (name : String) (append : Bool) (value : String)
  | removeOrDefault (oo : Nat) (name : String)
  | toStyle (oo : Nat) (name : String) (ft : Option FormatTree)
  | elsewhere (w : World)

/-- One change or question, and the answer of a question. -/
def step (P : Parsers World FormatTree Style) (c : Chains) (s : State World Style) :
    Op World FormatTree → Exec (State World Style × Option (Option Style))
  | .setString oo name append value => do pure (← optionsSetString P c s oo name append value, none)
  | .removeOrDefault oo name => pure (optionsRemoveOrDefault P c s oo name, none)
  | .toStyle oo name ft => do
      let r ← optionsStringToStyle P c s oo name ft
      pure (r.1, some r.2)
  | .elsewhere w => pure ({ s with world := w }, none)

end

end Ztmux.Options
