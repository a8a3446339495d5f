import Ztmux.Layout.Edit

/-!
Layouts as text.

A layout is written as a checksum, a comma and a body; `layout_parse` reads it, drops the cells
there are no panes for and checks the sizes. A text is a list of
characters, one for each byte, without the terminating NUL: reading the NUL is reading past
the end of the list. A read past the NUL is a fault.

What `sscanf` does with the two conversions that are used is taken from C.
-/

namespace Ztmux.Layout

open LayoutCell

abbrev Text := List Char

/-! ### Printing -/

/-- The brackets around the children of a node. -/
def openBracket : LayoutType → Char
  | .leftright => '\x7b'
  | .topbottom => '['

def closeBracket : LayoutType → Char
  | .leftright => '\x7d'
  | .topbottom => ']'

/-- An unsigned number in decimal. -/
def decimal (n : UInt32) : Text := Nat.toDigits 10 n.toNat

theorem decimal_ne_nil (n : UInt32) : decimal n ≠ [] := Nat.toDigits_ne_nil

/-- An unsigned short as `:04x`. -/
def hex4 (n : UInt16) : Text := (Nat.toDigits 16 n.toNat).leftpad 4 '0'

def layoutChecksum (layout : Text) : UInt16 :=
  layout.foldl (fun csum b => (csum >>> 1) + ((csum &&& 1) <<< 15) + b.toNat.toUInt16) 0

/-! ### Checking -/

mutual

def layoutCheck : LayoutCell → Bool
  | .windowpane _ _ _ => true
  | .node t g cells => checkCells t g 0 cells

/-- Check the children that are left, `n` being what the others take up with a border
after each. -/
def checkCells (t : LayoutType) (g : Geometry) (n : UInt32) : List LayoutCell → Bool
  | [] => n - 1 == g.size t
  | c :: cs =>
      c.size t.across == g.size t.across && layoutCheck c && checkCells t g (n + (c.size t + 1)) cs

end

/-! ### Parsing -/

/-- The white space `sscanf` skips before a number. -/
def isSpace (c : Char) : Bool := c == ' ' || (9 ≤ c.toNat && c.toNat ≤ 13)

/-- The two conversions of `sscanf` that a layout is read with. -/
structure Sscanf where
  /-- `%hx`. -/
  hx : Text → Option UInt16
  /-- `%u`: the number and what is left of the text. -/
  u : Text → Option (UInt32 × Text)
  hx_hex4 : ∀ n rest, hx (hex4 n ++ ',' :: rest) = some n
  u_digits : ∀ ds rest, ds ≠ [] → (∀ c ∈ ds, c.isDigit) → (∀ c ∈ rest.head?, !c.isDigit) →
    Nat.ofDigitChars 10 ds 0 < 2 ^ 32 →
    u (ds ++ rest) = some (UInt32.ofNat (Nat.ofDigitChars 10 ds 0), rest)
  /-- A conversion fails where no number starts. -/
  u_other : ∀ c rest, !c.isDigit → !isSpace c → c ≠ '+' → c ≠ '-' → u (c :: rest) = none

variable (scan : Sscanf)

/-- One byte of the format or of the text that has to be there. -/
def literal (b : Char) : Text → Option Text
  | [] => none
  | c :: s => if c = b then some s else none

/-- `%u` and the byte after it. -/
def scanItem (b : Char) (s : Text) : Option (UInt32 × Text) := do
  let (n, s) ← scan.u s
  let s ← literal b s
  some (n, s)

/-- `sscanf` with `%ux%u,%u,%u`, when all four numbers are read. -/
def scanGeometry (s : Text) : Option Geometry := do
  let (sx, s) ← scanItem scan 'x' s
  let (sy, s) ← scanItem scan ',' s
  let (xoff, s) ← scanItem scan ',' s
  let (yoff, _) ← scan.u s
  some ⟨sx, sy, xoff.toInt32, yoff.toInt32⟩

def skipDigits (s : Text) : Text := s.dropWhile Char.isDigit

/-- Step over the numbers that have been read. -/
def skipGeometry (s : Text) : Option Text := do
  let s ← literal 'x' (skipDigits s)
  let s ← literal ',' (skipDigits s)
  let s ← literal ',' (skipDigits s)
  some (skipDigits s)

/-- Step over a pane id. A number that an `x` follows is the width of the next cell. -/
def skipPaneId : Text → Text
  | ',' :: s => if (skipDigits s).head? = some 'x' then ',' :: s else skipDigits s
  | s => s

/-- The bytes a leaf ends at, the NUL among them. -/
def endsCell : Text → Bool
  | [] => true
  | c :: _ => c == ',' || c == closeBracket .leftright || c == closeBracket .topbottom

/-- The type of node a bracket opens. -/
def opened : Text → Option (LayoutType × Text)
  | [] => none
  | c :: s =>
      if c = openBracket .leftright then some (.leftright, s)
      else if c = openBracket .topbottom then some (.topbottom, s)
      else none

mutual

/-- Construct a cell from all or part of a layout tree: the cell and what is left of the
text. -/
def layoutConstruct : Nat → Text → Exec (Option (LayoutCell × Text))
  | 0, _ => throw .outOfFuel
  | fuel + 1, s =>
      if s.head?.all fun c => !c.isDigit then pure none
      else
        match scanGeometry scan s, skipGeometry s with
        | some g, some s =>
            let s := skipPaneId s
            if endsCell s then pure (some (.windowpane false none g, s))
            else
              match opened s with
              | none => pure none
              | some (t, s) => do
                  match ← constructCells fuel s with
                  | none => pure none
                  | some (cells, s) =>
                      pure ((literal (closeBracket t) s).map fun s => (.node t g cells, s))
        | _, _ => pure none

/-- The children of a node, from the byte after the bracket or a comma. -/
def constructCells : Nat → Text → Exec (Option (List LayoutCell × Text))
  | 0, _ => throw .outOfFuel
  | fuel + 1, s => do
      match ← layoutConstruct fuel s with
      | none => pure none
      | some (c, s) =>
          match literal ',' s with
          | none => pure (some ([c], s))
          | some s => do
              let r ← constructCells fuel s
              pure (r.map fun p => (c :: p.1, p.2))

end

/-- Why a text is not accepted. -/
inductive ParseError
  | invalidLayout
  | needPanes (npanes ncells : Nat)
  | sizeMismatch
  deriving DecidableEq, Repr

/-- The `cause` that is reported. -/
def ParseError.cause : ParseError → String
  | .invalidLayout => "invalid layout"
  | .needPanes npanes ncells =>
      "have " ++ toString npanes ++ " panes but need " ++ toString ncells
  | .sizeMismatch => "size mismatch after applying layout"

mutual

/-- The path to the bottom right leaf. There is none when the way ends at a node without
children. -/
def layoutFindBottomright : LayoutCell → Option (List Nat)
  | .windowpane _ _ _ => some []
  | .node _ _ cells => bottomrightOf 0 cells

def bottomrightOf (i : Nat) : List LayoutCell → Option (List Nat)
  | [] => none
  | c :: cs => if cs = [] then (layoutFindBottomright c).map (i :: ·) else bottomrightOf (i + 1) cs

end

/-- Close the bottom right cell until there are `npanes` cells. -/
def closeBottomright (w : WindowOptions) (fuel npanes : Nat) :
    Nat → LayoutCell → Exec (Except ParseError LayoutCell)
  | 0, _ => throw .outOfFuel
  | rounds + 1, root =>
      let ncells := layoutCountCells root
      if ncells < npanes then pure (.error (.needPanes npanes ncells))
      else if npanes = ncells then pure (.ok root)
      else
        match layoutFindBottomright root with
        | none => throw .nullPointer
        | some path => do
            match ← layoutDestroyCell w fuel root path with
            | none => throw .nullPointer
            | some root => closeBottomright w fuel npanes rounds root

/-- The sizes that older versions are supposed to have got wrong: a top cell is given the
size of its children. -/
def fixTopSize : LayoutCell → LayoutCell
  | .windowpane floating wp g => .windowpane floating wp g
  | .node t g cells =>
      let along := (cells.map fun c => c.size t + 1).sum
      let across := (cells.getLast?.map fun c => c.size t.across + 1).getD 0
      let sx := match t with
        | .leftright => along
        | .topbottom => across
      let sy := match t with
        | .leftright => across
        | .topbottom => along
      if g.sx ≠ sx ∨ g.sy ≠ sy then .node t { g with sx := sx - 1, sy := sy - 1 } cells
      else .node t g cells

mutual

/-- Assign panes into cells; what is left of the panes is returned. -/
def layoutAssign : List Nat → LayoutCell → Exec (LayoutCell × List Nat)
  | wp :: panes, .windowpane floating _ g => pure (.windowpane floating (some wp) g, panes)
  | [], .windowpane _ _ _ => throw .nullPointer
  | panes, .node t g cells => do
      let (cells, panes) ← assignCells panes cells
      pure (.node t g cells, panes)

def assignCells : List Nat → List LayoutCell → Exec (List LayoutCell × List Nat)
  | panes, [] => pure ([], panes)
  | panes, c :: cs => do
      let (c, panes) ← layoutAssign panes c
      let (cs, panes) ← assignCells panes cs
      pure (c :: cs, panes)

end

/-- Read a layout for a window with these panes. The answer is the tree as it is installed
and its offsets are fixed. -/
def layoutParse (w : WindowOptions) (fuel : Nat) (panes : List Nat) (layout : Text) :
    Exec (Except ParseError LayoutCell) :=
  match scan.hx layout with
  | none => pure (.error .invalidLayout)
  | some csum =>
      if layout.length < 5 then throw .outOfBounds
      else if csum ≠ layoutChecksum (layout.drop 5) then pure (.error .invalidLayout)
      else do
        match ← layoutConstruct scan fuel (layout.drop 5) with
        | none => pure (.error .invalidLayout)
        | some (root, rest) =>
            if rest ≠ [] then pure (.error .invalidLayout)
            else do
              match ← closeBottomright w fuel panes.length fuel root with
              | .error cause => pure (.error cause)
              | .ok root =>
                  let root := fixTopSize root
                  if !layoutCheck root then pure (.error .sizeMismatch)
                  else do
                    let (root, _) ← layoutAssign panes root
                    pure (.ok (layoutFixOffsets root))

end Ztmux.Layout
