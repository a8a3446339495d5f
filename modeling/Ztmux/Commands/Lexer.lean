import Ztmux.Machine

/-!
The lexer of commands.

Characters come from a file or from a buffer, and `none` is `EOF`. A backslash before the end of a
line joins it to the next, so backslashes are counted until the character behind them is known, and
are returned one at a time after that.
-/

namespace Ztmux.Commands

abbrev Ch := Option UInt8

/-! ### Characters -/

inductive Source
  | file (rest : List UInt8) (ungetBuf : Option Ch)
  | buffer (buf : List UInt8) (off : Nat)
  deriving DecidableEq, Repr

structure ParseState where
  source : Source
  file : Option String
  line : Nat
  condition : Bool
  eol : Bool
  eof : Bool
  escapes : Nat
  error : Option String
  deriving DecidableEq, Repr

/-- The first message is kept. -/
def yyerror (ps : ParseState) (error : String) : ParseState :=
  if ps.error.isSome then ps
  else { ps with error := some (match ps.file with
    | none => error
    | some file => file ++ ":" ++ toString ps.line ++ ": " ++ error) }

def bytes (chars : List Char) : List UInt8 := chars.map Char.toUInt8

/-- What `strchr` finds in a set: also the end of the set, and for `EOF` the byte 0xff. -/
def strchr (set : List UInt8) (ch : Ch) : Bool := set.contains (ch.getD 0xff) || ch == some 0

def yylexGetc1 (ps : ParseState) : Ch × ParseState :=
  match ps.source with
  | .file rest (some c) => (c, { ps with source := .file rest none })
  | .file [] none => (none, ps)
  | .file (c :: rest) none => (some c, { ps with source := .file rest none })
  | .buffer buf off =>
      match buf[off]? with
      | none => (none, ps)
      | some c => (some c, { ps with source := .buffer buf (off + 1) })

def yylexUngetc (ps : ParseState) (ch : Ch) : ParseState :=
  match ps.source with
  | .file rest _ => { ps with source := .file rest (some ch) }
  | .buffer buf off =>
      if 0 < off ∧ ch ≠ none then { ps with source := .buffer buf (off - 1) } else ps

/-- The characters that the source still has. -/
def Source.rest : Source → List UInt8
  | .file rest (some (some c)) => c :: rest
  | .file rest _ => rest
  | .buffer buf off => buf.drop off

/-- The loop of `yylex_getc`. Each turn but the last takes a backslash or the end of a line, so
there are no more turns than characters. -/
def getcLoop : Nat → ParseState → Ch × ParseState
  | 0, ps => (none, ps)
  | turns + 1, ps =>
      let r := yylexGetc1 ps
      let ps := r.2
      if r.1 = some '\\'.toUInt8 then getcLoop turns { ps with escapes := ps.escapes + 1 }
      else if r.1 = some '\n'.toUInt8 ∧ ps.escapes % 2 = 1 then
        getcLoop turns { ps with line := ps.line + 1, escapes := ps.escapes - 1 }
      else if ps.escapes ≠ 0 then
        let ps := yylexUngetc ps r.1
        (some '\\'.toUInt8, { ps with escapes := ps.escapes - 1 })
      else (r.1, ps)

def yylexGetc (ps : ParseState) : Ch × ParseState :=
  if ps.escapes ≠ 0 then (some '\\'.toUInt8, { ps with escapes := ps.escapes - 1 })
  else getcLoop (ps.source.rest.length + 1) ps

/-! ### What the lexer is given -/

/-- The environment, the users, and the multibyte encoding of the locale. -/
structure World where
  environ : List UInt8 → Option (List UInt8)
  ownHome : Option (List UInt8)
  homeOf : List UInt8 → Option (List UInt8)
  wctomb : UInt32 → Option (List UInt8)
  sizeofM : Nat

def isAlpha (ch : UInt8) : Bool :=
  (65 ≤ ch && ch ≤ 90) || (97 ≤ ch && ch ≤ 122)

def isDigit (ch : UInt8) : Bool := 48 ≤ ch && ch ≤ 57

def isHexdigit (ch : UInt8) : Bool :=
  isDigit ch || (65 ≤ ch && ch ≤ 70) || (97 ≤ ch && ch ≤ 102)

def yylexIsVar (ch : UInt8) (first : Bool) : Bool :=
  if ch = '='.toUInt8 ∨ (first ∧ isDigit ch) then false
  else isAlpha ch || isDigit ch || ch = '_'.toUInt8

/-- The text of a terminated string. -/
def cString (buf : List UInt8) : List UInt8 := buf.takeWhile fun c => c ≠ 0

def SIZEOF_NAME : Nat := 1024

/-! ### Parts of a token -/

/-- Collect the name of a variable; nothing when the name is wrong. -/
def variableName (brackets : Bool) : Nat → ParseState → List UInt8 →
    Exec (ParseState × Option (List UInt8))
  | 0, _, _ => .error .outOfFuel
  | fuel + 1, ps, name =>
      let r := yylexGetc ps
      let ps := r.2
      if brackets ∧ r.1 = some '}'.toUInt8 then pure (ps, some name)
      else match r.1 with
        | none =>
            if brackets then pure (yyerror ps "invalid environment variable", none)
            else pure (yylexUngetc ps none, some name)
        | some c =>
            if yylexIsVar c false then
              if name.length = SIZEOF_NAME - 2 then
                pure (yyerror ps "environment variable is too long", none)
              else variableName brackets fuel ps (name ++ [c])
            else if brackets then pure (yyerror ps "invalid environment variable", none)
            else pure (yylexUngetc ps (some c), some name)

/-- What a part of a token adds to it, or nothing on an error. -/
abbrev Part := ParseState × Option (List UInt8)

def yylexTokenVariable (w : World) (fuel : Nat) (ps : ParseState) : Exec Part :=
  let r := yylexGetc ps
  let ps := r.2
  match r.1 with
  | none => pure (ps, none)
  | some c =>
      let brackets := c = '{'.toUInt8
      if ¬ brackets ∧ ¬ yylexIsVar c true then pure (yylexUngetc ps (some c), some ['$'.toUInt8])
      else do
        let r ← variableName brackets fuel ps (if brackets then [] else [c])
        match r.2 with
        | none => pure (r.1, none)
        | some name => pure (r.1, some ((w.environ (cString name)).getD []))

def userName : Nat → ParseState → List UInt8 → Exec (ParseState × Option (List UInt8))
  | 0, _, _ => .error .outOfFuel
  | fuel + 1, ps, name =>
      let r := yylexGetc ps
      let ps := r.2
      match r.1 with
      | none => pure (yylexUngetc ps none, some name)
      | some c =>
          if strchr (bytes ['/', ' ', '\t', '\n', '"', '\'']) (some c) then
            pure (yylexUngetc ps (some c), some name)
          else if name.length = SIZEOF_NAME - 2 then pure (yyerror ps "user name is too long", none)
          else userName fuel ps (name ++ [c])

/-- The home directory: that of a user, or `HOME` when it is set and not empty, or one's own. -/
def homeDirectory (w : World) (name : List UInt8) : Option (List UInt8) :=
  if name = [] then
    match w.environ (bytes ['H', 'O', 'M', 'E']) with
    | some (c :: home) => some (c :: home)
    | _ => w.ownHome
  else w.homeOf name

def yylexTokenTilde (w : World) (fuel : Nat) (ps : ParseState) : Exec Part := do
  let r ← userName fuel ps []
  match r.2 with
  | none => pure (r.1, none)
  | some name => pure (r.1, homeDirectory w (cString name))

/-- The digits that `sscanf` takes from a string, at most `size` of them. -/
def hexDigits (size : Nat) (s : List UInt8) : List UInt8 := (s.takeWhile isHexdigit).take size

def hexDigit (ch : UInt8) : UInt32 :=
  (if isDigit ch then ch - 48 else if ch ≤ 70 then ch - 55 else ch - 87).toUInt32

def hexValue (digits : List UInt8) : UInt32 :=
  digits.foldl (fun value ch => value * 16 + hexDigit ch) 0

/-- `%4x` or `%8x` for a string that begins with a digit. -/
def sscanfHex (size : Nat) (s : List UInt8) : Option UInt32 :=
  if hexDigits size s = [] then none else some (hexValue (hexDigits size s))

/-- The loop of a `\u` or `\U` escape: the characters go into the places from `i` on. -/
def escapeDigits (type : String) : Nat → Nat → ParseState → List UInt8 →
    ParseState × Option (List UInt8)
  | 0, _, ps, s => (ps, some s)
  | n + 1, i, ps, s =>
      let r := yylexGetc ps
      let ps := r.2
      match r.1 with
      | none => (ps, none)
      | some c =>
          if c = '\n'.toUInt8 then (ps, none)
          else if ¬ isHexdigit c then (yyerror ps ("invalid \\" ++ type ++ " argument"), none)
          else escapeDigits type n (i + 1) ps (s.set i c)

/-- Add the character with a number. -/
def appendChar (w : World) (type : String) (ps : ParseState) (tmp : UInt32) : Part :=
  let invalid := (yyerror ps ("invalid \\" ++ type ++ " argument"), none)
  match w.wctomb tmp with
  | none => invalid
  | some m => if m.length = 0 ∨ w.sizeofM < m.length then invalid else (ps, some m)

/-- A `\u` or `\U` escape: the end of the string is put at the place of the last digit. -/
def yylexTokenUnicode (w : World) (type : String) (size : Nat) (ps : ParseState) : Part :=
  let r := escapeDigits type size 0 ps (List.replicate 9 0)
  match r.2 with
  | none => (r.1, none)
  | some s =>
      match sscanfHex size (cString (s.set (size - 1) 0)) with
      | none => (yyerror r.1 ("invalid \\" ++ type ++ " argument"), none)
      | some tmp => appendChar w type r.1 tmp

def isOctal (ch : UInt8) : Bool := 48 ≤ ch && ch ≤ 55

/-- The second and third digits of an octal escape. -/
def yylexTokenOctal (ch : UInt8) (ps : ParseState) : Part :=
  let invalid (ps : ParseState) : Part := (yyerror ps "invalid octal escape", none)
  let r2 := yylexGetc ps
  match r2.1 with
  | none => invalid r2.2
  | some o2 =>
      if isOctal o2 then
        let r3 := yylexGetc r2.2
        match r3.1 with
        | none => invalid r3.2
        | some o3 =>
            if isOctal o3 then (r3.2, some [64 * (ch - 48) + 8 * (o2 - 48) + (o3 - 48)])
            else invalid r3.2
      else invalid r2.2

/-- The character of an escape. -/
def escapedChar (ch : UInt8) : UInt8 :=
  if ch = 'a'.toUInt8 then 0x07
  else if ch = 'b'.toUInt8 then 0x08
  else if ch = 'e'.toUInt8 then 0x1b
  else if ch = 'f'.toUInt8 then 0x0c
  else if ch = 's'.toUInt8 then ' '.toUInt8
  else if ch = 'v'.toUInt8 then 0x0b
  else if ch = 'r'.toUInt8 then '\r'.toUInt8
  else if ch = 'n'.toUInt8 then '\n'.toUInt8
  else if ch = 't'.toUInt8 then '\t'.toUInt8
  else ch

def yylexTokenEscape (w : World) (ps : ParseState) : Part :=
  let r := yylexGetc ps
  let ps := r.2
  match r.1 with
  | none => (ps, none)
  | some ch =>
      if 52 ≤ ch ∧ ch ≤ 55 then (yyerror ps "invalid octal escape", none)
      else if 48 ≤ ch ∧ ch ≤ 51 then yylexTokenOctal ch ps
      else if ch = 'u'.toUInt8 then yylexTokenUnicode w "u" 4 ps
      else if ch = 'U'.toUInt8 then yylexTokenUnicode w "U" 8 ps
      else (ps, some [escapedChar ch])

/-! ### Tokens -/

inductive State
  | start | none | doubleQuotes | singleQuotes
  deriving DecidableEq, Repr

/-- The variables of the loop of `yylex_token`. -/
structure Loop where
  ps : ParseState
  ch : Ch
  state : State
  last : State
  buf : List UInt8
  deriving DecidableEq, Repr

/-- How a turn of the loop ends: the token ends, there is an error, or there is another turn, for
the character at hand or for the next one. -/
inductive Turn
  | done (t : Loop)
  | error (ps : ParseState)
  | again (t : Loop)
  | next (t : Loop)
  deriving DecidableEq, Repr

def skipBlanks : Nat → ParseState → Exec (Ch × ParseState)
  | 0, _ => .error .outOfFuel
  | fuel + 1, ps =>
      let r := yylexGetc ps
      if r.1 = some ' '.toUInt8 ∨ r.1 = some '\t'.toUInt8 then skipBlanks fuel r.2 else pure r

/-- Skip a comment, and return what ends it. -/
def skipComment : Nat → ParseState → Exec (Ch × ParseState)
  | 0, _ => .error .outOfFuel
  | fuel + 1, ps =>
      let r := yylexGetc ps
      if r.1 = some '\n'.toUInt8 ∨ r.1 = none then pure r else skipComment fuel r.2

/-- The end of a line in quotes is kept, the blanks and the comment that follow are not. -/
def tokenNewline (fuel : Nat) (t : Loop) : Exec Turn := do
  let t := { t with buf := t.buf ++ ['\n'.toUInt8] }
  let r ← skipBlanks fuel t.ps
  if r.1 ≠ some '#'.toUInt8 then pure (.again { t with ch := r.1, ps := r.2 })
  else
    let r := yylexGetc r.2
    if strchr (bytes [',', '#', '{', '}', ':']) r.1 then
      pure (.again { t with ch := some '#'.toUInt8, ps := yylexUngetc r.2 r.1 })
    else
      let r ← skipComment fuel r.2
      pure (.again { t with ch := r.1, ps := r.2 })

def addPart (t : Loop) (part : Part) : Turn :=
  match part.2 with
  | none => .error part.1
  | some add => .next { t with ps := part.1, buf := t.buf ++ add, last := t.state }

/-- Treat `\r\n` as `\n`. -/
def joinReturn (ps : ParseState) : Ch × ParseState :=
  let r := yylexGetc ps
  if r.1 = some '\n'.toUInt8 then r else (some '\r'.toUInt8, yylexUngetc r.2 r.1)

/-- A character that is not a carriage return outside of quotes. -/
def tokenChar (w : World) (fuel : Nat) (t : Loop) (ch : UInt8) : Exec Turn :=
  if t.state = .none ∧ (ch = '\n'.toUInt8 ∨ ch = ' '.toUInt8 ∨ ch = '\t'.toUInt8 ∨
      ch = ';'.toUInt8 ∨ ch = '}'.toUInt8) then pure (.done t)
  else if ch = '\n'.toUInt8 ∧ t.state ≠ .none then tokenNewline fuel t
  else if ch = '\\'.toUInt8 ∧ t.state ≠ .singleQuotes then
    pure (addPart t (yylexTokenEscape w t.ps))
  else if ch = '~'.toUInt8 ∧ t.last ≠ t.state ∧ t.state ≠ .singleQuotes then do
    pure (addPart t (← yylexTokenTilde w fuel t.ps))
  else if ch = '$'.toUInt8 ∧ t.state ≠ .singleQuotes then do
    pure (addPart t (← yylexTokenVariable w fuel t.ps))
  else if ch = '\''.toUInt8 ∧ t.state = .none then pure (.next { t with state := .singleQuotes })
  else if ch = '\''.toUInt8 ∧ t.state = .singleQuotes then pure (.next { t with state := .none })
  else if ch = '"'.toUInt8 ∧ t.state = .none then pure (.next { t with state := .doubleQuotes })
  else if ch = '"'.toUInt8 ∧ t.state = .doubleQuotes then pure (.next { t with state := .none })
  else pure (addPart t (t.ps, some [ch]))

def tokenTurn (w : World) (fuel : Nat) (t : Loop) : Exec Turn :=
  match t.ch with
  | none => pure (.done t)
  | some ch =>
      if t.state = .none ∧ ch = '\r'.toUInt8 then
        let r := joinReturn t.ps
        tokenChar w fuel { t with ch := r.1, ps := r.2 } (r.1.getD 0)
      else tokenChar w fuel t ch

def tokenLoop (w : World) : Nat → Loop → Exec Part
  | 0, _ => .error .outOfFuel
  | fuel + 1, t => do
      match ← tokenTurn w fuel t with
      | .done t => pure (yylexUngetc t.ps t.ch, some t.buf)
      | .error ps => pure (ps, none)
      | .again t => tokenLoop w fuel t
      | .next t =>
          let r := yylexGetc t.ps
          tokenLoop w fuel { t with ch := r.1, ps := r.2 }

/-- A token that begins with a character. -/
def yylexToken (w : World) (fuel : Nat) (ps : ParseState) (ch : Ch) : Exec Part :=
  tokenLoop w fuel ⟨ps, ch, .none, .start, []⟩

/-! ### The lexer -/

inductive Tok
  | newline | semicolon | leftBrace | rightBrace
  | error | hidden | ifTok | elseTok | elif | endif
  | format (s : List UInt8)
  | token (s : List UInt8)
  | equals (s : List UInt8)
  deriving DecidableEq, Repr

def yylexGetWord : Nat → ParseState → List UInt8 → Exec (ParseState × List UInt8)
  | 0, _, _ => .error .outOfFuel
  | fuel + 1, ps, buf =>
      let r := yylexGetc ps
      match r.1 with
      | none => pure (yylexUngetc r.2 none, buf)
      | some c =>
          if strchr (bytes [' ', '\t', '\n']) (some c) then pure (yylexUngetc r.2 (some c), buf)
          else yylexGetWord fuel r.2 (buf ++ [c])

def yylexFormat : Nat → ParseState → Nat → List UInt8 → Exec Part
  | 0, _, _, _ => .error .outOfFuel
  | fuel + 1, ps, brackets, buf =>
      let r := yylexGetc ps
      match r.1 with
      | none => pure (r.2, none)
      | some c =>
          if c = '\n'.toUInt8 then pure (r.2, none)
          else if c = '#'.toUInt8 then
            let r := yylexGetc r.2
            match r.1 with
            | none => pure (r.2, none)
            | some c =>
                if c = '\n'.toUInt8 then pure (r.2, none)
                else yylexFormat fuel r.2 (if c = '{'.toUInt8 then brackets + 1 else brackets)
                  (buf ++ ['#'.toUInt8, c])
          else if c = '}'.toUInt8 ∧ brackets = 1 then pure (r.2, some (buf ++ [c]))
          else yylexFormat fuel r.2 (if c = '}'.toUInt8 then brackets - 1 else brackets)
            (buf ++ [c])

/-- Whether a token sets a variable. -/
def isEquals (s : List UInt8) : Bool :=
  s.contains '='.toUInt8 && yylexIsVar (s.headD 0) true &&
    (s.tail.dropWhile fun c => c ≠ '='.toUInt8 && yylexIsVar c false).head? == some '='.toUInt8

/-- `%` is a condition unless it is all `%` or all numbers, then it is a token. -/
def percentToken (ps : ParseState) (word : List UInt8) : ParseState × Tok :=
  if word.all fun c => c = '%'.toUInt8 ∨ isDigit c then (ps, .token word)
  else
    let ps := { ps with condition := true }
    if word = bytes ['%', 'h', 'i', 'd', 'd', 'e', 'n'] then (ps, .hidden)
    else if word = bytes ['%', 'i', 'f'] then (ps, .ifTok)
    else if word = bytes ['%', 'e', 'l', 's', 'e'] then (ps, .elseTok)
    else if word = bytes ['%', 'e', 'l', 'i', 'f'] then (ps, .elif)
    else if word = bytes ['%', 'e', 'n', 'd', 'i', 'f'] then (ps, .endif)
    else (ps, .error)

def tokenTok (s : List UInt8) : Tok := if isEquals s then .equals s else .token s

/-- The loop of `yylex`. -/
def yylexLoop (w : World) (condition : Bool) : Nat → ParseState → Exec (ParseState × Option Tok)
  | 0, _ => .error .outOfFuel
  | fuel + 1, ps => do
      let r := yylexGetc ps
      let r := if r.1 = some '\r'.toUInt8 then joinReturn r.2 else r
      let ps := r.2
      match r.1 with
      | none =>
          if ps.eof then pure (ps, none) else pure ({ ps with eof := true }, some .newline)
      | some ch =>
          if ch = ' '.toUInt8 ∨ ch = '\t'.toUInt8 then yylexLoop w condition fuel ps
          else if ch = '\n'.toUInt8 then pure ({ ps with eol := true }, some .newline)
          else if ch = ';'.toUInt8 then pure (ps, some .semicolon)
          else if ch = '{'.toUInt8 then pure (ps, some .leftBrace)
          else if ch = '}'.toUInt8 then pure (ps, some .rightBrace)
          else if ch = '#'.toUInt8 then
            let r := yylexGetc ps
            if condition ∧ r.1 = some '{'.toUInt8 then
              let format ← yylexFormat fuel r.2 1 (bytes ['#', '{'])
              match format.2 with
              | none => pure (format.1, some .error)
              | some s => pure (format.1, some (.format (cString s)))
            else
              let r ← if r.1 = some '\n'.toUInt8 ∨ r.1 = none then pure r else skipComment fuel r.2
              if r.1 = some '\n'.toUInt8 then
                pure ({ r.2 with line := r.2.line + 1 }, some .newline)
              else yylexLoop w condition fuel r.2
          else if ch = '%'.toUInt8 then
            let word ← yylexGetWord fuel ps ['%'.toUInt8]
            let r := percentToken word.1 (cString word.2)
            pure (r.1, some r.2)
          else
            let token ← yylexToken w fuel ps (some ch)
            match token.2 with
            | none => pure (token.1, some .error)
            | some s => pure (token.1, some (tokenTok (cString s)))

def yylex (w : World) (fuel : Nat) (ps : ParseState) : Exec (ParseState × Option Tok) :=
  let ps := { ps with line := if ps.eol then ps.line + 1 else ps.line, eol := false }
  yylexLoop w ps.condition fuel { ps with condition := false }

end Ztmux.Commands
