import Ztmux.Input.Tables

/-!
Parsing the input of a pane.

The transition for a byte is remembered, and looked up again only when the state has changed or the
next byte is not in its range. What is written to the terminal is not modelled: the handlers that do
so may do anything to the parser, and so may the ends of strings.
-/

namespace Ztmux.Input

/-! ### The parser -/

inductive InputEnd
  | st | bel
  deriving DecidableEq, Repr

/-- The buffers without their terminators, the flags `INPUT_DISCARD` and `INPUT_LAST`, the most
bytes of input, and everything else the handlers use. -/
structure InputCtx (ω : Type) where
  intermBuf : List UInt8
  paramBuf : List UInt8
  inputBuf : List UInt8
  inputSpace : Nat
  inputEnd : InputEnd
  discard : Bool
  last : Bool
  ch : UInt8
  state : InputState
  sinceGround : List UInt8
  groundTimer : Bool
  inputBufferSize : Nat
  rest : ω

def INPUT_BUF_START : Nat := 32

/-- What is done to the terminal. -/
structure Terminal (ω : Type) where
  collectEnd : InputCtx ω → Exec (InputCtx ω)
  print : InputCtx ω → Exec (InputCtx ω × Int)
  c0Dispatch : InputCtx ω → Exec (InputCtx ω × Int)
  topBitSet : InputCtx ω → Exec (InputCtx ω × Int)
  escDispatch : InputCtx ω → Exec (InputCtx ω × Int)
  csiDispatch : InputCtx ω → Exec (InputCtx ω × Int)
  dcsDispatch : InputCtx ω → Exec (InputCtx ω × Int)
  exitOsc : InputCtx ω → Exec (InputCtx ω)
  exitApc : InputCtx ω → Exec (InputCtx ω)
  exitRename : InputCtx ω → Exec (InputCtx ω)

section

variable {ω : Type}

/-- Clear saved state. -/
def inputClear (ictx : InputCtx ω) : InputCtx ω :=
  { ictx with
    groundTimer := false
    intermBuf := []
    paramBuf := []
    inputBuf := []
    inputEnd := .st
    discard := false }

/-- Reset for ground state. What a smaller buffer cannot hold is cleared before it is read. -/
def inputGround (ictx : InputCtx ω) : InputCtx ω :=
  { ictx with
    groundTimer := false
    sinceGround := []
    inputSpace := if INPUT_BUF_START < ictx.inputSpace then INPUT_BUF_START else ictx.inputSpace }

def enterString (ictx : InputCtx ω) : InputCtx ω :=
  { inputClear ictx with groundTimer := true, last := false }

def inputEnterDcs (ictx : InputCtx ω) : InputCtx ω := enterString ictx
def inputEnterOsc (ictx : InputCtx ω) : InputCtx ω := enterString ictx
def inputEnterApc (ictx : InputCtx ω) : InputCtx ω := enterString ictx
def inputEnterRename (ictx : InputCtx ω) : InputCtx ω := enterString ictx

/-- Collect intermediate string. -/
def inputIntermediate (ictx : InputCtx ω) : InputCtx ω :=
  if ictx.intermBuf.length = 4 - 1 then { ictx with discard := true }
  else { ictx with intermBuf := ictx.intermBuf ++ [ictx.ch] }

/-- Collect parameter string. -/
def inputParameter (ictx : InputCtx ω) : InputCtx ω :=
  if ictx.paramBuf.length = 64 - 1 then { ictx with discard := true }
  else { ictx with paramBuf := ictx.paramBuf ++ [ictx.ch] }

/-- Make room for one more byte of input. A size cannot double more often than it has bits. -/
def growInput : Nat → InputCtx ω → Exec (InputCtx ω × Bool)
  | 0, _ => .error .outOfFuel
  | turns + 1, ictx =>
      if ictx.inputSpace ≤ ictx.inputBuf.length + 1 then
        if ictx.inputBufferSize < ictx.inputSpace * 2 then
          .ok ({ ictx with discard := true }, false)
        else growInput turns { ictx with inputSpace := ictx.inputSpace * 2 }
      else .ok (ictx, true)

/-- Collect input string. -/
def inputInput (ictx : InputCtx ω) : Exec (InputCtx ω) := do
  let r ← growInput 65 ictx
  pure (if r.2 then { r.1 with inputBuf := r.1.inputBuf ++ [r.1.ch] } else r.1)

def inputEndBel (ictx : InputCtx ω) : InputCtx ω := { ictx with inputEnd := .bel }

def Handler.run (T : Terminal ω) : Handler → InputCtx ω → Exec (InputCtx ω × Int)
  | .print, ictx => T.print ictx
  | .c0Dispatch, ictx => T.c0Dispatch ictx
  | .topBitSet, ictx => T.topBitSet ictx
  | .intermediate, ictx => .ok (inputIntermediate ictx, 0)
  | .parameter, ictx => .ok (inputParameter ictx, 0)
  | .input, ictx => do pure (← inputInput ictx, 0)
  | .escDispatch, ictx => T.escDispatch ictx
  | .csiDispatch, ictx => T.csiDispatch ictx
  | .dcsDispatch, ictx => T.dcsDispatch ictx
  | .endBel, ictx => .ok (inputEndBel ictx, 0)

def InputState.enter (ictx : InputCtx ω) : InputState → InputCtx ω
  | .ground => inputGround ictx
  | .escEnter | .csiEnter => inputClear ictx
  | .dcsEnter => inputEnterDcs ictx
  | .oscString => inputEnterOsc ictx
  | .apcString => inputEnterApc ictx
  | .renameString | .consumeSt => inputEnterRename ictx
  | _ => ictx

def InputState.exit (T : Terminal ω) (ictx : InputCtx ω) : InputState → Exec (InputCtx ω)
  | .oscString => T.exitOsc ictx
  | .apcString => T.exitApc ictx
  | .renameString => T.exitRename ictx
  | _ => .ok ictx

def inputSetState (T : Terminal ω) (ictx : InputCtx ω) (state : InputState) :
    Exec (InputCtx ω) := do
  let ictx ← ictx.state.exit T ictx
  pure (state.enter { ictx with state := state })

/-! ### Parsing -/

/-- A handler that was executed, and the parser it was executed on. -/
structure Call (ω : Type) where
  handler : Handler
  ictx : InputCtx ω

/-- Any state except print stops the current collection. -/
def stopCollection (T : Terminal ω) (itr : InputTransition) (ictx : InputCtx ω) :
    Exec (InputCtx ω) :=
  if itr.handler = some .print then .ok ictx else T.collectEnd ictx

/-- Switch state, if necessary. If not in ground state, save input. -/
def switchState (T : Terminal ω) (itr : InputTransition) (ictx : InputCtx ω) :
    Exec (InputCtx ω) := do
  let ictx ← match itr.state with
    | none => .ok ictx
    | some state => inputSetState T ictx state
  pure (if ictx.state ≠ .ground then { ictx with sinceGround := ictx.sinceGround ++ [ictx.ch] }
    else ictx)

/-- Follow a transition. The state is not switched if the handler returns non-zero. -/
def follow (T : Terminal ω) (itr : InputTransition) (ictx : InputCtx ω) :
    Exec (InputCtx ω × List (Call ω)) := do
  let ictx ← stopCollection T itr ictx
  match itr.handler with
  | none => pure (← switchState T itr ictx, [])
  | some handler =>
      let r ← handler.run T ictx
      if r.2 ≠ 0 then pure (r.1, [⟨handler, ictx⟩])
      else pure (← switchState T itr r.1, [⟨handler, ictx⟩])

/-- The state and the transition of the byte before. -/
abbrev Remembered := Option (InputState × InputTransition)

def findTransition (remembered : Remembered) (state : InputState) (ch : UInt8) :
    Option InputTransition :=
  match remembered with
  | none => state.find ch
  | some (before, itr) => if before ≠ state ∨ ¬ itr.Has ch then state.find ch else some itr

/-- The loop of `input_parse`. -/
def parseLoop (T : Terminal ω) : Remembered → InputCtx ω → List UInt8 →
    Exec (InputCtx ω × List (Call ω))
  | _, ictx, [] => pure (ictx, [])
  | remembered, ictx, ch :: buf =>
      let ictx := { ictx with ch := ch }
      match findTransition remembered ictx.state ch with
      | none => .error .fatal
      | some itr => do
          let r ← follow T itr ictx
          let rest ← parseLoop T (some (ictx.state, itr)) r.1 buf
          pure (rest.1, r.2 ++ rest.2)

def inputParse (T : Terminal ω) (ictx : InputCtx ω) (buf : List UInt8) :
    Exec (InputCtx ω × List (Call ω)) :=
  parseLoop T none ictx buf

/-- Feed some chunks one after the other. -/
def inputParseChunks (T : Terminal ω) : InputCtx ω → List (List UInt8) →
    Exec (InputCtx ω × List (Call ω))
  | ictx, [] => pure (ictx, [])
  | ictx, buf :: bufs => do
      let r ← inputParse T ictx buf
      let rest ← inputParseChunks T r.1 bufs
      pure (rest.1, r.2 ++ rest.2)

/-! ### Looking up every transition -/

/-- Parse with a fresh lookup for each byte. -/
def parseFresh (T : Terminal ω) : InputCtx ω → List UInt8 → Exec (InputCtx ω × List (Call ω))
  | ictx, [] => pure (ictx, [])
  | ictx, ch :: buf =>
      let ictx := { ictx with ch := ch }
      match ictx.state.find ch with
      | none => .error .fatal
      | some itr => do
          let r ← follow T itr ictx
          let rest ← parseFresh T r.1 buf
          pure (rest.1, r.2 ++ rest.2)

/-- What is remembered was found in the table of the state. -/
def Remembers (remembered : Remembered) : Prop :=
  ∀ state itr, remembered = some (state, itr) → itr ∈ state.transitions

/-- The transition that was remembered is the one of a fresh lookup. -/
theorem findTransition_eq {remembered : Remembered} (h : Remembers remembered) (state : InputState)
    (ch : UInt8) : findTransition remembered state ch = state.find ch := by
  rcases remembered with _ | ⟨before, itr⟩
  · rfl
  · rw [findTransition]
    split_ifs with hstale
    · rfl
    · rw [not_or, not_not, not_not] at hstale
      obtain ⟨rfl, hhas⟩ := hstale
      exact (find_of_has (h _ _ rfl) hhas).symm

variable (T : Terminal ω)

/-- Whatever was remembered, the loop goes on as with fresh lookups. -/
theorem parseLoop_eq_parseFresh {remembered : Remembered} (h : Remembers remembered)
    (ictx : InputCtx ω) (buf : List UInt8) :
    parseLoop T remembered ictx buf = parseFresh T ictx buf := by
  induction buf generalizing remembered ictx with
  | nil => rfl
  | cons ch buf ih =>
      rw [parseLoop, parseFresh]
      dsimp only
      rw [findTransition_eq h]
      cases hfind : ictx.state.find ch with
      | none => rfl
      | some itr =>
          have hremembers : Remembers (some (ictx.state, itr)) := by
            rintro _ _ ⟨rfl, rfl⟩
            exact List.mem_of_find?_eq_some hfind
          simp only [ih hremembers]

theorem parseFresh_append (ictx : InputCtx ω) (buf more : List UInt8) :
    parseFresh T ictx (buf ++ more) = (do
      let r ← parseFresh T ictx buf
      let rest ← parseFresh T r.1 more
      pure (rest.1, r.2 ++ rest.2)) := by
  induction buf generalizing ictx with
  | nil => simp [parseFresh]
  | cons ch buf ih =>
      rw [List.cons_append, parseFresh, parseFresh]
      dsimp only
      cases ictx.state.find ch with
      | none => rfl
      | some itr => simp only [ih, bind_assoc, pure_bind, List.append_assoc]

/-- Input can be fed in any chunks: the handlers that are executed and the parser at the end are the
same as for the whole of it, and the same as with a fresh lookup of every transition. -/
theorem inputParse_chunks (ictx : InputCtx ω) (bufs : List (List UInt8)) :
    inputParseChunks T ictx bufs = inputParse T ictx bufs.flatten ∧
      inputParse T ictx bufs.flatten = parseFresh T ictx bufs.flatten := by
  have hnothing : Remembers none := by
    intro state itr hnone
    cases hnone
  have hfresh : ∀ ictx buf, inputParse T ictx buf = parseFresh T ictx buf := fun ictx buf =>
    parseLoop_eq_parseFresh T hnothing ictx buf
  refine ⟨?_, hfresh ictx bufs.flatten⟩
  rw [hfresh]
  induction bufs generalizing ictx with
  | nil => rfl
  | cons buf bufs ih =>
      rw [List.flatten_cons, parseFresh_append, inputParseChunks, hfresh]
      simp only [ih]

end

end Ztmux.Input
