import Ztmux.Machine

/-!
The tables of the input parser.

Each state has a table of transitions for ranges of bytes. A transition has a handler and a state to
go to, or either of them, or neither.
-/

namespace Ztmux.Input

inductive InputState
  | ground | escEnter | escIntermediate
  | csiEnter | csiParameter | csiIntermediate | csiIgnore
  | dcsEnter | dcsParameter | dcsIntermediate | dcsHandler | dcsEscape | dcsIgnore
  | oscString | apcString | renameString | consumeSt
  deriving DecidableEq, Repr

inductive Handler
  | print | c0Dispatch | topBitSet | intermediate | parameter | input
  | escDispatch | csiDispatch | dcsDispatch | endBel
  deriving DecidableEq, Repr

structure InputTransition where
  first : UInt8
  last : UInt8
  handler : Option Handler
  state : Option InputState
  deriving DecidableEq, Repr

/-- State transitions available from all states. -/
def inputStateAnywhere : List InputTransition :=
  [⟨0x18, 0x18, some .c0Dispatch, some .ground⟩, ⟨0x1a, 0x1a, some .c0Dispatch, some .ground⟩,
    ⟨0x1b, 0x1b, none, some .escEnter⟩]

def InputState.transitions : InputState → List InputTransition
  | .ground => inputStateAnywhere ++ [
      ⟨0x00, 0x17, some .c0Dispatch, none⟩, ⟨0x19, 0x19, some .c0Dispatch, none⟩,
      ⟨0x1c, 0x1f, some .c0Dispatch, none⟩, ⟨0x20, 0x7e, some .print, none⟩,
      ⟨0x7f, 0x7f, none, none⟩, ⟨0x80, 0xff, some .topBitSet, none⟩]
  | .escEnter => inputStateAnywhere ++ [
      ⟨0x00, 0x17, some .c0Dispatch, none⟩, ⟨0x19, 0x19, some .c0Dispatch, none⟩,
      ⟨0x1c, 0x1f, some .c0Dispatch, none⟩, ⟨0x20, 0x2f, some .intermediate, some .escIntermediate⟩,
      ⟨0x30, 0x4f, some .escDispatch, some .ground⟩, ⟨0x50, 0x50, none, some .dcsEnter⟩,
      ⟨0x51, 0x57, some .escDispatch, some .ground⟩, ⟨0x58, 0x58, none, some .consumeSt⟩,
      ⟨0x59, 0x59, some .escDispatch, some .ground⟩, ⟨0x5a, 0x5a, some .escDispatch, some .ground⟩,
      ⟨0x5b, 0x5b, none, some .csiEnter⟩, ⟨0x5c, 0x5c, some .escDispatch, some .ground⟩,
      ⟨0x5d, 0x5d, none, some .oscString⟩, ⟨0x5e, 0x5e, none, some .consumeSt⟩,
      ⟨0x5f, 0x5f, none, some .apcString⟩, ⟨0x60, 0x6a, some .escDispatch, some .ground⟩,
      ⟨0x6b, 0x6b, none, some .renameString⟩, ⟨0x6c, 0x7e, some .escDispatch, some .ground⟩,
      ⟨0x7f, 0xff, none, none⟩]
  | .escIntermediate => inputStateAnywhere ++ [
      ⟨0x00, 0x17, some .c0Dispatch, none⟩, ⟨0x19, 0x19, some .c0Dispatch, none⟩,
      ⟨0x1c, 0x1f, some .c0Dispatch, none⟩, ⟨0x20, 0x2f, some .intermediate, none⟩,
      ⟨0x30, 0x7e, some .escDispatch, some .ground⟩, ⟨0x7f, 0xff, none, none⟩]
  | .csiEnter => inputStateAnywhere ++ [
      ⟨0x00, 0x17, some .c0Dispatch, none⟩, ⟨0x19, 0x19, some .c0Dispatch, none⟩,
      ⟨0x1c, 0x1f, some .c0Dispatch, none⟩, ⟨0x20, 0x2f, some .intermediate, some .csiIntermediate⟩,
      ⟨0x30, 0x39, some .parameter, some .csiParameter⟩,
      ⟨0x3a, 0x3a, some .parameter, some .csiParameter⟩,
      ⟨0x3b, 0x3b, some .parameter, some .csiParameter⟩,
      ⟨0x3c, 0x3f, some .intermediate, some .csiParameter⟩,
      ⟨0x40, 0x7e, some .csiDispatch, some .ground⟩, ⟨0x7f, 0xff, none, none⟩]
  | .csiParameter => inputStateAnywhere ++ [
      ⟨0x00, 0x17, some .c0Dispatch, none⟩, ⟨0x19, 0x19, some .c0Dispatch, none⟩,
      ⟨0x1c, 0x1f, some .c0Dispatch, none⟩, ⟨0x20, 0x2f, some .intermediate, some .csiIntermediate⟩,
      ⟨0x30, 0x39, some .parameter, none⟩, ⟨0x3a, 0x3a, some .parameter, none⟩,
      ⟨0x3b, 0x3b, some .parameter, none⟩, ⟨0x3c, 0x3f, none, some .csiIgnore⟩,
      ⟨0x40, 0x7e, some .csiDispatch, some .ground⟩, ⟨0x7f, 0xff, none, none⟩]
  | .csiIntermediate => inputStateAnywhere ++ [
      ⟨0x00, 0x17, some .c0Dispatch, none⟩, ⟨0x19, 0x19, some .c0Dispatch, none⟩,
      ⟨0x1c, 0x1f, some .c0Dispatch, none⟩, ⟨0x20, 0x2f, some .intermediate, none⟩,
      ⟨0x30, 0x3f, none, some .csiIgnore⟩, ⟨0x40, 0x7e, some .csiDispatch, some .ground⟩,
      ⟨0x7f, 0xff, none, none⟩]
  | .csiIgnore => inputStateAnywhere ++ [
      ⟨0x00, 0x17, some .c0Dispatch, none⟩, ⟨0x19, 0x19, some .c0Dispatch, none⟩,
      ⟨0x1c, 0x1f, some .c0Dispatch, none⟩, ⟨0x20, 0x3f, none, none⟩,
      ⟨0x40, 0x7e, none, some .ground⟩, ⟨0x7f, 0xff, none, none⟩]
  | .dcsEnter => inputStateAnywhere ++ [
      ⟨0x00, 0x17, none, none⟩, ⟨0x19, 0x19, none, none⟩, ⟨0x1c, 0x1f, none, none⟩,
      ⟨0x20, 0x2f, some .intermediate, some .dcsIntermediate⟩,
      ⟨0x30, 0x39, some .parameter, some .dcsParameter⟩, ⟨0x3a, 0x3a, none, some .dcsIgnore⟩,
      ⟨0x3b, 0x3b, some .parameter, some .dcsParameter⟩,
      ⟨0x3c, 0x3f, some .intermediate, some .dcsParameter⟩,
      ⟨0x40, 0x7e, some .input, some .dcsHandler⟩, ⟨0x7f, 0xff, none, none⟩]
  | .dcsParameter => inputStateAnywhere ++ [
      ⟨0x00, 0x17, none, none⟩, ⟨0x19, 0x19, none, none⟩, ⟨0x1c, 0x1f, none, none⟩,
      ⟨0x20, 0x2f, some .intermediate, some .dcsIntermediate⟩, ⟨0x30, 0x39, some .parameter, none⟩,
      ⟨0x3a, 0x3a, none, some .dcsIgnore⟩, ⟨0x3b, 0x3b, some .parameter, none⟩,
      ⟨0x3c, 0x3f, none, some .dcsIgnore⟩, ⟨0x40, 0x7e, some .input, some .dcsHandler⟩,
      ⟨0x7f, 0xff, none, none⟩]
  | .dcsIntermediate => inputStateAnywhere ++ [
      ⟨0x00, 0x17, none, none⟩, ⟨0x19, 0x19, none, none⟩, ⟨0x1c, 0x1f, none, none⟩,
      ⟨0x20, 0x2f, some .intermediate, none⟩, ⟨0x30, 0x3f, none, some .dcsIgnore⟩,
      ⟨0x40, 0x7e, some .input, some .dcsHandler⟩, ⟨0x7f, 0xff, none, none⟩]
  | .dcsHandler => [
      ⟨0x00, 0x1a, some .input, none⟩, ⟨0x1b, 0x1b, none, some .dcsEscape⟩,
      ⟨0x1c, 0xff, some .input, none⟩]
  | .dcsEscape => [
      ⟨0x00, 0x5b, some .input, some .dcsHandler⟩, ⟨0x5c, 0x5c, some .dcsDispatch, some .ground⟩,
      ⟨0x5d, 0xff, some .input, some .dcsHandler⟩]
  | .dcsIgnore => inputStateAnywhere ++ [
      ⟨0x00, 0x17, none, none⟩, ⟨0x19, 0x19, none, none⟩, ⟨0x1c, 0x1f, none, none⟩,
      ⟨0x20, 0xff, none, none⟩]
  | .oscString => inputStateAnywhere ++ [
      ⟨0x00, 0x06, none, none⟩, ⟨0x07, 0x07, some .endBel, some .ground⟩, ⟨0x08, 0x17, none, none⟩,
      ⟨0x19, 0x19, none, none⟩, ⟨0x1c, 0x1f, none, none⟩, ⟨0x20, 0xff, some .input, none⟩]
  | .apcString => inputStateAnywhere ++ [
      ⟨0x00, 0x17, none, none⟩, ⟨0x19, 0x19, none, none⟩, ⟨0x1c, 0x1f, none, none⟩,
      ⟨0x20, 0xff, some .input, none⟩]
  | .renameString => inputStateAnywhere ++ [
      ⟨0x00, 0x17, none, none⟩, ⟨0x19, 0x19, none, none⟩, ⟨0x1c, 0x1f, none, none⟩,
      ⟨0x20, 0xff, some .input, none⟩]
  | .consumeSt => inputStateAnywhere ++ [
      ⟨0x00, 0x17, none, none⟩, ⟨0x19, 0x19, none, none⟩, ⟨0x1c, 0x1f, none, none⟩,
      ⟨0x20, 0xff, none, none⟩]

def InputTransition.Has (itr : InputTransition) (ch : UInt8) : Prop :=
  itr.first ≤ ch ∧ ch ≤ itr.last

instance (itr : InputTransition) (ch : UInt8) : Decidable (itr.Has ch) :=
  inferInstanceAs (Decidable (_ ∧ _))

/-- The first transition of the table for a byte. -/
def InputState.find (state : InputState) (ch : UInt8) : Option InputTransition :=
  state.transitions.find? fun itr => itr.Has ch

/-- The ranges of a table do not overlap and leave nothing out. -/
theorem find_table (state : InputState) : ∀ n : Fin 256,
    (state.find (UInt8.ofNat n)).isSome ∧ ∀ itr ∈ state.transitions, itr.Has (UInt8.ofNat n) →
      state.find (UInt8.ofNat n) = some itr := by
  cases state <;> decide +kernel

/-- A transition that has the byte is the one that is found. -/
theorem find_of_has {state : InputState} {itr : InputTransition} {ch : UInt8}
    (hmem : itr ∈ state.transitions) (hhas : itr.Has ch) : state.find ch = some itr := by
  have htable := (find_table state ⟨ch.toNat, ch.toNat_lt⟩).2 itr hmem
  rw [UInt8.ofNat_toNat] at htable
  exact htable hhas

end Ztmux.Input
