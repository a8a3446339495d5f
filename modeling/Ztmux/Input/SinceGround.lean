import Ztmux.Input.Parse

/-!
The input since the ground state.

What a parser was fed since it was last in the ground state is kept, so that another parser can be
brought to where this one is. A reset puts the parser in the ground state as well, but keeps the
input.
-/

namespace Ztmux.Input

section

variable {ω : Type}

/-! ### Model -/

/-- What a handler leaves behind: what is outside of the parser, and `INPUT_LAST`. -/
structure Written (ω : Type) where
  rest : ω
  last : Bool

/-- What the end of a sequence leaves behind: the texts were taken apart, too. -/
structure Dispatched (ω : Type) where
  rest : ω
  last : Bool
  paramBuf : List UInt8
  inputBuf : List UInt8

/-- The handlers, which return 0. They read the parser and write to the terminal. -/
structure Handlers (ω : Type) where
  collectEnd : InputCtx ω → ω
  print : InputCtx ω → Written ω
  c0Dispatch : InputCtx ω → Written ω
  topBitSet : InputCtx ω → Written ω
  escDispatch : InputCtx ω → Dispatched ω
  csiDispatch : InputCtx ω → Dispatched ω
  dcsDispatch : InputCtx ω → Dispatched ω
  exitOsc : InputCtx ω → Dispatched ω
  exitApc : InputCtx ω → Dispatched ω
  exitRename : InputCtx ω → Dispatched ω
  reset : InputCtx ω → Bool → ω

def InputCtx.written (ictx : InputCtx ω) (w : Written ω) : InputCtx ω :=
  { ictx with rest := w.rest, last := w.last }

def InputCtx.dispatched (ictx : InputCtx ω) (d : Dispatched ω) : InputCtx ω :=
  { ictx with rest := d.rest, last := d.last, paramBuf := d.paramBuf, inputBuf := d.inputBuf }

def Handlers.terminal (H : Handlers ω) : Terminal ω where
  collectEnd ictx := .ok { ictx with rest := H.collectEnd ictx }
  print ictx := .ok (ictx.written (H.print ictx), 0)
  c0Dispatch ictx := .ok (ictx.written (H.c0Dispatch ictx), 0)
  topBitSet ictx := .ok (ictx.written (H.topBitSet ictx), 0)
  escDispatch ictx := .ok (ictx.dispatched (H.escDispatch ictx), 0)
  csiDispatch ictx := .ok (ictx.dispatched (H.csiDispatch ictx), 0)
  dcsDispatch ictx := .ok (ictx.dispatched (H.dcsDispatch ictx), 0)
  exitOsc ictx := .ok (ictx.dispatched (H.exitOsc ictx))
  exitApc ictx := .ok (ictx.dispatched (H.exitApc ictx))
  exitRename ictx := .ok (ictx.dispatched (H.exitRename ictx))

/-- Reset input state. The input since the ground state stays. -/
def inputReset (H : Handlers ω) (ictx : InputCtx ω) (clear : Bool) : InputCtx ω :=
  { inputClear ictx with
    rest := H.reset ictx clear
    state := .ground
    discard := false
    last := false }

/-- A new parser, with the size that the option allows for strings. -/
def inputInit (H : Handlers ω) (inputBufferSize : Nat) (rest : ω) : InputCtx ω :=
  inputReset H ⟨[], [], [], INPUT_BUF_START, .st, false, false, 0, .ground, [], false,
    inputBufferSize, rest⟩
    false

/-- What happens to a parser: it is fed, it is reset, or it has waited for too long for the end of a
string. -/
inductive Op
  | parse (buf : List UInt8)
  | reset (clear : Bool)
  | expire

def step (H : Handlers ω) (ictx : InputCtx ω) : Op → Exec (InputCtx ω)
  | .parse buf => do pure (← inputParse H.terminal ictx buf).1
  | .reset clear => pure (inputReset H ictx clear)
  | .expire => pure (if ictx.groundTimer then inputReset H ictx false else ictx)

/-! ### Parsers that are alike -/

/-- The texts of a sequence that is not complete. -/
structure Texts (a b : InputCtx ω) : Prop where
  interm : b.intermBuf = a.intermBuf
  param : b.paramBuf = a.paramBuf
  input : b.inputBuf = a.inputBuf
  inputEnd : b.inputEnd = a.inputEnd
  discard : b.discard = a.discard

/-- What a new parser has in common with one that it was brought to. -/
structure Alike (a b : InputCtx ω) : Prop where
  state : b.state = a.state
  space : b.inputSpace = a.inputSpace
  size : b.inputBufferSize = a.inputBufferSize
  texts : a.state ≠ .ground → Texts a b

/-- A parser whose input was kept rightly: there is none in the ground state, and elsewhere a new
parser that is fed with it comes to the same state. -/
structure Faithful (H : Handlers ω) (inputBufferSize : Nat) (ictx : InputCtx ω) : Prop where
  ground : ictx.state = .ground → ictx.sinceGround = []
  replay : ictx.state ≠ .ground → ∀ rest, ∃ fresh calls,
    inputParse H.terminal (inputInit H inputBufferSize rest) ictx.sinceGround = .ok (fresh, calls) ∧
      fresh.state = ictx.state ∧ Texts ictx fresh

/-- The condition on a step: a parser is only reset in the ground state. -/
structure Meets (ictx : InputCtx ω) (op : Op) : Prop where
  reset : ∀ clear, op = .reset clear → ictx.state = .ground
  expire : op = .expire → ictx.groundTimer = true → ictx.state = .ground

/-- The parsers that come from a new one by steps that meet the condition. -/
inductive Reached (H : Handlers ω) (inputBufferSize : Nat) (rest : ω) : InputCtx ω → Prop
  | init : Reached H inputBufferSize rest (inputInit H inputBufferSize rest)
  | step {ictx ictx' : InputCtx ω} {op : Op} (h : Reached H inputBufferSize rest ictx)
      (hmeets : Meets ictx op)
      (hstep : step H ictx op = .ok ictx') : Reached H inputBufferSize rest ictx'

/-! ### Tables -/

/-- The handlers at the end of a sequence. -/
def Handler.dispatches : Handler → Bool
  | .escDispatch | .csiDispatch | .dcsDispatch => true
  | _ => false

/-- The handlers that collect a text. -/
def Handler.collects : Handler → Bool
  | .intermediate | .parameter | .input | .endBel => true
  | _ => false

/-- The states that begin with the texts that there are. -/
def InputState.keepsTexts : InputState → Bool
  | .ground | .escEnter | .csiEnter | .dcsEnter | .oscString | .apcString | .renameString
  | .consumeSt => false
  | _ => true

def InputState.hasExit : InputState → Bool
  | .oscString | .apcString | .renameString => true
  | _ => false

/-- A sequence ends in the ground state, texts are collected outside of it only, and a state that
begins with texts follows one that leaves them as they are. -/
theorem transitions_table (s : InputState) : ∀ itr ∈ s.transitions,
    (itr.handler.any Handler.dispatches = true → itr.state = some .ground) ∧
    (itr.handler.any Handler.collects = true → s ≠ .ground) ∧
    (itr.state.any InputState.keepsTexts = true → s ≠ .ground ∧ s.hasExit = false) := by
  cases s <;> decide +kernel

/-! ### Handlers -/

variable {a a' b : InputCtx ω} {H : Handlers ω} {inputBufferSize : Nat} {rest : ω}

/-- What a handler leaves as it is. -/
structure Frame (a a' : InputCtx ω) : Prop where
  state : a'.state = a.state
  ch : a'.ch = a.ch
  sinceGround : a'.sinceGround = a.sinceGround
  size : a'.inputBufferSize = a.inputBufferSize
  space : a.inputSpace ≤ a'.inputSpace

theorem frame_written (a : InputCtx ω) (w : Written ω) : Frame a (a.written w) :=
  ⟨rfl, rfl, rfl, rfl, le_rfl⟩

theorem frame_dispatched (a : InputCtx ω) (d : Dispatched ω) : Frame a (a.dispatched d) :=
  ⟨rfl, rfl, rfl, rfl, le_rfl⟩

theorem growInput_frame {turns : Nat} {r : InputCtx ω × Bool} (h : growInput turns a = .ok r) :
    Frame a r.1 := by
  induction turns generalizing a with
  | zero => cases h
  | succ turns ih =>
      rw [growInput] at h
      split_ifs at h
      · obtain rfl := Except.ok.inj h
        exact ⟨rfl, rfl, rfl, rfl, le_rfl⟩
      · have hframe := ih h
        have hle : a.inputSpace ≤ a.inputSpace * 2 := Nat.le_mul_of_pos_right _ (by decide)
        exact ⟨hframe.state, hframe.ch, hframe.sinceGround, hframe.size, hle.trans hframe.space⟩
      · obtain rfl := Except.ok.inj h
        exact ⟨rfl, rfl, rfl, rfl, le_rfl⟩

theorem growInput_alike {turns : Nat} {r : InputCtx ω × Bool} (htexts : Texts a b)
    (hspace : b.inputSpace = a.inputSpace)
    (hsize : b.inputBufferSize = a.inputBufferSize) (h : growInput turns a = .ok r) :
    ∃ b', growInput turns b = .ok (b', r.2) ∧ Texts r.1 b' ∧ b'.inputSpace = r.1.inputSpace := by
  induction turns generalizing a b with
  | zero => cases h
  | succ turns ih =>
      rw [growInput] at h ⊢
      have hlength : b.inputBuf.length = a.inputBuf.length := congrArg List.length htexts.input
      split_ifs at h with hfull hlimit
      · obtain rfl := Except.ok.inj h
        rw [if_pos (by omega), if_pos (by omega)]
        exact ⟨_, rfl, ⟨htexts.interm, htexts.param, htexts.input, htexts.inputEnd, rfl⟩, hspace⟩
      · rw [if_pos (by omega), if_neg (by omega)]
        have hdoubled : Texts { a with inputSpace := a.inputSpace * 2 }
            { b with inputSpace := b.inputSpace * 2 } :=
          ⟨htexts.interm, htexts.param, htexts.input, htexts.inputEnd, htexts.discard⟩
        exact ih hdoubled (congrArg (· * 2) hspace) hsize h
      · obtain rfl := Except.ok.inj h
        rw [if_neg (by omega)]
        exact ⟨b, rfl, htexts, hspace⟩

theorem run_frame {handler : Handler} {r : InputCtx ω × Int}
    (h : handler.run H.terminal a = .ok r) :
    Frame a r.1 ∧ r.2 = 0 ∧ (handler.collects = false → r.1.inputSpace = a.inputSpace) := by
  cases handler with
  | print | c0Dispatch | topBitSet =>
      obtain rfl := Except.ok.inj h
      exact ⟨frame_written a _, rfl, fun _ => rfl⟩
  | escDispatch | csiDispatch | dcsDispatch =>
      obtain rfl := Except.ok.inj h
      exact ⟨frame_dispatched a _, rfl, fun _ => rfl⟩
  | intermediate =>
      obtain rfl := Except.ok.inj h
      dsimp only
      rw [inputIntermediate]
      split_ifs
      · exact ⟨⟨rfl, rfl, rfl, rfl, le_rfl⟩, rfl, fun _ => rfl⟩
      · exact ⟨⟨rfl, rfl, rfl, rfl, le_rfl⟩, rfl, fun _ => rfl⟩
  | parameter =>
      obtain rfl := Except.ok.inj h
      dsimp only
      rw [inputParameter]
      split_ifs
      · exact ⟨⟨rfl, rfl, rfl, rfl, le_rfl⟩, rfl, fun _ => rfl⟩
      · exact ⟨⟨rfl, rfl, rfl, rfl, le_rfl⟩, rfl, fun _ => rfl⟩
  | input =>
      obtain ⟨a', hinput, hpure⟩ := bind_eq_ok.mp h
      obtain rfl := Except.ok.inj hpure
      obtain ⟨grown, hgrow, hgrown⟩ := bind_eq_ok.mp hinput
      obtain rfl := Except.ok.inj hgrown
      have hframe := growInput_frame hgrow
      dsimp only
      split_ifs
      · exact ⟨⟨hframe.state, hframe.ch, hframe.sinceGround, hframe.size, hframe.space⟩, rfl,
          fun h => (nomatch h)⟩
      · exact ⟨hframe, rfl, fun h => (nomatch h)⟩
  | endBel =>
      obtain rfl := Except.ok.inj h
      exact ⟨⟨rfl, rfl, rfl, rfl, le_rfl⟩, rfl, fun _ => rfl⟩

/-- A handler does the same to the texts of both, unless it ends a sequence. -/
theorem run_alike {handler : Handler} {r : InputCtx ω × Int} (hspace : b.inputSpace = a.inputSpace)
    (hsize : b.inputBufferSize = a.inputBufferSize) (hch : b.ch = a.ch)
    (htexts : handler.collects = true → Texts a b)
    (h : handler.run H.terminal a = .ok r) :
    ∃ r', handler.run H.terminal b = .ok r' ∧ r'.1.inputSpace = r.1.inputSpace ∧
      (Texts a b → handler.dispatches = false → Texts r.1 r'.1) := by
  cases handler with
  | print | c0Dispatch | topBitSet =>
      obtain rfl := Except.ok.inj h
      exact ⟨_, rfl, hspace, fun htexts _ =>
        ⟨htexts.interm, htexts.param, htexts.input, htexts.inputEnd, htexts.discard⟩⟩
  | escDispatch | csiDispatch | dcsDispatch =>
      obtain rfl := Except.ok.inj h
      exact ⟨_, rfl, hspace, fun _ h => (nomatch h)⟩
  | intermediate =>
      obtain rfl := Except.ok.inj h
      have hlength : b.intermBuf.length = a.intermBuf.length :=
        congrArg List.length (htexts rfl).interm
      refine ⟨_, rfl, ?_, fun htexts _ => ?_⟩
      · dsimp only
        rw [inputIntermediate, inputIntermediate, hlength]
        split_ifs <;> exact hspace
      · dsimp only
        rw [inputIntermediate, inputIntermediate, hlength]
        split_ifs
        · exact ⟨htexts.interm, htexts.param, htexts.input, htexts.inputEnd, rfl⟩
        · exact ⟨by dsimp only; rw [htexts.interm,
            hch], htexts.param, htexts.input, htexts.inputEnd, htexts.discard⟩
  | parameter =>
      obtain rfl := Except.ok.inj h
      have hlength : b.paramBuf.length = a.paramBuf.length :=
        congrArg List.length (htexts rfl).param
      refine ⟨_, rfl, ?_, fun htexts _ => ?_⟩
      · dsimp only
        rw [inputParameter, inputParameter, hlength]
        split_ifs <;> exact hspace
      · dsimp only
        rw [inputParameter, inputParameter, hlength]
        split_ifs
        · exact ⟨htexts.interm, htexts.param, htexts.input, htexts.inputEnd, rfl⟩
        · exact ⟨htexts.interm,
            by dsimp only; rw [htexts.param, hch], htexts.input, htexts.inputEnd, htexts.discard⟩
  | input =>
      obtain ⟨a', hinput, hpure⟩ := bind_eq_ok.mp h
      obtain rfl := Except.ok.inj hpure
      obtain ⟨grown, hgrow, hgrown⟩ := bind_eq_ok.mp hinput
      obtain rfl := Except.ok.inj hgrown
      obtain ⟨b', hgrow', hgrownTexts, hgrownSpace⟩ :=
        growInput_alike (htexts rfl) hspace hsize hgrow
      have hgrownCh : b'.ch = grown.1.ch := by
        rw [(growInput_frame hgrow').ch, (growInput_frame hgrow).ch, hch]
      refine ⟨(if grown.2 then { b' with inputBuf := b'.inputBuf ++ [b'.ch] } else b', 0), ?_, ?_,
        fun _ _ => ?_⟩
      · rw [Handler.run, inputInput, hgrow']
        rfl
      · dsimp only
        split_ifs <;> exact hgrownSpace
      · dsimp only
        split_ifs
        · exact ⟨hgrownTexts.interm, hgrownTexts.param,
            by dsimp only; rw [hgrownTexts.input,
              hgrownCh], hgrownTexts.inputEnd, hgrownTexts.discard⟩
        · exact hgrownTexts
  | endBel =>
      obtain rfl := Except.ok.inj h
      exact ⟨_, rfl, hspace,
        fun htexts _ => ⟨htexts.interm, htexts.param, htexts.input, rfl, htexts.discard⟩⟩

/-! ### States -/

theorem exit_ok (H : Handlers ω) (a : InputCtx ω) :
    ∃ e, a.state.exit H.terminal a = .ok e ∧ Frame a e ∧
    e.inputSpace = a.inputSpace ∧ (a.state.hasExit = false → e = a) := by
  cases hstate : a.state with
  | oscString | apcString | renameString =>
      exact ⟨_, rfl, frame_dispatched a _, rfl, fun h => (nomatch h)⟩
  | _ => exact ⟨a, rfl, ⟨rfl, rfl, rfl, rfl, le_rfl⟩, rfl, fun _ => rfl⟩

/-- What entering a state does. -/
structure Entered (t : InputState) (a a' : InputCtx ω) : Prop where
  state : a'.state = t
  ch : a'.ch = a.ch
  size : a'.inputBufferSize = a.inputBufferSize
  ground : t = InputState.ground → a'.sinceGround = [] ∧
    a'.inputSpace = min a.inputSpace INPUT_BUF_START
  other : t ≠ InputState.ground → a'.sinceGround = a.sinceGround ∧ a'.inputSpace = a.inputSpace

theorem enter_entered (t : InputState) (a : InputCtx ω) :
    Entered t a (t.enter { a with state := t }) := by
  cases t with
  | ground =>
      refine ⟨rfl, rfl, rfl, fun _ => ⟨rfl, ?_⟩, fun h => absurd rfl h⟩
      change (if INPUT_BUF_START < a.inputSpace then INPUT_BUF_START else a.inputSpace) = _
      split_ifs with hlt
      · exact (min_eq_right hlt.le).symm
      · exact (min_eq_left (Nat.not_lt.mp hlt)).symm
  | _ => exact ⟨rfl, rfl, rfl, fun h => (nomatch h), fun _ => ⟨rfl, rfl⟩⟩

/-- The texts are begun anew, or they are those that both had. -/
theorem enter_texts {t : InputState} (ht : t ≠ .ground) (htexts : t.keepsTexts = true → Texts a b) :
    Texts (t.enter { a with state := t }) (t.enter { b with state := t }) := by
  cases t with
  | ground => exact absurd rfl ht
  | escEnter | csiEnter | dcsEnter | oscString | apcString | renameString | consumeSt =>
      exact ⟨rfl, rfl, rfl, rfl, rfl⟩
  | _ =>
      have hkept := htexts rfl
      exact ⟨hkept.interm, hkept.param, hkept.input, hkept.inputEnd, hkept.discard⟩

/-! ### One byte -/

/-- What a byte does to a parser, and to the input that is kept. -/
structure Fed (a a' : InputCtx ω) : Prop where
  size : a'.inputBufferSize = a.inputBufferSize
  space : INPUT_BUF_START ≤ a.inputSpace → INPUT_BUF_START ≤ a'.inputSpace
  kept : a'.state ≠ .ground → a'.sinceGround = a.sinceGround ++ [a.ch]
  ground : a'.state = .ground →
    (a'.sinceGround = [] ∧ (INPUT_BUF_START ≤ a.inputSpace → a'.inputSpace = INPUT_BUF_START)) ∨
    (a.state = .ground ∧ a'.sinceGround = a.sinceGround ∧ a'.inputSpace = a.inputSpace)

/-- The input is saved outside of the ground state. -/
def saved (a : InputCtx ω) : InputCtx ω :=
  if a.state ≠ .ground then { a with sinceGround := a.sinceGround ++ [a.ch] } else a

@[simp] theorem saved_state (a : InputCtx ω) : (saved a).state = a.state := by
  rw [saved]
  split_ifs <;> rfl

@[simp] theorem saved_inputSpace (a : InputCtx ω) : (saved a).inputSpace = a.inputSpace := by
  rw [saved]
  split_ifs <;> rfl

@[simp] theorem saved_inputBufferSize (a : InputCtx ω) :
    (saved a).inputBufferSize = a.inputBufferSize := by
  rw [saved]
  split_ifs <;> rfl

theorem saved_of_ground (h : a.state = .ground) : saved a = a := if_neg (not_not.mpr h)

theorem saved_sinceGround (h : a.state ≠ .ground) :
    (saved a).sinceGround = a.sinceGround ++ [a.ch] := by
  rw [saved, if_pos h]

theorem Texts.saved (h : Texts a b) : Texts (Input.saved a) (Input.saved b) := by
  rw [Input.saved, Input.saved]
  split_ifs <;> exact ⟨h.interm, h.param, h.input, h.inputEnd, h.discard⟩

theorem switchState_none {itr : InputTransition} (H : Handlers ω) (h : itr.state = none)
    (a : InputCtx ω) :
    switchState H.terminal itr a = .ok (saved a) := by
  rw [switchState, h]
  rfl

theorem switchState_some {itr : InputTransition} {t : InputState} (H : Handlers ω)
    (h : itr.state = some t)
    (a : InputCtx ω) :
    ∃ e, Frame a e ∧ e.inputSpace = a.inputSpace ∧ (a.state.hasExit = false → e = a) ∧
      switchState H.terminal itr a = .ok (saved (t.enter { e with state := t })) := by
  obtain ⟨e, hexit, hframe, hspace, hkept⟩ := exit_ok H a
  refine ⟨e, hframe, hspace, hkept, ?_⟩
  rw [switchState, h]
  dsimp only
  rw [inputSetState, hexit]
  rfl

theorem switchState_fed {itr : InputTransition} (h : switchState H.terminal itr a = .ok a') :
    Fed a a' := by
  cases hstate : itr.state with
  | none =>
      rw [switchState_none H hstate] at h
      obtain rfl := Except.ok.inj h
      refine ⟨saved_inputBufferSize a, fun hle => hle.trans (saved_inputSpace a).ge, fun hne => ?_,
        fun hground => ?_⟩
      · rw [saved_state] at hne
        exact saved_sinceGround hne
      · rw [saved_state] at hground
        rw [saved_of_ground hground]
        exact .inr ⟨hground, rfl, rfl⟩
  | some t =>
      obtain ⟨e, hframe, hspace, -, hswitch⟩ := switchState_some H hstate a
      rw [hswitch] at h
      obtain rfl := Except.ok.inj h
      have hentered := enter_entered t e
      generalize t.enter { e with state := t } = y at hentered ⊢
      refine ⟨?_, fun hle => ?_, fun hne => ?_, fun hground => ?_⟩
      · rw [saved_inputBufferSize, hentered.size, hframe.size]
      · rw [saved_inputSpace]
        by_cases ht : t = .ground
        · rw [(hentered.ground ht).2, hspace]
          exact le_min hle le_rfl
        · rw [(hentered.other ht).2, hspace]
          exact hle
      · rw [saved_state] at hne
        rw [saved_sinceGround hne, (hentered.other (hentered.state ▸ hne)).1, hframe.sinceGround,
          hentered.ch, hframe.ch]
      · rw [saved_state] at hground
        rw [saved_of_ground hground]
        obtain ⟨hempty, hstart⟩ := hentered.ground (hentered.state ▸ hground)
        refine .inl ⟨hempty, fun hle => ?_⟩
        rw [hstart, hspace, min_eq_right hle]

/-- A state that begins with texts begins with the same ones. -/
theorem switchState_alike {itr : InputTransition} (hstate : b.state = a.state)
    (hspace : b.inputSpace = a.inputSpace)
    (hsize : b.inputBufferSize = a.inputBufferSize)
    (htexts : itr.state = none ∨ itr.state.any InputState.keepsTexts = true → a.state ≠ .ground →
      Texts a b)
    (hexit : itr.state.any InputState.keepsTexts = true → a.state ≠ .ground ∧
      a.state.hasExit = false)
    (h : switchState H.terminal itr a = .ok a') :
    ∃ b', switchState H.terminal itr b = .ok b' ∧ Alike a' b' := by
  cases hto : itr.state with
  | none =>
      rw [switchState_none H hto] at h
      obtain rfl := Except.ok.inj h
      refine ⟨_, switchState_none H hto b, ?_, ?_, ?_, fun hne => (htexts (.inl hto) ?_).saved⟩
      · rw [saved_state, saved_state, hstate]
      · rw [saved_inputSpace, saved_inputSpace, hspace]
      · rw [saved_inputBufferSize, saved_inputBufferSize, hsize]
      · rwa [saved_state] at hne
  | some t =>
      obtain ⟨e, hframe, hsame, hkept, hswitch⟩ := switchState_some H hto a
      obtain ⟨e', hframe', hsame', hkept', hswitch'⟩ := switchState_some H hto b
      rw [hswitch] at h
      obtain rfl := Except.ok.inj h
      have hentered := enter_entered t e
      have hentered' := enter_entered t e'
      refine ⟨_, hswitch', ?_, ?_, ?_, fun hne => ?_⟩
      · rw [saved_state, saved_state, hentered.state, hentered'.state]
      · rw [saved_inputSpace, saved_inputSpace]
        by_cases ht : t = .ground
        · rw [(hentered.ground ht).2, (hentered'.ground ht).2, hsame, hsame', hspace]
        · rw [(hentered.other ht).2, (hentered'.other ht).2, hsame, hsame', hspace]
      · rw [saved_inputBufferSize, saved_inputBufferSize, hentered.size, hentered'.size,
          hframe.size, hframe'.size, hsize]
      · rw [saved_state, hentered.state] at hne
        refine (enter_texts hne fun hkeeps => ?_).saved
        have hany : itr.state.any InputState.keepsTexts = true := by rw [hto]; exact hkeeps
        obtain ⟨hne', hno⟩ := hexit hany
        rw [hkept hno, hkept' (by rw [hstate]; exact hno)]
        exact htexts (.inr hany) hne'

theorem stopCollection_ok (H : Handlers ω) (itr : InputTransition) (a : InputCtx ω) :
    ∃ rest, stopCollection H.terminal itr a = .ok { a with rest := rest } := by
  rw [stopCollection]
  split_ifs
  · exact ⟨a.rest, rfl⟩
  · exact ⟨H.collectEnd a, rfl⟩

/-- Following a transition is running its handler and switching the state. -/
theorem follow_switch {itr : InputTransition} {r : InputCtx ω × List (Call ω)}
    (h : follow H.terminal itr a = .ok r) :
    ∃ c m, stopCollection H.terminal itr a = .ok c ∧ Frame a m ∧
      (itr.handler.any Handler.collects = false → m.inputSpace = a.inputSpace) ∧
      (itr.handler = none → m = c) ∧
      (∀ handler, itr.handler = some handler → handler.run H.terminal c = .ok (m, 0)) ∧
      switchState H.terminal itr m = .ok r.1 := by
  obtain ⟨rest, hstop⟩ := stopCollection_ok H itr a
  rw [follow, hstop, ok_bind] at h
  refine ⟨{ a with rest := rest }, ?_⟩
  cases hhandler : itr.handler with
  | none =>
      rw [hhandler] at h
      obtain ⟨x, hswitch, hpure⟩ := bind_eq_ok.mp h
      obtain rfl := Except.ok.inj hpure
      exact ⟨{ a with rest := rest }, hstop, ⟨rfl, rfl, rfl, rfl, le_rfl⟩, fun _ => rfl,
        fun _ => rfl, fun _ h => (nomatch h), hswitch⟩
  | some handler =>
      rw [hhandler] at h
      obtain ⟨m, hrun, hrest⟩ := bind_eq_ok.mp h
      obtain ⟨hframe, hzero, hspace⟩ := run_frame hrun
      rw [if_neg (not_not.mpr hzero)] at hrest
      obtain ⟨x, hswitch, hpure⟩ := bind_eq_ok.mp hrest
      obtain rfl := Except.ok.inj hpure
      refine ⟨m.1, hstop, ⟨hframe.state, hframe.ch, hframe.sinceGround, hframe.size, hframe.space⟩,
        hspace, fun h => (nomatch h), fun handler' hsome => ?_, hswitch⟩
      obtain rfl := Option.some.inj hsome
      rw [hrun, ← hzero]

theorem follow_fed {itr : InputTransition} {r : InputCtx ω × List (Call ω)}
    (hitr : itr ∈ a.state.transitions)
    (h : follow H.terminal itr a = .ok r) : Fed a r.1 := by
  obtain ⟨c, m, -, hframe, hspace, -, -, hswitch⟩ := follow_switch h
  have hfed := switchState_fed hswitch
  obtain ⟨-, hcollects, -⟩ := transitions_table a.state itr hitr
  refine ⟨hfed.size.trans hframe.size, fun hle => hfed.space (hle.trans hframe.space),
    fun hne => ?_, fun hground => ?_⟩
  · rw [hfed.kept hne, hframe.sinceGround, hframe.ch]
  · rcases hfed.ground hground with ⟨hempty, hstart⟩ | ⟨hstate, hsince, hsame⟩
    · exact .inl ⟨hempty, fun hle => hstart (hle.trans hframe.space)⟩
    · rw [hframe.state] at hstate
      refine .inr ⟨hstate, hsince.trans hframe.sinceGround, hsame.trans (hspace ?_)⟩
      by_contra hcollect
      exact hcollects (by simpa using hcollect) hstate

theorem follow_alike {itr : InputTransition} {r : InputCtx ω × List (Call ω)}
    (hitr : itr ∈ a.state.transitions)
    (hab : Alike a b) (hch : b.ch = a.ch) (h : follow H.terminal itr a = .ok r) :
    ∃ r', follow H.terminal itr b = .ok r' ∧ Alike r.1 r'.1 := by
  obtain ⟨hdispatches, hcollects, hkeeps⟩ := transitions_table a.state itr hitr
  obtain ⟨c, m, hstop, hframe, -, hnone, hsome, hswitch⟩ := follow_switch h
  obtain ⟨rest, hstop₁⟩ := stopCollection_ok H itr a
  obtain ⟨rest', hstop'⟩ := stopCollection_ok H itr b
  obtain rfl := Except.ok.inj (hstop₁.symm.trans hstop)
  have hspace : b.inputSpace = a.inputSpace := hab.space
  have hexit : itr.state.any InputState.keepsTexts = true → m.state ≠ .ground ∧
      m.state.hasExit = false := by
    rw [hframe.state]
    exact hkeeps
  have htexts (hne : a.state ≠ .ground) : Texts { a with rest := rest } { b with
    rest := rest' } := by
    have hbefore := hab.texts hne
    exact ⟨hbefore.interm, hbefore.param, hbefore.input, hbefore.inputEnd, hbefore.discard⟩
  cases hhandler : itr.handler with
  | none =>
      obtain rfl := hnone hhandler
      obtain ⟨b', hswitch', hafter⟩ := switchState_alike (a := { a with rest := rest })
        (b := { b with rest := rest' }) hab.state hab.space hab.size (fun _ => htexts) hexit hswitch
      refine ⟨(b', []), ?_, hafter⟩
      rw [follow, hstop', ok_bind, hhandler]
      dsimp only
      rw [hswitch']
      rfl
  | some handler =>
      rw [hhandler] at hdispatches hcollects
      have hrun := hsome handler hhandler
      obtain ⟨⟨m', n⟩, hrun', hspace', htexts'⟩ := run_alike (a := { a with rest := rest })
        (b := { b with rest := rest' }) hab.space hab.size hch
        (fun hcollect => htexts (hcollects hcollect)) hrun
      obtain ⟨hframe', hzero, -⟩ := run_frame hrun'
      have hsize : m'.inputBufferSize = m.inputBufferSize := by
        rw [hframe'.size, hframe.size]
        exact hab.size
      have hstate : m'.state = m.state := by
        rw [hframe'.state, hframe.state]
        exact hab.state
      have hran (hbegins : itr.state = none ∨ itr.state.any InputState.keepsTexts = true)
          (hne : m.state ≠ .ground) : Texts m m' := by
        rw [hframe.state] at hne
        refine htexts' (htexts hne) ?_
        by_contra hdispatch
        have hto := hdispatches (by simpa using hdispatch)
        rw [hto] at hbegins
        rcases hbegins with hbegins | hbegins <;> cases hbegins
      obtain ⟨b', hswitch', hafter⟩ := switchState_alike hstate hspace' hsize hran hexit hswitch
      refine ⟨(b', [⟨handler, { b with rest := rest' }⟩]), ?_, hafter⟩
      rw [follow, hstop', ok_bind, hhandler]
      dsimp only at hzero ⊢
      rw [hrun', ok_bind, if_neg (not_not.mpr hzero)]
      dsimp only
      rw [hswitch']
      rfl

/-! ### Runs -/

/-- What holds of the parsers of a run: the input that was kept brings a new parser to one that is
alike. -/
structure Sound (H : Handlers ω) (inputBufferSize : Nat) (a : InputCtx ω) : Prop where
  space : INPUT_BUF_START ≤ a.inputSpace
  size : a.inputBufferSize = inputBufferSize
  ground : a.state = .ground → a.sinceGround = [] ∧ a.inputSpace = INPUT_BUF_START
  replay : ∀ rest, ∃ fresh calls,
    parseFresh H.terminal (inputInit H inputBufferSize rest) a.sinceGround = .ok (fresh, calls) ∧
    Alike a fresh

/-- In the ground state there is nothing to replay. -/
theorem sound_of_ground (hground : a.state = .ground) (hsince : a.sinceGround = [])
    (hspace : a.inputSpace = INPUT_BUF_START) (hsize : a.inputBufferSize = inputBufferSize) :
    Sound H inputBufferSize a := by
  refine ⟨hspace.ge, hsize, fun _ => ⟨hsince, hspace⟩,
    fun rest => ⟨inputInit H inputBufferSize rest, [], ?_, ?_⟩⟩
  · rw [hsince]
    rfl
  · exact ⟨hground.symm, hspace.symm, hsize.symm, fun hne => absurd hground hne⟩

theorem parseFresh_singleton {itr : InputTransition} {ch : UInt8} {r : InputCtx ω × List (Call ω)}
    (hfind : a.state.find ch = some itr)
    (hfollow : follow H.terminal itr { a with ch := ch } = .ok r) :
    parseFresh H.terminal a [ch] = .ok (r.1, r.2 ++ []) := by
  rw [parseFresh]
  dsimp only
  rw [hfind]
  dsimp only
  rw [hfollow]
  rfl

theorem Sound.follow {itr : InputTransition} {ch : UInt8} {r : InputCtx ω × List (Call ω)}
    (h : Sound H inputBufferSize a) (hfind : a.state.find ch = some itr)
    (hfollow : follow H.terminal itr { a with ch := ch } = .ok r) :
    Sound H inputBufferSize r.1 := by
  have hitr : itr ∈ a.state.transitions := List.mem_of_find?_eq_some hfind
  have hfed := follow_fed (a := { a with ch := ch }) hitr hfollow
  have hsize : r.1.inputBufferSize = inputBufferSize := hfed.size.trans h.size
  by_cases hground : r.1.state = .ground
  · rcases hfed.ground hground with ⟨hsince, hspace⟩ | ⟨hstate, hsince, hspace⟩
    · exact sound_of_ground hground hsince (hspace h.space) hsize
    · obtain ⟨hempty, hstart⟩ := h.ground hstate
      exact sound_of_ground hground (hsince.trans hempty) (hspace.trans hstart) hsize
  · refine ⟨hfed.space h.space, hsize, fun h => absurd h hground, fun rest => ?_⟩
    obtain ⟨fresh, calls, hreplay, halike⟩ := h.replay rest
    have hread : Alike { a with ch := ch } { fresh with ch := ch } := by
      refine ⟨halike.state, halike.space, halike.size, fun hne => ?_⟩
      have htexts := halike.texts hne
      exact ⟨htexts.interm, htexts.param, htexts.input, htexts.inputEnd, htexts.discard⟩
    obtain ⟨r', hfollow', halike'⟩ := follow_alike (a := { a with ch := ch }) hitr hread rfl hfollow
    have hfind' : fresh.state.find ch = some itr := by
      rw [halike.state]
      exact hfind
    refine ⟨r'.1, calls ++ (r'.2 ++ []), ?_, halike'⟩
    rw [hfed.kept hground, parseFresh_append, hreplay, ok_bind,
      parseFresh_singleton hfind' hfollow']
    rfl

theorem Sound.parse {buf : List UInt8} {r : InputCtx ω × List (Call ω)}
    (h : Sound H inputBufferSize a)
    (hparse : parseFresh H.terminal a buf = .ok r) : Sound H inputBufferSize r.1 := by
  induction buf generalizing a r with
  | nil =>
      obtain rfl := Except.ok.inj hparse
      exact h
  | cons ch buf ih =>
      rw [parseFresh] at hparse
      dsimp only at hparse
      cases hfind : a.state.find ch with
      | none =>
          rw [hfind] at hparse
          cases hparse
      | some itr =>
          rw [hfind] at hparse
          obtain ⟨r₁, hfollow, hrest⟩ := bind_eq_ok.mp hparse
          obtain ⟨r₂, hparse₂, hpure⟩ := bind_eq_ok.mp hrest
          obtain rfl := Except.ok.inj hpure
          exact ih (r := r₂) (h.follow hfind hfollow) hparse₂

theorem sound_init (H : Handlers ω) (inputBufferSize : Nat) (rest : ω) :
    Sound H inputBufferSize (inputInit H inputBufferSize rest) := sound_of_ground rfl rfl rfl rfl

theorem Sound.reset (h : Sound H inputBufferSize a) (hground : a.state = .ground) (clear : Bool) :
    Sound H inputBufferSize (inputReset H a clear) := by
  obtain ⟨hsince, hspace⟩ := h.ground hground
  exact sound_of_ground rfl hsince hspace h.size

theorem Sound.step {op : Op} (h : Sound H inputBufferSize a) (hmeets : Meets a op)
    (hstep : step H a op = .ok a') :
    Sound H inputBufferSize a' := by
  cases op with
  | parse buf =>
      obtain ⟨r, hparse, hpure⟩ := bind_eq_ok.mp hstep
      obtain rfl := Except.ok.inj hpure
      have hfresh := (inputParse_chunks H.terminal a [buf]).2
      rw [List.flatten_singleton] at hfresh
      exact h.parse (hfresh.symm.trans hparse)
  | reset clear =>
      obtain rfl := Except.ok.inj hstep
      exact h.reset (hmeets.reset clear rfl) clear
  | expire =>
      obtain rfl := Except.ok.inj hstep
      split_ifs with htimer
      · exact h.reset (hmeets.expire rfl htimer) false
      · exact h

/-- In a run that resets the parser in the ground state only, the input that is kept is that since
the ground state: there is none in it, and elsewhere it brings a new parser to the same state and
texts. -/
theorem Reached.faithful (h : Reached H inputBufferSize rest a) : Faithful H inputBufferSize a := by
  have hsound : Sound H inputBufferSize a := by
    induction h with
    | init => exact sound_init H inputBufferSize rest
    | step _ hmeets hstep ih => exact ih.step hmeets hstep
  refine ⟨fun hground => (hsound.ground hground).1, fun hne rest => ?_⟩
  obtain ⟨fresh, calls, hreplay, halike⟩ := hsound.replay rest
  have hfresh := (inputParse_chunks H.terminal (inputInit H inputBufferSize rest) [a.sinceGround]).2
  rw [List.flatten_singleton] at hfresh
  exact ⟨fresh, calls, hfresh.trans hreplay, halike.state, halike.texts hne⟩

/-! ### A reset in a string -/

/-- Handlers that do nothing to the terminal. -/
def quiet : Handlers Unit where
  collectEnd _ := ()
  print _ := ⟨(), true⟩
  c0Dispatch _ := ⟨(), false⟩
  topBitSet _ := ⟨(), false⟩
  escDispatch ictx := ⟨(), false, ictx.paramBuf, ictx.inputBuf⟩
  csiDispatch ictx := ⟨(), false, ictx.paramBuf, ictx.inputBuf⟩
  dcsDispatch ictx := ⟨(), false, ictx.paramBuf, ictx.inputBuf⟩
  exitOsc ictx := ⟨(), false, ictx.paramBuf, ictx.inputBuf⟩
  exitApc ictx := ⟨(), false, ictx.paramBuf, ictx.inputBuf⟩
  exitRename ictx := ⟨(), false, ictx.paramBuf, ictx.inputBuf⟩
  reset _ _ := ()

/-- A parser that waits for the end of a string. -/
def inString : InputCtx Unit :=
  ⟨[], [], [], INPUT_BUF_START, .st, false, false, 0x5d, .oscString, [0x1b, 0x5d], true, 1048576,
    ()⟩

theorem parse_inString : step quiet (inputInit quiet 1048576 ()) (.parse [0x1b, 0x5d]) =
    .ok inString := rfl

theorem faithful_inString : Faithful quiet 1048576 inString := by
  have hmeets : Meets (inputInit quiet 1048576 ()) (.parse [0x1b, 0x5d]) :=
    ⟨fun _ h => (nomatch h), fun h => (nomatch h)⟩
  exact Reached.faithful (.step .init hmeets parse_inString)

/-- When the string has been waited for too long, what began it is kept in the ground state. -/
theorem not_faithful_expired : step quiet (inputInit quiet 1048576 ()) (.parse [0x1b, 0x5d]) =
    .ok inString ∧
    ∃ ictx, step quiet inString .expire = .ok ictx ∧ ¬ Faithful quiet 1048576 ictx :=
  ⟨parse_inString, inputReset quiet inString false, rfl, fun h => (nomatch h.ground rfl)⟩

end

end Ztmux.Input
