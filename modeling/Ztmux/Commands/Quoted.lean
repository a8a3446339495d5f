import Ztmux.Commands.Stream

/-!
Reading a token.

The rest of a token is read a character or an escape at a time. What it becomes depends on the
characters ahead, on the quotes and on what was read, and not on where the characters come from:
that is left to a relation between places and the characters that are ahead of them.
-/

namespace Ztmux.Commands

/-! ### Places -/

/-- Reading a character and putting it back lead from a place to another one. -/
structure Follows (P : ParseState → List UInt8 → Prop) : Prop where
  same : ∀ ps ps' chars, ps'.source = ps.source → ps'.escapes = ps.escapes → P ps chars →
    P ps' chars
  nil : ∀ ps, P ps [] → ∃ ps', yylexGetc ps = (none, ps') ∧ P (yylexUngetc ps' none) []
  cons : ∀ ps c chars, P ps (c :: chars) → ∃ ps', yylexGetc ps = (some c, ps') ∧ P ps' chars ∧
    (c ≠ '\\'.toUInt8 → P (yylexUngetc ps' (some c)) (c :: chars))

theorem ahead_follows : Follows Ahead where
  same ps ps' chars hsource hescapes h :=
    ⟨hsource ▸ h.settled, by rw [hsource, hescapes]; exact h.chars⟩
  nil ps h := by
    obtain ⟨ps', hgetc, -, hback⟩ := yylexGetc_nil h
    exact ⟨ps', hgetc, hback⟩
  cons ps c chars h := by
    obtain ⟨ps', hgetc, hahead, -, hback⟩ := yylexGetc_cons h
    exact ⟨ps', hgetc, hahead, fun hne => (hback hne).2⟩

/-- Lines are only joined where there are lines. -/
theorem joined_of_notMem {chars : List UInt8} (h : '\n'.toUInt8 ∉ chars) (escapes : Nat) :
    joined escapes chars = List.replicate escapes '\\'.toUInt8 ++ chars := by
  induction chars generalizing escapes with
  | nil => exact (List.append_nil _).symm
  | cons c chars ih =>
      rw [List.mem_cons, not_or] at h
      have hline : ¬ (c = '\n'.toUInt8 ∧ escapes % 2 = 1) := fun hline => h.1 hline.1.symm
      rw [joined]
      split_ifs with hslash
      · rw [ih h.2, hslash, List.replicate_succ', List.append_assoc]
        rfl
      · rw [ih h.2]
        rfl

theorem ahead_of_notMem {ps : ParseState} (hsettled : ps.source.Settled) (hescapes : ps.escapes = 0)
    (h : '\n'.toUInt8 ∉ ps.source.rest) : Ahead ps ps.source.rest :=
  ⟨hsettled, by rw [hescapes, joined_of_notMem h]; rfl⟩

/-! ### The rest of a token -/

/-- What the loop of `yylex_token` returns from the next character on. -/
def restToken (w : World) (fuel : Nat) (t : Loop) : Exec Part :=
  tokenLoop w fuel { t with ch := (yylexGetc t.ps).1, ps := (yylexGetc t.ps).2 }

/-- With these characters ahead, the rest of the token is read, and it is `out` as a whole. -/
def Lexes (P : ParseState → List UInt8 → Prop) (w : World) (state last : State)
    (buf chars out rest : List UInt8) : Prop :=
  ∀ ps ch, P ps chars → ∃ ps', P ps' rest ∧
    Returns (fun fuel => restToken w fuel ⟨ps, ch, state, last, buf⟩) (ps', some out)

variable {P : ParseState → List UInt8 → Prop} {w : World} {state last : State}
  {c : UInt8} {buf chars out rest : List UInt8}

/-- A turn of the loop, which reads more than the character at hand. -/
theorem Lexes.turn {state' last' : State} {buf' chars' : List UInt8} (hP : Follows P)
    (h : Lexes P w state' last' buf' chars' out rest)
    (hturn : ∀ ps, P ps chars → ∃ ps' ch, P ps' chars' ∧
      Returns (fun fuel => tokenTurn w fuel ⟨ps, some c, state, last, buf⟩)
        (.next ⟨ps', ch, state', last', buf'⟩)) :
    Lexes P w state last buf (c :: chars) out rest := by
  intro ps ch hps
  obtain ⟨ps₁, hgetc, hps₁, -⟩ := hP.cons ps c chars hps
  obtain ⟨ps₂, ch₂, hps₂, hnext⟩ := hturn ps₁ hps₁
  obtain ⟨ps', hps', hrest⟩ := h ps₂ ch₂ hps₂
  refine ⟨ps', hps', Returns.of_succ ?_⟩
  simp only [restToken, hgetc]
  exact hnext.bind hrest

/-- A character that is added to the token as it is. -/
structure Plain (state last : State) (c : UInt8) : Prop where
  newline : c ≠ '\n'.toUInt8
  none : state = .none → c ∉ bytes [' ', '\t', ';', '}', '\r', '"', '\'']
  doubleQuotes : state = .doubleQuotes → c ≠ '"'.toUInt8
  singleQuotes : state = .singleQuotes → c ≠ '\''.toUInt8
  expanded : state ≠ .singleQuotes → c ≠ '\\'.toUInt8 ∧ c ≠ '$'.toUInt8 ∧
    (c = '~'.toUInt8 → last = state)

theorem tokenTurn_plain (hc : Plain state last c) (fuel : Nat) (ps : ParseState) :
    tokenTurn w fuel ⟨ps, some c, state, last, buf⟩ =
      .ok (.next ⟨ps, some c, state, state, buf ++ [c]⟩) := by
  obtain ⟨hnewline, hnone, hdouble, hsingle, hexpanded⟩ := hc
  simp only [bytes, List.map_cons, List.map_nil, List.mem_cons, List.not_mem_nil, or_false,
    not_or] at hnone
  rw [tokenTurn]
  dsimp only
  rw [if_neg (fun h => (hnone h.1).2.2.2.2.1 h.2), tokenChar]
  dsimp only
  rw [if_neg, if_neg (fun h => hnewline h.1), if_neg (fun h => (hexpanded h.2).1 h.1),
    if_neg (fun h => h.2.1 ((hexpanded h.2.2).2.2 h.1)), if_neg (fun h => (hexpanded h.2).2.1 h.1),
    if_neg (fun h => (hnone h.2).2.2.2.2.2.2 h.1), if_neg (fun h => hsingle h.2 h.1),
    if_neg (fun h => (hnone h.2).2.2.2.2.2.1 h.1), if_neg (fun h => hdouble h.2 h.1)]
  · rfl
  · rintro ⟨hstate, heq | heq | heq | heq | heq⟩
    · exact hnewline heq
    · exact (hnone hstate).1 heq
    · exact (hnone hstate).2.1 heq
    · exact (hnone hstate).2.2.1 heq
    · exact (hnone hstate).2.2.2.1 heq

theorem Lexes.plain (hP : Follows P) (hc : Plain state last c)
    (h : Lexes P w state state (buf ++ [c]) chars out rest) :
    Lexes P w state last buf (c :: chars) out rest :=
  h.turn hP fun ps hps => ⟨ps, some c, hps, ⟨0, fun fuel _ => tokenTurn_plain hc fuel ps⟩⟩

/-! ### Escapes -/

theorem tokenTurn_slash (hstate : state ≠ .singleQuotes) (fuel : Nat) (ps : ParseState) :
    tokenTurn w fuel ⟨ps, some '\\'.toUInt8, state, last, buf⟩ =
      .ok (addPart ⟨ps, some '\\'.toUInt8, state, last, buf⟩ (yylexTokenEscape w ps)) := by
  rw [tokenTurn]
  dsimp only
  rw [if_neg (fun h => absurd h.2 (by decide)), tokenChar, if_neg (fun h => absurd h.2 (by decide)),
    if_neg (fun h => absurd h.1 (by decide)), if_pos ⟨rfl, hstate⟩]
  rfl

/-- The letter of an escape without a number. -/
def IsLetter (c : UInt8) : Prop := ¬ isOctal c ∧ c ≠ 'u'.toUInt8 ∧ c ≠ 'U'.toUInt8

instance (c : UInt8) : Decidable (IsLetter c) := inferInstanceAs (Decidable (_ ∧ _))

theorem yylexTokenEscape_letter {ps ps' : ParseState} (hgetc : yylexGetc ps = (some c, ps'))
    (hc : IsLetter c) :
    yylexTokenEscape w ps = (ps', some [escapedChar c]) := by
  obtain ⟨hoctal, hu, hU⟩ := hc
  simp only [isOctal, Bool.and_eq_true, decide_eq_true_eq, UInt8.le_iff_toNat_le, not_and] at hoctal
  rw [yylexTokenEscape, hgetc]
  dsimp only
  rw [if_neg, if_neg, if_neg hu, if_neg hU]
  all_goals
    simp only [UInt8.le_iff_toNat_le, not_and]
    change 48 ≤ c.toNat → ¬ c.toNat ≤ 55 at hoctal
  · change 48 ≤ c.toNat → ¬ c.toNat ≤ 51
    omega
  · change 52 ≤ c.toNat → ¬ c.toNat ≤ 55
    omega

theorem Lexes.letter (hP : Follows P) (hstate : state ≠ .singleQuotes) (hc : IsLetter c)
    (h : Lexes P w state state (buf ++ [escapedChar c]) chars out rest) :
    Lexes P w state last buf ('\\'.toUInt8 :: c :: chars) out rest := by
  refine h.turn hP fun ps hps => ?_
  obtain ⟨ps', hgetc, hps', -⟩ := hP.cons ps c chars hps
  refine ⟨ps', some '\\'.toUInt8, hps', ⟨0, fun fuel _ => ?_⟩⟩
  dsimp only
  rw [tokenTurn_slash hstate, yylexTokenEscape_letter hgetc hc]
  rfl

/-! ### Quotes -/

/-- A quote starts or ends quotes. -/
inductive Quote : UInt8 → State → State → Prop
  | startDouble : Quote '"'.toUInt8 .none .doubleQuotes
  | endDouble : Quote '"'.toUInt8 .doubleQuotes .none
  | startSingle : Quote '\''.toUInt8 .none .singleQuotes
  | endSingle : Quote '\''.toUInt8 .singleQuotes .none

theorem tokenTurn_quote {state' : State} (hc : Quote c state state') (fuel : Nat)
    (ps : ParseState) :
    tokenTurn w fuel ⟨ps, some c, state, last, buf⟩ =
      .ok (.next ⟨ps, some c, state', last, buf⟩) := by
  cases hc <;> rfl

theorem Lexes.quote {state' : State} (hP : Follows P) (hc : Quote c state state')
    (h : Lexes P w state' last buf chars out rest) :
    Lexes P w state last buf (c :: chars) out rest :=
  h.turn hP fun ps hps => ⟨ps, some c, hps, ⟨0, fun fuel _ => tokenTurn_quote hc fuel ps⟩⟩

/-! ### The end -/

theorem Lexes.eof (hP : Follows P) : Lexes P w state last buf [] buf [] := by
  intro ps ch hps
  obtain ⟨ps', hgetc, hback⟩ := hP.nil ps hps
  refine ⟨_, hback, Returns.of_succ ⟨0, fun fuel _ => ?_⟩⟩
  simp only [restToken, hgetc]
  rfl

/-! ### The lexer -/

/-- The characters that do not begin a token, or are not part of it. -/
def notToken : List UInt8 := bytes [' ', '\t', '\n', ';', '{', '}', '#', '%', '\r']

/-- What is returned for a token. -/
def tokenResult (part : Part) : ParseState × Option Tok :=
  (part.1, some (part.2.elim .error fun s => tokenTok (cString s)))

/-- A character that begins a token is left to `yylex_token`. -/
theorem yylex_eq {ps : ParseState} (w : World) (hP : Follows P) (hc : c ∉ notToken)
    (hps : P ps (c :: chars)) :
    ∃ ps₀ ps₁, P ps₀ (c :: chars) ∧ yylexGetc ps₀ = (some c, ps₁) ∧ P ps₁ chars ∧
      ∀ fuel, yylex w (fuel + 1) ps =
        (do pure (tokenResult (← yylexToken w fuel ps₁ (some c)))) := by
  simp only [notToken, bytes, List.map_cons, List.map_nil, List.mem_cons, List.not_mem_nil,
    or_false, not_or] at hc
  obtain ⟨hspace, htab, hnewline, hsemicolon, hleft, hright, hhash, hpercent, hreturn⟩ := hc
  have hps₀ : P { ps with
      line := if ps.eol then ps.line + 1 else ps.line
      eol := false
      condition := false } (c :: chars) := hP.same ps _ _ rfl rfl hps
  obtain ⟨ps₁, hgetc, hps₁, -⟩ := hP.cons _ c chars hps₀
  refine ⟨_, ps₁, hps₀, hgetc, hps₁, fun fuel => ?_⟩
  rw [yylex]
  dsimp only
  rw [yylexLoop]
  dsimp only
  rw [hgetc]
  simp only [Option.some.injEq, hspace, htab, hnewline, hsemicolon, hleft, hright, hhash, hpercent,
    hreturn, if_false, or_self]
  cases yylexToken w fuel ps₁ (some c) with
  | error fault => rfl
  | ok part =>
      obtain ⟨ps', _ | s⟩ := part
      · rfl
      · rfl

theorem yylex_token {ps : ParseState} (hP : Follows P) (hc : c ∉ notToken)
    (h : Lexes P w .none .start [] (c :: chars) out rest) (hps : P ps (c :: chars)) :
    ∃ ps', P ps' rest ∧
    Returns (fun fuel => yylex w fuel ps) (ps', some (tokenTok (cString out))) := by
  obtain ⟨ps₀, ps₁, hps₀, hgetc, -, hyylex⟩ := yylex_eq w hP hc hps
  obtain ⟨ps', hps', n, hn⟩ := h ps₀ none hps₀
  refine ⟨ps', hps', Returns.of_succ ⟨n, fun fuel hfuel => ?_⟩⟩
  have htoken : yylexToken w fuel ps₁ (some c) = .ok (ps', some out) := by
    have hrest := hn fuel hfuel
    simp only [restToken, hgetc] at hrest
    exact hrest
  dsimp only
  rw [hyylex, htoken]
  rfl

end Ztmux.Commands
