import Ztmux.Commands.Template

/-!
Placeholders between double quotes.

What is escaped for a placeholder is read back as it was. A text of more bytes than characters is
not: the lexer adds at most one byte for each character of the text, whatever comments it skips.
-/

namespace Ztmux.Commands

/-! ### Between double quotes -/

theorem quote_letter {c : UInt8} (h : c ∈ quote) : IsLetter c ∧ escapedChar c = c := by
  have hall : ∀ q ∈ quote, IsLetter q ∧ escapedChar q = q := by decide +kernel
  exact hall c h

theorem plain_of_notMem_quote {c : UInt8} (hline : c ≠ '\n'.toUInt8) (h : c ∉ quote)
    (last : State) :
    Plain .doubleQuotes last c := by
  simp only [quote, bytes, List.map_cons, List.map_nil, List.mem_cons, List.not_mem_nil, or_false,
    not_or] at h
  obtain ⟨hdouble, hslash, hdollar, -, htilde⟩ := h
  exact ⟨hline, fun h => (by cases h), fun _ => hdouble, fun h => (by cases h),
    fun _ => ⟨hslash, hdollar, fun heq => absurd heq htilde⟩⟩

theorem lexes_escaped {P : ParseState → List UInt8 → Prop} {w : World}
    {text chars out rest : List UInt8}
    (hP : Follows P) (htext : '\n'.toUInt8 ∉ text) {last : State} {buf : List UInt8}
    (h : ∀ last, Lexes P w .doubleQuotes last (buf ++ text) chars out rest) :
    Lexes P w .doubleQuotes last buf (escaped text ++ chars) out rest := by
  induction text generalizing last buf with
  | nil =>
      rw [List.append_nil] at h
      exact h last
  | cons c text ih =>
      rw [List.mem_cons, not_or] at htext
      have hnext := @ih htext.2 .doubleQuotes (buf ++ [c]) fun last => by
        rw [List.append_assoc]
        exact h last
      rw [escaped, List.flatMap_cons]
      split_ifs with hquote
      · refine Lexes.letter hP (fun h => by cases h) (quote_letter hquote).1 ?_
        rw [(quote_letter hquote).2]
        exact hnext
      · exact Lexes.plain hP (plain_of_notMem_quote (Ne.symm htext.1) hquote last) hnext

/-- The text between double quotes, in the place of a quoted placeholder. -/
def quotedTemplate : List UInt8 := bytes ['"', '%', '%', '%', '"']

/-- One token is read, which is the text. -/
def Safe (s : Option String) (idx : Int) : Prop :=
  ∀ (w : World) (ps : ParseState), ps.source.Settled → ps.escapes = 0 →
    ps.source.rest = cmdTemplateReplace quotedTemplate s idx →
    ∃ ps', Returns (fun fuel => yylex w fuel ps) (ps', some (tokenTok (utf8Bytes (s.getD "")))) ∧
    Ahead ps' []

theorem quotedTemplate_pieces (idx : Int) : pieces idx true quotedTemplate =
    [.byte '"'.toUInt8, .placeholder true, .byte '"'.toUInt8] := by
  have hpercent : ¬ IsIndex idx '%'.toUInt8 := fun h => absurd h.1 (by decide)
  have hquote : '"'.toUInt8 ≠ '%'.toUInt8 := by decide
  simp only [quotedTemplate, bytes, List.map_cons, List.map_nil, pieces, hquote, false_and,
    if_false, hpercent, false_or, true_and, if_true]

/-- No byte of a text is the end of a line if no character is. -/
theorem newline_notMem_utf8Bytes {s : String} (h : ∀ c ∈ s.toList, IsAscii c)
    (hline : '\n' ∉ s.toList) :
    '\n'.toUInt8 ∉ utf8Bytes s := by
  intro hmem
  obtain ⟨c, hc, hbyte⟩ := List.mem_flatMap.mp hmem
  rw [utf8EncodeChar_ascii (h c hc).2, List.mem_singleton] at hbyte
  have hnat : 10 = c.val.toNat % 256 := congrArg UInt8.toNat hbyte
  have hlt := (h c hc).2
  rw [UInt32.lt_iff_toNat_lt] at hlt
  change c.val.toNat < 128 at hlt
  have heq : c = '\n' := Char.ext (UInt32.toNat.inj (by change c.val.toNat = 10; omega))
  exact hline (heq ▸ hc)

theorem zero_notMem_utf8Bytes {s : String} (h : ∀ c ∈ s.toList, IsAscii c) : 0 ∉ utf8Bytes s := by
  intro hmem
  obtain ⟨c, hc, hbyte⟩ := List.mem_flatMap.mp hmem
  rw [utf8EncodeChar_ascii (h c hc).2, List.mem_singleton] at hbyte
  exact toUInt8_ne_zero (h c hc) hbyte.symm

theorem newline_notMem_escaped {text : List UInt8} (h : '\n'.toUInt8 ∉ text) :
    '\n'.toUInt8 ∉ escaped text := by
  intro hmem
  obtain ⟨c, hc, hbyte⟩ := List.mem_flatMap.mp hmem
  split_ifs at hbyte
  · rcases List.mem_cons.mp hbyte with heq | hbyte
    · exact absurd heq (by decide)
    · exact h (List.mem_singleton.mp hbyte ▸ hc)
  · exact h (List.mem_singleton.mp hbyte ▸ hc)

theorem safe_of_ascii {s : Option String} (h : ∀ c ∈ (s.getD "").toList, IsAscii c)
    (hline : '\n' ∉ (s.getD "").toList) (idx : Int) : Safe s idx := by
  intro w ps hsettled hescapes hrest
  have hreplaces : cmdTemplateReplace quotedTemplate s idx =
      '"'.toUInt8 :: (escaped (utf8Bytes (s.getD "")) ++ ['"'.toUInt8]) := by
    have hreplaces := (replaces_iff (by decide : 0 ∉ quotedTemplate) s idx).mpr (.inr h)
    rw [Replaces, quotedTemplate_pieces] at hreplaces
    rw [hreplaces]
    rfl
  have hnewline := newline_notMem_utf8Bytes h hline
  have hahead : Ahead ps ('"'.toUInt8 :: (escaped (utf8Bytes (s.getD "")) ++ ['"'.toUInt8])) := by
    rw [← hreplaces, ← hrest]
    apply ahead_of_notMem hsettled hescapes
    rw [hrest, hreplaces, List.mem_cons, List.mem_append, List.mem_singleton]
    rintro (heq | hmem | heq)
    · exact absurd heq (by decide)
    · exact newline_notMem_escaped hnewline hmem
    · exact absurd heq (by decide)
  have hlexes : Lexes Ahead w .none .start []
      ('"'.toUInt8 :: (escaped (utf8Bytes (s.getD "")) ++ ['"'.toUInt8]))
      (utf8Bytes (s.getD "")) [] :=
    Lexes.quote ahead_follows .startDouble (lexes_escaped ahead_follows hnewline fun _ =>
      Lexes.quote ahead_follows .endDouble (Lexes.eof ahead_follows))
  obtain ⟨ps', hps', hreturns⟩ := yylex_token ahead_follows (by decide) hlexes hahead
  rw [cString_eq (zero_notMem_utf8Bytes h)] at hreturns
  exact ⟨ps', hreturns, hps'⟩

/-! ### How long a token is -/

/-- What is ahead between double quotes: bytes, of which at most `n` are added to the token. A
terminator in the text ends it behind a backslash. -/
inductive Body : Nat → List UInt8 → Prop
  | eof : Body 0 []
  | slash : Body 0 ['\\'.toUInt8]
  | endQuote : Body 0 ['"'.toUInt8]
  | plain {n : Nat} {c : UInt8} {chars : List UInt8} :
      c ∉ quote → Body n chars → Body (n + 1) (c :: chars)
  | letter {n : Nat} {c : UInt8} {chars : List UInt8} :
      c ∈ quote → Body n chars → Body (n + 1) ('\\'.toUInt8 :: c :: chars)

/-- An end of a line in the body is not behind a backslash. -/
theorem Body.joined {n : Nat} {chars : List UInt8} (h : Body n chars) (k : Nat) :
    joined (2 * k) chars = List.replicate (2 * k) '\\'.toUInt8 ++ chars := by
  induction h generalizing k with
  | eof => exact (List.append_nil _).symm
  | slash =>
      rw [Commands.joined, if_pos rfl, Commands.joined, List.replicate_succ']
  | endQuote => rfl
  | @plain n c chars hc _ ih =>
      have hslash : c ≠ '\\'.toUInt8 := by
        rintro rfl
        exact hc (by decide)
      rw [joined_of_ne hslash (by omega), ih 0]
      rfl
  | @letter n c chars hc _ ih =>
      rw [Commands.joined, if_pos rfl]
      by_cases hslash : c = '\\'.toUInt8
      · have htwo : 2 * k + 1 + 1 = 2 * (k + 1) := by omega
        rw [Commands.joined, if_pos hslash, htwo, ih (k + 1), hslash, ← htwo, List.replicate_succ',
          List.replicate_succ', List.append_assoc, List.append_assoc]
        rfl
      · have hline : c ≠ '\n'.toUInt8 := by
          rintro rfl
          exact absurd hc (by decide)
        rw [joined_of_ne hslash (fun h => hline h.1), ih 0, List.replicate_succ', List.append_assoc]
        rfl

/-- The character at hand and the ones ahead are a body. -/
def AtBody (n : Nat) (r : Ch × ParseState) : Prop :=
  r.1 = none ∨ ∃ m c chars, m ≤ n ∧ r.1 = some c ∧ Ahead r.2 chars ∧ Body m (c :: chars)

theorem AtBody.mono {m n : Nat} {r : Ch × ParseState} (h : AtBody m r) (hle : m ≤ n) :
    AtBody n r := by
  rcases h with hnone | ⟨k, c, chars, hk, hrest⟩
  · exact .inl hnone
  · exact .inr ⟨k, c, chars, hk.trans hle, hrest⟩

theorem yylexGetc_atBody {n : Nat} {ps : ParseState} {chars : List UInt8} (hps : Ahead ps chars)
    (h : Body n chars) : AtBody n (yylexGetc ps) := by
  rcases chars with _ | ⟨c, chars⟩
  · obtain ⟨ps', hgetc, -⟩ := yylexGetc_nil hps
    exact .inl (by rw [hgetc])
  · obtain ⟨ps', hgetc, hps', -⟩ := yylexGetc_cons hps
    exact .inr ⟨n, c, chars, Nat.le_refl n, by rw [hgetc], by rw [hgetc]; exact hps', h⟩

theorem Body.of_cons {n : Nat} {c : UInt8} {chars : List UInt8} (h : Body n (c :: chars))
    (hc : c ∉ quote) :
    ∃ m, n = m + 1 ∧ Body m chars := by
  cases h with
  | slash | endQuote => exact absurd (by decide) hc
  | plain _ h => exact ⟨_, rfl, h⟩
  | letter _ _ => exact absurd (by decide) hc

theorem skipBlanks_atBody {n fuel : Nat} {ps : ParseState} {chars : List UInt8}
    {r : Ch × ParseState}
    (hps : Ahead ps chars) (h : Body n chars) (hr : skipBlanks fuel ps = .ok r) : AtBody n r := by
  induction fuel generalizing n ps chars with
  | zero => cases hr
  | succ fuel ih =>
      rw [skipBlanks] at hr
      split_ifs at hr with hblank
      · rcases chars with _ | ⟨c, chars⟩
        · obtain ⟨ps', hgetc, -⟩ := yylexGetc_nil hps
          rw [hgetc] at hblank
          rcases hblank with hblank | hblank <;> cases hblank
        · obtain ⟨ps', hgetc, hps', -⟩ := yylexGetc_cons hps
          rw [hgetc] at hblank hr
          have hc : c ∉ quote := by
            rcases hblank with hblank | hblank <;> rw [Option.some.inj hblank] <;> decide
          obtain ⟨m, rfl, hbody⟩ := h.of_cons hc
          exact (ih hps' hbody hr).mono (Nat.le_succ m)
      · obtain rfl := Except.ok.inj hr
        exact yylexGetc_atBody hps h

/-- A body, or the rest of one behind the backslash of an escape. -/
def Within (n : Nat) (chars : List UInt8) : Prop :=
  Body n chars ∨ ∃ c rest, chars = c :: rest ∧ c ∈ quote ∧ Body n rest

theorem Within.tail {n : Nat} {chars : List UInt8} (h : Within n chars) :
    ∃ m, m ≤ n ∧ Within m chars.tail := by
  rcases h with hbody | ⟨c, rest, rfl, -, hbody⟩
  · cases hbody with
    | eof | slash | endQuote => exact ⟨0, Nat.le_refl 0, .inl .eof⟩
    | plain _ hbody => exact ⟨_, Nat.le_succ _, .inl hbody⟩
    | letter hc hbody => exact ⟨_, Nat.le_succ _, .inr ⟨_, _, rfl, hc, hbody⟩⟩
  · exact ⟨n, Nat.le_refl n, .inl hbody⟩

/-- A comment is skipped up to the end of a line, which is not in an escape. -/
theorem skipComment_atBody {n fuel : Nat} {ps : ParseState} {chars : List UInt8}
    {r : Ch × ParseState}
    (hps : Ahead ps chars) (h : Within n chars) (hr : skipComment fuel ps = .ok r) :
    AtBody n r := by
  induction fuel generalizing n ps chars with
  | zero => cases hr
  | succ fuel ih =>
      rw [skipComment] at hr
      obtain ⟨m, hm, htail⟩ := h.tail
      have hgets := yylexGetc_gets hps
      split_ifs at hr with hend
      · obtain rfl := Except.ok.inj hr
        rcases hend with hline | heof
        · rw [hgets.ch] at hline
          obtain ⟨rest, rfl⟩ := List.head?_eq_some_iff.mp hline
          rcases h with hbody | ⟨q, rest', heq, hq, -⟩
          · exact .inr ⟨n, _, rest, Nat.le_refl n, hgets.ch, hgets.ahead, hbody⟩
          · rw [← (List.cons.inj heq).1] at hq
            exact absurd hq (by decide)
        · exact .inl heof
      · exact (ih hgets.ahead htail hr).mono hm

theorem tokenNewline_atBody {n fuel : Nat} {t : Loop} {chars : List UInt8} {turn : Turn}
    (hps : Ahead t.ps chars) (h : Body n chars) (hr : tokenNewline fuel t = .ok turn) :
    ∃ t', turn = .again t' ∧ t'.state = t.state ∧ t'.buf = t.buf ++ ['\n'.toUInt8] ∧
      AtBody n (t'.ch, t'.ps) := by
  rw [tokenNewline] at hr
  dsimp only at hr
  obtain ⟨r, hblanks, hr⟩ := bind_eq_ok.mp hr
  have hat := skipBlanks_atBody hps h hblanks
  split_ifs at hr with hhash hset
  · obtain rfl := Except.ok.inj hr
    exact ⟨_, rfl, rfl, rfl, hat⟩
  all_goals
    rw [not_not] at hhash
    obtain hnone | ⟨m, c, chars', hm, hc, hps', hbody⟩ := hat
    · rw [hnone] at hhash
      cases hhash
    obtain rfl : c = '#'.toUInt8 := Option.some.inj (hc.symm.trans hhash)
    obtain ⟨k, rfl, hrest⟩ := hbody.of_cons (by decide)
  · -- What is behind the `#` is put back.
    obtain rfl := Except.ok.inj hr
    refine ⟨_, rfl, rfl, rfl, .inr ⟨k + 1, _, chars', hm, rfl, ?_, .plain (by decide) hrest⟩⟩
    rcases chars' with _ | ⟨c, chars'⟩
    · obtain ⟨ps', hgetc, -⟩ := yylexGetc_nil hps'
      rw [hgetc] at hset
      change strchr (bytes [',', '#', '{', '}', ':']) none = true at hset
      exact absurd hset (by decide)
    · obtain ⟨ps', hgetc, -, -, hback⟩ := yylexGetc_cons hps'
      rw [hgetc] at hset ⊢
      refine (hback ?_).2
      rintro rfl
      change strchr (bytes [',', '#', '{', '}', ':']) (some _) = true at hset
      exact absurd hset (by decide)
  · obtain ⟨r', hcomment, hr⟩ := bind_eq_ok.mp hr
    obtain rfl := Except.ok.inj hr
    obtain ⟨l, hl, htail⟩ := Within.tail (.inl hrest)
    exact ⟨_, rfl, rfl, rfl, (skipComment_atBody (yylexGetc_gets hps').ahead htail hcomment).mono
      (by omega)⟩

/-- A token between double quotes is no longer than what is added to it. -/
theorem tokenLoop_length {w : World} {n fuel : Nat} {t : Loop} {ps' : ParseState} {out : List UInt8}
    (hstate : t.state = .doubleQuotes) (h : AtBody n (t.ch, t.ps))
    (hr : tokenLoop w fuel t = .ok (ps', some out)) : out.length ≤ t.buf.length + n := by
  induction fuel generalizing n t with
  | zero => cases hr
  | succ fuel ih =>
      obtain ⟨ps, ch, state, last, buf⟩ := t
      obtain rfl : state = .doubleQuotes := hstate
      rw [tokenLoop] at hr
      obtain ⟨turn, hturn, hr⟩ := bind_eq_ok.mp hr
      rcases h with hnone | ⟨m, c, chars, hm, hc, hps, hbody⟩
      · obtain rfl : ch = none := hnone
        obtain rfl := Except.ok.inj hturn
        obtain ⟨-, hout⟩ := Prod.mk.inj (Except.ok.inj hr)
        rw [← Option.some.inj hout]
        exact Nat.le_add_right _ _
      obtain rfl : ch = some c := hc
      have hquotes : State.doubleQuotes ≠ .singleQuotes := fun h => (nomatch h)
      cases hbody with
      | slash =>
          obtain ⟨ps₁, hgetc, -⟩ := yylexGetc_nil hps
          rw [tokenTurn_slash hquotes, yylexTokenEscape, hgetc] at hturn
          obtain rfl := Except.ok.inj hturn
          cases hr
      | endQuote =>
          rw [tokenTurn_quote .endDouble] at hturn
          obtain rfl := Except.ok.inj hturn
          obtain ⟨ps₁, hgetc, -⟩ := yylexGetc_nil hps
          dsimp only at hr
          rw [hgetc] at hr
          rcases fuel with _ | fuel
          · cases hr
          · obtain ⟨-, hout⟩ := Prod.mk.inj (Except.ok.inj hr)
            rw [← Option.some.inj hout]
            exact Nat.le_add_right _ _
      | @plain m _ _ hquote hbody =>
          by_cases hline : c = '\n'.toUInt8
          · have hnewline : tokenTurn w fuel ⟨ps, some c, .doubleQuotes, last, buf⟩ =
                tokenNewline fuel ⟨ps, some c, .doubleQuotes, last, buf⟩ := by
              rw [hline]
              rfl
            rw [hnewline] at hturn
            obtain ⟨t', rfl, hstate', hbuf, hat⟩ := tokenNewline_atBody hps hbody hturn
            have := ih hstate' hat hr
            rw [hbuf, List.length_append, List.length_singleton] at this
            dsimp only at this ⊢
            omega
          · rw [tokenTurn_plain (plain_of_notMem_quote hline hquote last)] at hturn
            obtain rfl := Except.ok.inj hturn
            have := ih rfl (yylexGetc_atBody hps hbody) hr
            rw [List.length_append, List.length_singleton] at this
            dsimp only at this ⊢
            omega
      | @letter m q chars hquote hbody =>
          obtain ⟨ps₁, hgetc, hps₁, -⟩ := yylexGetc_cons hps
          rw [tokenTurn_slash hquotes,
            yylexTokenEscape_letter hgetc (quote_letter hquote).1] at hturn
          obtain rfl := Except.ok.inj hturn
          have := ih rfl (yylexGetc_atBody hps₁ hbody) hr
          rw [List.length_append, List.length_singleton] at this
          dsimp only at this ⊢
          omega

/-- The result of the replacement between double quotes is a body, of as many bytes as the text has
characters. -/
theorem body_written (cs : List Char) :
    ∃ n, n ≤ cs.length ∧ Body n (cString (cs.flatMap (replacedChar true) ++ ['"'.toUInt8])) := by
  induction cs with
  | nil => exact ⟨0, Nat.le_refl 0, .endQuote⟩
  | cons c cs ih =>
      obtain ⟨n, hn, hbody⟩ := ih
      rw [List.flatMap_cons, List.append_assoc, replacedChar, List.length_cons]
      set b := c.val.toUInt8
      have hcons : ∀ (b : UInt8) (chars : List UInt8), b ≠ 0 →
          cString (b :: chars) = b :: cString chars := by
        intro b chars hb
        exact List.takeWhile_cons_of_pos (decide_eq_true hb)
      have hslash :=
        hcons '\\'.toUInt8 (b :: (cs.flatMap (replacedChar true) ++ ['"'.toUInt8])) (by decide)
      by_cases hzero : b = 0
      · rw [if_pos ⟨rfl, by rw [hzero]; decide⟩]
        refine ⟨0, Nat.zero_le _, ?_⟩
        change Body 0
          (cString ('\\'.toUInt8 :: b :: (cs.flatMap (replacedChar true) ++ ['"'.toUInt8])))
        rw [hslash, hzero, cString, List.takeWhile_cons_of_neg (by decide)]
        exact .slash
      · have hb := hcons b (cs.flatMap (replacedChar true) ++ ['"'.toUInt8]) hzero
        refine ⟨n + 1, Nat.succ_le_succ hn, ?_⟩
        by_cases hquote : b ∈ quote
        · have hstrchr : strchr quote (some b) = true :=
            (Bool.or_eq_true _ _).mpr (.inl (List.contains_iff_mem.mpr hquote))
          rw [if_pos ⟨rfl, hstrchr⟩]
          change Body (n + 1)
            (cString ('\\'.toUInt8 :: b :: (cs.flatMap (replacedChar true) ++ ['"'.toUInt8])))
          rw [hslash, hb]
          exact .letter hquote hbody
        · have hstrchr : ¬ (true = true ∧ strchr quote (some b) = true) := by
            rintro ⟨-, hstrchr⟩
            rcases (Bool.or_eq_true _ _).mp hstrchr with hmem | heq
            · exact hquote (List.contains_iff_mem.mp hmem)
            · exact hzero (Option.some.inj (beq_iff_eq.mp heq))
          rw [if_neg hstrchr]
          change Body (n + 1) (cString (b :: (cs.flatMap (replacedChar true) ++ ['"'.toUInt8])))
          rw [hb]
          exact .plain hquote hbody

theorem tokenTok_inj {s s' : List UInt8} (h : tokenTok s = tokenTok s') : s = s' := by
  rw [tokenTok, tokenTok] at h
  split_ifs at h
  · exact Tok.equals.inj h
  · exact Tok.token.inj h

theorem tokenTok_ne_error (s : List UInt8) : tokenTok s ≠ .error := by
  rw [tokenTok]
  split_ifs <;> exact fun h => (nomatch h)

/-- There are more bytes than characters when one of them is not ASCII. -/
theorem length_lt_utf8Bytes {s : String} {c : Char} (hc : c ∈ s.toList) (hhigh : ¬ c.val < 128) :
    s.toList.length < (utf8Bytes s).length := by
  have hlt : (s.toList.map fun _ => 1).sum <
      (s.toList.map fun c => (String.utf8EncodeChar c).length).sum :=
    List.sum_lt_sum _ _ (fun c _ => List.length_pos_iff.mpr String.utf8EncodeChar_ne_nil)
      ⟨c, hc, (utf8EncodeChar_high hhigh).1⟩
  rw [utf8Bytes, List.length_flatMap]
  simpa using hlt

/-- The start of a buffer. -/
def startOf (buf : List UInt8) : ParseState :=
  ⟨.buffer buf 0, none, 1, false, false, false, 0, none⟩

theorem ascii_of_safe {s : Option String} {idx : Int} (h : Safe s idx) :
    ∀ c ∈ (s.getD "").toList, IsAscii c := by
  intro c hc
  set cs := (s.getD "").toList with hcs
  set w : World := ⟨fun _ => none, none, fun _ => none, fun _ => none, 0⟩
  obtain ⟨n, hn, hbody⟩ := body_written cs
  have htext : cmdTemplateReplace quotedTemplate s idx =
      '"'.toUInt8 :: cString (cs.flatMap (replacedChar true) ++ ['"'.toUInt8]) := by
    rw [cmdTemplateReplace, if_neg (by decide), templateLoop_eq _ _ _ (Nat.le_refl _),
      Bool.not_false, quotedTemplate_pieces]
    rfl
  have hahead : Ahead (startOf (cmdTemplateReplace quotedTemplate s idx))
      ('"'.toUInt8 :: cString (cs.flatMap (replacedChar true) ++ ['"'.toUInt8])) := by
    refine ⟨trivial, ?_⟩
    change joined 0 (cmdTemplateReplace quotedTemplate s idx) = _
    rw [htext, joined_of_ne (by decide) (by decide), hbody.joined 0]
    rfl
  obtain ⟨ps', ⟨m, hm⟩, -⟩ :=
    h w (startOf (cmdTemplateReplace quotedTemplate s idx)) trivial rfl rfl
  obtain ⟨-, ps₁, -, -, hps₁, hyylex⟩ := yylex_eq w ahead_follows (by decide) hahead
  have hreturns := hm (m + 2) (by omega)
  dsimp only at hreturns
  rw [hyylex] at hreturns
  obtain ⟨⟨ps₂, part⟩, htoken, hresult⟩ := bind_eq_ok.mp hreturns
  have htok := Option.some.inj (congrArg Prod.snd (Except.ok.inj hresult))
  obtain ⟨out, rfl⟩ : ∃ out, part = some out := by
    cases part with
    | none => exact absurd htok.symm (tokenTok_ne_error _)
    | some out => exact ⟨out, rfl⟩
  have hout : cString out = utf8Bytes (s.getD "") := tokenTok_inj htok
  have hlength : out.length ≤ n := by
    rw [yylexToken, tokenLoop, tokenTurn_quote .startDouble, ok_bind] at htoken
    have := tokenLoop_length rfl (yylexGetc_atBody hps₁ hbody) htoken
    simpa using this
  refine ⟨?_, ?_⟩
  · rintro rfl
    apply zero_notMem_cString out
    rw [hout]
    exact List.mem_flatMap.mpr ⟨_, hc, by decide⟩
  · by_contra hhigh
    have hlt := length_lt_utf8Bytes hc hhigh
    rw [← hout] at hlt
    have hle : (cString out).length ≤ out.length := (List.takeWhile_prefix _).length_le
    rw [← hcs] at hlt
    omega

/-! ### Replacing -/

/-- The text is put into the template, and a text of one line is safe between double quotes. -/
def Splices (template : List UInt8) (s : Option String) (idx : Int) : Prop :=
  Replaces template s idx ∧ ('\n' ∉ (s.getD "").toList → Safe s idx)

/-- This is so for ASCII texts, and where nothing is replaced and the text has more than one line.
-/
theorem splices_iff {template : List UInt8} (htemplate : 0 ∉ template) (s : Option String)
    (idx : Int) :
    Splices template s idx ↔ (∀ c ∈ (s.getD "").toList, IsAscii c) ∨
      (∀ quoted, .placeholder quoted ∉ pieces idx true template) ∧ '\n' ∈ (s.getD "").toList := by
  rw [Splices, replaces_iff htemplate]
  constructor
  · rintro ⟨hnone | hascii, hsafe⟩
    · by_cases hline : '\n' ∈ (s.getD "").toList
      · exact .inr ⟨hnone, hline⟩
      · exact .inl (ascii_of_safe (hsafe hline))
    · exact .inl hascii
  · rintro (hascii | ⟨hnone, hline⟩)
    · exact ⟨.inr hascii, fun hline => safe_of_ascii hascii hline idx⟩
    · exact ⟨.inl hnone, fun hnotMem => absurd hline hnotMem⟩

theorem prompt_splices : Splices (bytes ['a', ' ', '%', '1']) (some "b\"c") 1 := by
  have hascii : ∀ c ∈ "b\"c".toList, IsAscii c := by simp [IsAscii]
  exact (splices_iff (by decide) (some "b\"c") 1).mpr (Or.inl hascii)

/-- The second byte of an accented letter is lost. -/
theorem accent_not_splices : cmdTemplateReplace (bytes ['%', '%']) (some "é") 1 = [0xe9] ∧
    utf8Bytes "é" = [0xc3, 0xa9] ∧ ¬ Splices (bytes ['%', '%']) (some "é") 1 := by
  have hreplaced : cmdTemplateReplace (bytes ['%', '%']) (some "é") 1 = [0xe9] := by decide +kernel
  have hbytes : utf8Bytes "é" = [0xc3, 0xa9] := by decide +kernel
  refine ⟨hreplaced, hbytes, ?_⟩
  rintro ⟨hreplaces, -⟩
  have hpieces : pieces 1 true (bytes ['%', '%']) = [.placeholder false] := by decide +kernel
  rw [Replaces, hreplaced, hpieces, Option.getD_some, hbytes] at hreplaces
  exact absurd hreplaces (by decide)

end Ztmux.Commands
