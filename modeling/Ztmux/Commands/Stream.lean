import Ztmux.Commands.Lexer

/-!
What the lexer reads.

The characters that `yylex_getc` returns one after the other are those of the source, without the
backslashes and the ends of lines that join lines. A character that is not a backslash can be taken
back.
-/

namespace Ztmux.Commands

/-! ### Joined lines -/

/-- The characters behind `escapes` backslashes, without the joined ends of lines. -/
def joined : Nat → List UInt8 → List UInt8
  | escapes, [] => List.replicate escapes '\\'.toUInt8
  | escapes, c :: rest =>
      if c = '\\'.toUInt8 then joined (escapes + 1) rest
      else if c = '\n'.toUInt8 ∧ escapes % 2 = 1 then joined (escapes - 1) rest
      else List.replicate escapes '\\'.toUInt8 ++ c :: joined 0 rest

/-- A file is at its end when its end was put back. -/
def Source.Settled : Source → Prop
  | .file rest unget => unget = some none → rest = []
  | .buffer _ _ => True

/-- The lexer is about to read these characters. -/
structure Ahead (ps : ParseState) (chars : List UInt8) : Prop where
  settled : ps.source.Settled
  chars : List.replicate ps.escapes '\\'.toUInt8 ++ joined 0 ps.source.rest = chars

/-- Reading changes the place, and the line number where lines are joined. -/
structure Read (ps ps' : ParseState) : Prop where
  file : ps'.file = ps.file
  condition : ps'.condition = ps.condition
  eol : ps'.eol = ps.eol
  eof : ps'.eof = ps.eof
  error : ps'.error = ps.error

theorem Read.refl (ps : ParseState) : Read ps ps := ⟨rfl, rfl, rfl, rfl, rfl⟩

theorem Read.trans {ps ps' ps'' : ParseState} (h : Read ps ps') (h' : Read ps' ps'') :
    Read ps ps'' :=
  ⟨h'.file.trans h.file, h'.condition.trans h.condition, h'.eol.trans h.eol, h'.eof.trans h.eof,
    h'.error.trans h.error⟩

variable {ps ps' : ParseState} {chars : List UInt8} {c : UInt8}

/-! ### One character -/

theorem yylexGetc1_nil (h : ps.source.Settled) (hrest : ps.source.rest = []) :
    ∃ ps', yylexGetc1 ps = (none, ps') ∧ ps'.source.Settled ∧ ps'.source.rest = [] ∧ Read ps ps' ∧
      ps'.escapes = ps.escapes := by
  rw [yylexGetc1]
  rcases hsource : ps.source with ⟨rest, unget⟩ | ⟨buf, off⟩
  · rw [hsource] at h hrest
    rcases unget with _ | _ | c
    · obtain rfl : rest = [] := hrest
      exact ⟨ps, rfl, hsource ▸ h, hsource ▸ rfl, .refl ps, rfl⟩
    · obtain rfl : rest = [] := hrest
      exact ⟨_, rfl, fun _ => rfl, rfl, ⟨rfl, rfl, rfl, rfl, rfl⟩, rfl⟩
    · cases hrest
  · rw [hsource] at hrest
    have hnone : buf[off]? = none := List.getElem?_eq_none (List.drop_eq_nil_iff.mp hrest)
    dsimp only
    rw [hnone]
    exact ⟨ps, rfl, hsource ▸ trivial, hsource ▸ hrest, .refl ps, rfl⟩

theorem yylexGetc1_cons (h : ps.source.Settled) {rest : List UInt8}
    (hrest : ps.source.rest = c :: rest) :
    ∃ ps', yylexGetc1 ps = (some c, ps') ∧ ps'.source.Settled ∧ ps'.source.rest = rest ∧
    Read ps ps' ∧
      ps'.escapes = ps.escapes ∧ (yylexUngetc ps' (some c)).source.Settled ∧
      (yylexUngetc ps' (some c)).source.rest = c :: rest := by
  rw [yylexGetc1]
  rcases hsource : ps.source with ⟨left, unget⟩ | ⟨buf, off⟩
  · rw [hsource] at h hrest
    rcases unget with _ | _ | c'
    · obtain rfl : left = c :: rest := hrest
      exact ⟨_, rfl, fun h => (nomatch h), rfl, ⟨rfl, rfl, rfl, rfl, rfl⟩, rfl,
        fun h => (nomatch h), rfl⟩
    · have hleft : left = [] := h rfl
      rw [hleft] at hrest
      cases hrest
    · obtain ⟨rfl, rfl⟩ := List.cons.inj hrest
      exact ⟨_, rfl, fun h => (nomatch h), rfl, ⟨rfl, rfl, rfl, rfl, rfl⟩, rfl,
        fun h => (nomatch h), rfl⟩
  · rw [hsource] at hrest
    have hdrop : buf.drop off = c :: rest := hrest
    have hget : buf[off]? = some c := by
      rw [← List.head?_drop, hdrop]
      rfl
    have htail : buf.drop (off + 1) = rest := by
      rw [← List.tail_drop, hdrop]
      rfl
    dsimp only
    rw [hget]
    have hback : yylexUngetc { ps with source := .buffer buf (off + 1) } (some c) =
        { ps with source := .buffer buf off } := by
      rw [yylexUngetc]
      exact if_pos ⟨Nat.succ_pos off, fun h => (nomatch h)⟩
    exact ⟨_, rfl, trivial, htail, ⟨rfl, rfl, rfl, rfl, rfl⟩, rfl, by rw [hback]; trivial,
      by rw [hback]; exact hdrop⟩

theorem yylexUngetc_read (ps : ParseState) (ch : Ch) :
    Read ps (yylexUngetc ps ch) ∧ (yylexUngetc ps ch).escapes = ps.escapes := by
  rw [yylexUngetc]
  rcases ps.source with ⟨rest, unget⟩ | ⟨buf, off⟩
  · exact ⟨⟨rfl, rfl, rfl, rfl, rfl⟩, rfl⟩
  · dsimp only
    split_ifs
    · exact ⟨⟨rfl, rfl, rfl, rfl, rfl⟩, rfl⟩
    · exact ⟨.refl ps, rfl⟩

/-! ### A character of the joined lines -/

/-- What a loop or a call that is about to return `chars` returns. -/
structure Gets (ps : ParseState) (chars : List UInt8) (r : Ch × ParseState) : Prop where
  ch : r.1 = chars.head?
  ahead : Ahead r.2 chars.tail
  read : Read ps r.2
  back : ∀ c rest, chars = c :: rest → c ≠ '\\'.toUInt8 →
    r.2.escapes = 0 ∧ Ahead (yylexUngetc r.2 (some c)) chars
  eof : chars = [] → Ahead (yylexUngetc r.2 none) []

theorem yylexUngetc_eof (h : ps.source.Settled) (hrest : ps.source.rest = []) :
    (yylexUngetc ps none).source.Settled ∧ (yylexUngetc ps none).source.rest = [] := by
  rw [yylexUngetc]
  rcases hsource : ps.source with ⟨rest, unget⟩ | ⟨buf, off⟩
  · rw [hsource] at h hrest
    have hnil : rest = [] := by
      rcases unget with _ | _ | c
      · exact hrest
      · exact hrest
      · cases hrest
    rw [hnil]
    exact ⟨fun _ => rfl, rfl⟩
  · dsimp only
    rw [if_neg (fun hpos => hpos.2 rfl), hsource]
    exact ⟨trivial, hsource ▸ hrest⟩

theorem joined_of_ne {rest : List UInt8} {escapes : Nat} (hback : c ≠ '\\'.toUInt8)
    (hline : ¬ (c = '\n'.toUInt8 ∧ escapes % 2 = 1)) :
    joined escapes (c :: rest) = List.replicate escapes '\\'.toUInt8 ++ c :: joined 0 rest := by
  rw [joined, if_neg hback, if_neg hline]

/-- The backslashes that were counted are returned before the character that ended them. -/
theorem returns_backslash {ch : Ch} {after : List UInt8} {escapes : Nat}
    (hescapes : ps'.escapes = escapes + 1) (hread : Read ps ps')
    (hsettled : (yylexUngetc ps' ch).source.Settled)
    (hafter : joined 0 (yylexUngetc ps' ch).source.rest = after) :
    Gets ps (List.replicate (escapes + 1) '\\'.toUInt8 ++ after)
      (some '\\'.toUInt8,
        { yylexUngetc ps' ch with escapes := (yylexUngetc ps' ch).escapes - 1 }) := by
  obtain ⟨hback, hcount⟩ := yylexUngetc_read ps' ch
  have hcount' : (yylexUngetc ps' ch).escapes - 1 = escapes := by
    rw [hcount, hescapes]
    rfl
  refine ⟨rfl, ⟨hsettled, ?_⟩, hread.trans ⟨hback.file, hback.condition, hback.eol, hback.eof,
    hback.error⟩, fun c rest hcons hne => ?_, fun hnil => ?_⟩
  · dsimp only
    rw [hcount', hafter, List.replicate_succ]
    rfl
  · rw [List.replicate_succ] at hcons
    exact absurd (List.cons.inj hcons).1.symm hne
  · rw [List.replicate_succ] at hnil
    cases hnil

theorem getcLoop_gets (turns : Nat) (h : ps.source.Settled)
    (hturns : ps.source.rest.length < turns) :
    Gets ps (joined ps.escapes ps.source.rest) (getcLoop turns ps) := by
  induction turns generalizing ps with
  | zero => exact absurd hturns (Nat.not_lt_zero _)
  | succ turns ih =>
      rw [getcLoop]
      rcases hrest : ps.source.rest with _ | ⟨c, rest⟩
      · obtain ⟨ps', hgetc, hsettled, hrest', hread, hescapes⟩ := yylexGetc1_nil h hrest
        simp only [hgetc, reduceCtorEq, false_and, if_false]
        rcases hcount : ps.escapes with _ | escapes
        · rw [hcount] at hescapes
          rw [if_neg (fun hne => hne hescapes)]
          obtain ⟨hsettled', hnil⟩ := yylexUngetc_eof hsettled hrest'
          refine ⟨rfl, ⟨hsettled, ?_⟩, hread, fun c rest hcons => (nomatch hcons),
            fun _ => ⟨hsettled', ?_⟩⟩
          · rw [hescapes, hrest']
            rfl
          · rw [(yylexUngetc_read ps' none).2, hescapes, hnil]
            rfl
        · rw [hcount] at hescapes
          rw [if_pos (by rw [hescapes]; exact Nat.succ_ne_zero _)]
          obtain ⟨hsettled', hnil⟩ := yylexUngetc_eof hsettled hrest'
          have hgets := @returns_backslash ps ps' none [] escapes hescapes hread hsettled'
            (by rw [hnil]; rfl)
          rwa [List.append_nil] at hgets
      · obtain ⟨ps', hgetc, hsettled, hrest', hread, hescapes, hsettled', hback⟩ :=
          yylexGetc1_cons h hrest
        have hlen : ps'.source.rest.length < turns := by
          rw [hrest, List.length_cons] at hturns
          rw [hrest']
          omega
        simp only [hgetc, Option.some.injEq]
        by_cases hslash : c = '\\'.toUInt8
        · rw [if_pos hslash, joined, if_pos hslash, ← hrest', ← hescapes]
          obtain ⟨hch, hahead, hread', hget, heof⟩ :=
            @ih { ps' with escapes := ps'.escapes + 1 } hsettled hlen
          exact ⟨hch, hahead, hread.trans ⟨hread'.file, hread'.condition, hread'.eol, hread'.eof,
            hread'.error⟩, hget, heof⟩
        · rw [if_neg hslash]
          by_cases hline : c = '\n'.toUInt8 ∧ ps'.escapes % 2 = 1
          · rw [if_pos hline, joined, if_neg hslash,
              if_pos (hescapes ▸ hline), ← hrest', ← hescapes]
            obtain ⟨hch, hahead, hread', hget, heof⟩ :=
              @ih { ps' with line := ps'.line + 1, escapes := ps'.escapes - 1 } hsettled hlen
            exact ⟨hch, hahead, hread.trans ⟨hread'.file, hread'.condition, hread'.eol, hread'.eof,
              hread'.error⟩, hget, heof⟩
          · rw [if_neg hline, joined_of_ne hslash (hescapes ▸ hline)]
            have hjoined : joined 0 (c :: rest) = c :: joined 0 rest :=
              joined_of_ne hslash (fun hodd => (nomatch hodd.2))
            rcases hcount : ps.escapes with _ | escapes
            · rw [hcount] at hescapes
              rw [if_neg (fun hne => hne hescapes)]
              refine ⟨rfl, ⟨hsettled, ?_⟩, hread, fun c' rest' hcons hne => ?_,
                fun hnil => (nomatch hnil)⟩
              · rw [hescapes, hrest']
                rfl
              · obtain ⟨rfl, -⟩ := List.cons.inj hcons
                refine ⟨hescapes, hsettled', ?_⟩
                rw [(yylexUngetc_read ps' (some c)).2, hescapes, hback]
                exact hjoined
            · rw [hcount] at hescapes
              rw [if_pos (by rw [hescapes]; exact Nat.succ_ne_zero _)]
              exact returns_backslash hescapes hread hsettled' (by rw [hback]; exact hjoined)

/-- `yylex_getc` returns the characters one after the other. -/
theorem yylexGetc_gets (h : Ahead ps chars) : Gets ps chars (yylexGetc ps) := by
  obtain ⟨hsettled, rfl⟩ := h
  rw [yylexGetc]
  rcases hcount : ps.escapes with _ | escapes
  · rw [if_neg (fun hne => hne rfl)]
    have hgets := getcLoop_gets (ps.source.rest.length + 1) hsettled (Nat.lt_succ_self _)
    rwa [hcount] at hgets
  · rw [if_pos (Nat.succ_ne_zero _)]
    refine ⟨rfl, ⟨hsettled, rfl⟩, ⟨rfl, rfl, rfl, rfl, rfl⟩, fun c rest hcons hne => ?_,
      fun hnil => ?_⟩
    · rw [List.replicate_succ] at hcons
      exact absurd (List.cons.inj hcons).1.symm hne
    · rw [List.replicate_succ] at hnil
      cases hnil

theorem yylexGetc_cons (h : Ahead ps (c :: chars)) :
    ∃ ps', yylexGetc ps = (some c, ps') ∧ Ahead ps' chars ∧ Read ps ps' ∧
      (c ≠ '\\'.toUInt8 → ps'.escapes = 0 ∧ Ahead (yylexUngetc ps' (some c)) (c :: chars)) := by
  obtain ⟨hch, hahead, hread, hback, -⟩ := yylexGetc_gets h
  exact ⟨_, Prod.ext hch rfl, hahead, hread, hback c chars rfl⟩

theorem yylexGetc_nil (h : Ahead ps []) :
    ∃ ps', yylexGetc ps = (none, ps') ∧ Read ps ps' ∧ Ahead (yylexUngetc ps' none) [] := by
  obtain ⟨hch, -, hread, -, heof⟩ := yylexGetc_gets h
  exact ⟨_, Prod.ext hch rfl, hread, heof rfl⟩

end Ztmux.Commands
