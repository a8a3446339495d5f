import Ztmux.Commands.Stream

/-!
Characters that are taken back.

A backslash may have been handed out of the counter, while the source is already at the character
behind the run. In a buffer the place goes back by one character, whichever that is; in a file there
is one place for a character, and it holds the one behind the run. A backslash that is taken back is
counted with those that follow it.
-/

namespace Ztmux.Commands

/-! ### What is delivered -/

/-- What so many calls of `yylex_getc` return. -/
def delivered : Nat → ParseState → List Ch
  | 0, _ => []
  | n + 1, ps => (yylexGetc ps).1 :: delivered n (yylexGetc ps).2

/-- Some characters and then the end, as often as is asked. -/
def ended : Nat → List UInt8 → List Ch
  | 0, _ => []
  | n + 1, chars => chars.head? :: ended n chars.tail

variable {ps : ParseState} {chars : List UInt8}

theorem delivered_eq (h : Ahead ps chars) (n : Nat) : delivered n ps = ended n chars := by
  induction n generalizing ps chars with
  | zero => rfl
  | succ n ih =>
      have hgets := yylexGetc_gets h
      rw [delivered, ended, hgets.ch, ih hgets.ahead]

theorem ended_inj {chars chars' : List UInt8} (h : ∀ n, ended n chars = ended n chars') :
    chars = chars' := by
  induction chars generalizing chars' with
  | nil =>
      have hhead : chars'.head? = none := (List.cons.inj (h 1)).1.symm
      exact (List.head?_eq_none_iff.mp hhead).symm
  | cons c chars ih =>
      have hhead : chars'.head? = some c := (List.cons.inj (h 1)).1.symm
      obtain ⟨rest, rfl⟩ := List.head?_eq_some_iff.mp hhead
      exact congrArg (List.cons c) (ih fun n => (List.cons.inj (h (n + 1))).2)

/-- The characters that the lexer is about to read. -/
def stream (ps : ParseState) : List UInt8 :=
  List.replicate ps.escapes '\\'.toUInt8 ++ joined 0 ps.source.rest

theorem Source.Settled.ahead (h : ps.source.Settled) : Ahead ps (stream ps) := ⟨h, rfl⟩

/-! ### One more backslash -/

/-- An end of line follows the backslashes. -/
def LineNext (rest : List UInt8) : Prop :=
  (rest.dropWhile (· = '\\'.toUInt8)).head? = some '\n'.toUInt8

theorem joined_add_two (escapes : Nat) (rest : List UInt8) :
    joined (escapes + 2) rest = '\\'.toUInt8 :: '\\'.toUInt8 :: joined escapes rest := by
  induction rest generalizing escapes with
  | nil => rfl
  | cons c rest ih =>
      rw [joined, joined]
      by_cases hback : c = '\\'.toUInt8
      · rw [if_pos hback, if_pos hback]
        exact ih (escapes + 1)
      · rw [if_neg hback, if_neg hback, Nat.add_mod_right]
        split_ifs with hline
        · obtain ⟨k, hk⟩ := Nat.exists_eq_succ_of_ne_zero (show escapes ≠ 0 by omega)
          subst hk
          exact ih k
        · rfl

theorem joined_even (k : Nat) (rest : List UInt8) :
    joined (2 * k) rest = List.replicate (2 * k) '\\'.toUInt8 ++ joined 0 rest := by
  induction k with
  | zero => rfl
  | succ k ih => rw [Nat.mul_succ, joined_add_two, ih]; rfl

/-- One more backslash is read as one more character, unless an end of line follows. -/
theorem joined_succ (escapes : Nat) (rest : List UInt8) :
    (joined (escapes + 1) rest = '\\'.toUInt8 :: joined escapes rest ↔ ¬ LineNext rest) ∧
      ((joined (escapes + 1) rest).length + (joined escapes rest).length) % 2 = 1 := by
  induction rest generalizing escapes with
  | nil =>
      refine ⟨⟨fun _ h => (nomatch h), fun _ => rfl⟩, ?_⟩
      rw [joined, joined, List.length_replicate, List.length_replicate]
      omega
  | cons c rest ih =>
      by_cases hback : c = '\\'.toUInt8
      · have hnext : LineNext (c :: rest) ↔ LineNext rest := by
          rw [LineNext, LineNext, List.dropWhile_cons, if_pos (by simpa using hback)]
        rw [hnext, joined, joined, if_pos hback, if_pos hback]
        exact ih (escapes + 1)
      · have hnext : LineNext (c :: rest) ↔ c = '\n'.toUInt8 := by
          rw [LineNext, List.dropWhile_cons, if_neg (by simpa using hback), List.head?_cons,
            Option.some.injEq]
        rw [hnext, joined, joined, if_neg hback, if_neg hback]
        by_cases hline : c = '\n'.toUInt8
        · obtain ⟨k, hk⟩ := Nat.even_or_odd' escapes
          rcases hk with rfl | rfl
          · rw [if_pos ⟨hline, by omega⟩, if_neg (by omega), Nat.add_sub_cancel, joined_even]
            have hlengths : (List.replicate (2 * k) '\\'.toUInt8 ++ joined 0 rest).length + 1 =
                (List.replicate (2 * k) '\\'.toUInt8 ++ c :: joined 0 rest).length := by
                  simp [Nat.add_assoc]
            refine ⟨⟨fun h => ?_, fun h => absurd hline h⟩, by omega⟩
            have hlength := congrArg List.length h
            rw [List.length_cons] at hlength
            omega
          · rw [if_neg (by omega), if_pos ⟨hline, by omega⟩, Nat.add_sub_cancel, joined_even]
            have hlengths : (List.replicate (2 * k + 1 + 1) '\\'.toUInt8 ++ c ::
              joined 0 rest).length =
                (List.replicate (2 * k) '\\'.toUInt8 ++ joined 0 rest).length + 3 := by
              simp only [List.length_append, List.length_replicate, List.length_cons]
              omega
            refine ⟨⟨fun h => ?_, fun h => absurd hline h⟩, by omega⟩
            have hlength := congrArg List.length h
            rw [List.length_cons] at hlength
            omega
        · rw [if_neg fun h => hline h.1, if_neg fun h => hline h.1]
          refine ⟨⟨fun _ => hline, fun _ => rfl⟩, ?_⟩
          simp only [List.length_append, List.length_replicate, List.length_cons]
          omega

theorem joined_backslash (rest : List UInt8) : joined 0 ('\\'.toUInt8 :: rest) = joined 1 rest :=
  rfl

/-- A character that is lost is missed. -/
theorem joined_length_ne (d : UInt8) (rest : List UInt8) :
    (joined 1 rest).length ≠ ('\\'.toUInt8 :: joined 0 (d :: rest)).length := by
  rw [List.length_cons]
  by_cases hback : d = '\\'.toUInt8
  · rw [hback, joined_backslash]
    omega
  · have hodd := (joined_succ 0 rest).2
    have hkeep : joined 0 (d :: rest) = d :: joined 0 rest :=
      joined_of_ne hback fun hline => (nomatch hline.2)
    rw [Nat.zero_add] at hodd
    rw [hkeep, List.length_cons]
    omega

/-! ### Taking a backslash back -/

/-- Where a backslash that was returned can be taken back: there is a place for it, the place in a
buffer is behind a backslash, and no end of line follows. -/
def TakesBack : Source → Prop
  | .file rest unget => (unget = none ∨ unget = some none) ∧ ¬ LineNext rest
  | .buffer buf off => 0 < off ∧ buf[off - 1]? = some '\\'.toUInt8 ∧ ¬ LineNext (buf.drop off)

theorem stream_backslash (hsettled : ps.source.Settled) :
    stream (yylexUngetc ps (some '\\'.toUInt8)) = '\\'.toUInt8 :: stream ps ↔
    TakesBack ps.source := by
  have hescapes := (yylexUngetc_read ps (some '\\'.toUInt8)).2
  have hcomm : '\\'.toUInt8 :: stream ps = List.replicate ps.escapes '\\'.toUInt8 ++ '\\'.toUInt8 ::
      joined 0 ps.source.rest := by
    rw [stream, ← List.cons_append, ← List.replicate_succ, List.replicate_succ', List.append_assoc]
    rfl
  rw [hcomm, stream, hescapes, List.append_cancel_left_eq, yylexUngetc]
  rcases hsource : ps.source with ⟨rest, unget⟩ | ⟨buf, off⟩
  · change joined 1 rest = _ ↔ _
    rw [hsource] at hsettled
    rcases unget with _ | _ | d
    · exact (joined_succ 0 rest).1.trans ⟨fun h => ⟨.inl rfl, h⟩, And.right⟩
    · exact (joined_succ 0 rest).1.trans ⟨fun h => ⟨.inr rfl, h⟩, And.right⟩
    · refine ⟨fun h => absurd (congrArg List.length h) (joined_length_ne d rest), fun h => ?_⟩
      rcases h.1 with hnone | hnone <;> cases hnone
  · dsimp only
    by_cases hoff : 0 < off
    · rw [if_pos ⟨hoff, Option.some_ne_none _⟩]
      change joined 0 (buf.drop (off - 1)) = '\\'.toUInt8 :: joined 0 (buf.drop off) ↔ _
      cases hget : buf[off - 1]? with
      | none =>
          rw [List.drop_eq_nil_of_le (List.getElem?_eq_none_iff.mp hget)]
          exact ⟨fun h => (by cases h), fun h => (by cases hget.symm.trans h.2.1)⟩
      | some b =>
          obtain ⟨hlt, hb⟩ := List.getElem?_eq_some_iff.mp hget
          rw [List.drop_eq_getElem_cons hlt, hb, Nat.sub_add_cancel hoff]
          by_cases hback : b = '\\'.toUInt8
          · rw [hback, joined_backslash]
            refine (joined_succ 0 (buf.drop off)).1.trans ⟨fun h => ⟨hoff, ?_, h⟩, fun h => h.2.2⟩
            rw [hget, hback]
          · have hkeep : joined 0 (b :: buf.drop off) = b :: joined 0 (buf.drop off) :=
              joined_of_ne hback fun hline => by cases hline.2
            rw [hkeep]
            refine ⟨fun h => absurd (List.cons.inj h).1 hback, fun h => absurd ?_ hback⟩
            exact Option.some.inj (hget.symm.trans h.2.1)
    · rw [if_neg fun h => hoff h.1]
      refine ⟨fun h => absurd (congrArg List.length h) ?_, fun h => absurd h.1 hoff⟩
      rw [hsource, List.length_cons]
      exact (Nat.lt_succ_self _).ne

/-! ### Every state -/

/-- The states that are reached: characters are read, and one that was just read is taken back. What
else the lexer does leaves the source and the counter alone. -/
inductive Reachable : ParseState → Prop
  | file {ps : ParseState} {contents : List UInt8} :
      ps.source = .file contents none → ps.escapes = 0 → Reachable ps
  | buffer {ps : ParseState} {buf : List UInt8} : ps.source = .buffer buf 0 → ps.escapes = 0 →
      Reachable ps
  | getc {ps : ParseState} : Reachable ps → Reachable (yylexGetc ps).2
  | ungetc {ps : ParseState} : Reachable ps →
      Reachable (yylexUngetc (yylexGetc ps).2 (yylexGetc ps).1)
  | other {ps ps' : ParseState} : Reachable ps → ps'.source = ps.source → ps'.escapes = ps.escapes →
      Reachable ps'

theorem settled_ungetc (ps : ParseState) (c : UInt8) :
    (yylexUngetc ps (some c)).source.Settled := by
  rw [yylexUngetc]
  rcases hsource : ps.source with ⟨rest, unget⟩ | ⟨buf, off⟩
  · intro h
    cases h
  · dsimp only
    split_ifs
    · trivial
    · rw [hsource]
      trivial

theorem Reachable.settled (h : Reachable ps) : ps.source.Settled := by
  induction h with
  | file hsource _ => rw [hsource]; exact fun h => (nomatch h)
  | buffer hsource _ => rw [hsource]; trivial
  | getc _ ih => exact (yylexGetc_gets ih.ahead).ahead.settled
  | @ungetc ps _ ih =>
      have hgets := yylexGetc_gets ih.ahead
      cases hch : (yylexGetc ps).1 with
      | none =>
          rw [hgets.ch] at hch
          exact (hgets.eof (List.head?_eq_none_iff.mp hch)).settled
      | some c => exact settled_ungetc _ c
  | other _ hsource _ ih => rw [hsource]; exact ih

/-- Taking back what was just returned changes nothing of what is delivered, unless it is a
backslash that cannot be taken back. -/
theorem yylexUngetc_unchanged_iff (h : Reachable ps) :
    (∀ n, delivered (n + 1) (yylexUngetc (yylexGetc ps).2 (yylexGetc ps).1) =
        (yylexGetc ps).1 :: delivered n (yylexGetc ps).2) ↔
      ((yylexGetc ps).1 = some '\\'.toUInt8 → TakesBack (yylexGetc ps).2.source) := by
  have hgets := yylexGetc_gets h.settled.ahead
  have hlater := hgets.ahead.settled.ahead
  have hback := h.ungetc.settled.ahead
  -- Both sides deliver what is ahead of them.
  have hdelivered : (∀ n, delivered (n + 1) (yylexUngetc (yylexGetc ps).2 (yylexGetc ps).1) =
      (yylexGetc ps).1 :: delivered n (yylexGetc ps).2) ↔
      ∀ n, ended (n + 1) (stream (yylexUngetc (yylexGetc ps).2 (yylexGetc ps).1)) =
        (yylexGetc ps).1 :: ended n (stream (yylexGetc ps).2) := by
    simp only [delivered_eq hback, delivered_eq hlater]
  rw [hdelivered]
  cases hch : (yylexGetc ps).1 with
  | none =>
      have hnil : stream ps = [] := List.head?_eq_none_iff.mp (hgets.ch.symm.trans hch)
      have heof : stream (yylexUngetc (yylexGetc ps).2 none) = [] := (hgets.eof hnil).chars
      have hrest : stream (yylexGetc ps).2 = [] := by
        have htail := hgets.ahead.chars
        rw [hnil] at htail
        exact htail
      rw [heof, hrest]
      exact ⟨fun _ h => (nomatch h), fun _ n => rfl⟩
  | some c =>
      obtain ⟨rest, hcons⟩ := List.head?_eq_some_iff.mp (hgets.ch.symm.trans hch)
      have hequal : (∀ n, ended (n + 1) (stream (yylexUngetc (yylexGetc ps).2 (some c))) =
          some c :: ended n (stream (yylexGetc ps).2)) ↔
          stream (yylexUngetc (yylexGetc ps).2 (some c)) = c :: stream (yylexGetc ps).2 := by
        refine ⟨fun h => ended_inj fun n => ?_, fun h n => by rw [h]; rfl⟩
        cases n with
        | zero => rfl
        | succ n => exact h n
      rw [hequal]
      by_cases hslash : c = '\\'.toUInt8
      · rw [hslash]
        exact (stream_backslash hgets.ahead.settled).trans ⟨fun h _ => h, fun h => h rfl⟩
      · have hrest : stream (yylexGetc ps).2 = rest := by
          have htail := hgets.ahead.chars
          rw [hcons] at htail
          exact htail
        have hsame : stream (yylexUngetc (yylexGetc ps).2 (some c)) = c :: rest := by
          rw [← hcons]
          exact (hgets.back c rest hcons hslash).2.chars
        rw [hsame, hrest]
        exact ⟨fun _ h => absurd (Option.some.inj h) hslash, fun _ => rfl⟩

def start (source : Source) : ParseState := ⟨source, none, 1, false, false, false, 0, none⟩

/-- A backslash in front of a letter, in a buffer. -/
theorem backslash_unchanged :
    (yylexGetc (start (.buffer [92, 120] 0))).1 = some 92 ∧ ∀ n,
      delivered (n + 1) (yylexUngetc (yylexGetc (start (.buffer [92, 120] 0))).2 (some 92)) =
        some 92 :: delivered n (yylexGetc (start (.buffer [92, 120] 0))).2 := by
  have hback : TakesBack (yylexGetc (start (.buffer [92, 120] 0))).2.source :=
    ⟨by decide, rfl, (by decide : ([120] : List UInt8).head? ≠ some 10)⟩
  exact ⟨rfl, (yylexUngetc_unchanged_iff (.buffer rfl rfl)).mpr fun _ => hback⟩

/-- A backslash in a file takes the place of the character behind it, and in a buffer two
backslashes and the end of a line are read as a joined line. -/
theorem backslash_changed :
    (delivered 2 (yylexGetc (start (.file [92, 120] none))).2 = [some 120, none] ∧
      delivered 2 (yylexUngetc (yylexGetc (start (.file [92, 120] none))).2 (some 92)) =
        [some 92, none]) ∧
    ((yylexGetc (yylexGetc (start (.buffer [92, 92, 10, 120] 0))).2).1 = some 92 ∧
      delivered 2 (yylexGetc (yylexGetc (start (.buffer [92, 92, 10, 120] 0))).2).2 =
        [some 10, some 120] ∧
      delivered 2 (yylexUngetc (yylexGetc (yylexGetc (start (.buffer [92, 92, 10, 120] 0))).2).2
        (some 92)) =
        [some 120, none]) := by
  decide +kernel

end Ztmux.Commands
