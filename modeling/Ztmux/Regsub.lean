import Ztmux.Machine

/-!
Substitution by regular expressions.

The matcher is not part of the program. Every call gets the rest of the text behind a cursor, and
answers where in that rest the match and its groups are. Two cursors say how far the text has been
copied and where to search next. They differ by the byte that is skipped after an empty match.
-/

namespace Ztmux.Regsub

/-! ### Model -/

@[ext] structure Regmatch where
  rmSo : Int
  rmEo : Int
  deriving DecidableEq, Repr

/-- A compiled pattern, as what is found in a string. The first match is the whole one. -/
abbrev Regexec := List UInt8 → Option (Fin 10 → Regmatch)

/-- A cursor before the text is cast to a size behind all of memory. -/
def regsubCopy (buf text : List UInt8) (start stop : Int) : Exec (List UInt8) :=
  if 0 ≤ start ∧ start ≤ stop ∧ stop ≤ text.length then
    .ok (buf ++ (text.drop start.toNat).take (stop - start).toNat)
  else .error .outOfBounds

/-- The group that a digit names. -/
def groupOf (c : UInt8) : Fin 10 := Fin.ofNat 10 (c.toNat - 48)

def regsubExpand (text : List UInt8) (m : Fin 10 → Regmatch) :
    List UInt8 → List UInt8 → Exec (List UInt8)
  | [], buf => pure buf
  | [c], buf => pure (buf ++ [c])
  | c :: d :: repl, buf =>
      if c = 92 then
        let group := m (groupOf d)
        if 48 ≤ d ∧ d ≤ 57 ∧ group.rmSo ≠ group.rmEo then do
          regsubExpand text m repl (← regsubCopy buf text group.rmSo group.rmEo)
        else regsubExpand text m repl (buf ++ [d])
      else regsubExpand text m (d :: repl) (buf ++ [c])

structure Cursors where
  start : Int
  last : Int
  empty : Bool
  buf : List UInt8

/-- Append the text before a match, and what the match is replaced by. -/
def regsubMatch (repl text : List UInt8) (m : Fin 10 → Regmatch) (s : Cursors) : Exec Cursors := do
  let buf ← regsubCopy s.buf text s.last ((m 0).rmSo + s.start)
  if s.empty = true ∨ s.start + (m 0).rmSo ≠ s.last ∨ (m 0).rmSo ≠ (m 0).rmEo then do
    let buf ← regsubExpand (text.drop s.start.toNat) m repl buf
    pure ⟨s.start + (m 0).rmEo, s.start + (m 0).rmEo, false, buf⟩
  else pure ⟨s.start + ((m 0).rmEo + 1), s.start + (m 0).rmEo, true, buf⟩

def anchored (pattern : List UInt8) : Bool := pattern.head? = some 94

def regsubLoop (regexec : Regexec) (pattern repl text : List UInt8) :
    Nat → Cursors → Exec (List UInt8)
  | 0, _ => .error .outOfFuel
  | fuel + 1, s =>
      if s.start ≤ text.length then
        match regexec (text.drop s.start.toNat) with
        | none => regsubCopy s.buf text s.start text.length
        | some m => do
            let s ← regsubMatch repl text m s
            -- Stop now if anchored to start.
            if anchored pattern then regsubCopy s.buf text s.start text.length
            else regsubLoop regexec pattern repl text fuel s
      else pure s.buf

def regsub (regcomp : List UInt8 → Int → Option Regexec) (pattern repl text : List UInt8)
    (flags : Int)
    (fuel : Nat) : Exec (Option (List UInt8)) :=
  if text = [] then pure (some [])
  else if pattern = [] then pure (some text)
  else match regcomp pattern flags with
    | none => pure none
    | some regexec => do pure (some (← regsubLoop regexec pattern repl text fuel ⟨0, 0, false, []⟩))

/-! ### Matches -/

/-- What a replacement stands for. -/
def expansion (text : List UInt8) (m : Fin 10 → Regmatch) : List UInt8 → List UInt8
  | [] => []
  | [c] => [c]
  | c :: d :: repl =>
      if c = 92 then
        let group := m (groupOf d)
        (if 48 ≤ d ∧ d ≤ 57 ∧ group.rmSo ≠ group.rmEo then
          (text.drop group.rmSo.toNat).take (group.rmEo - group.rmSo).toNat
            else [d]) ++ expansion text m repl
      else c :: expansion text m (d :: repl)

/-- A match, with the text between the match before and it. -/
structure Piece where
  between : List UInt8
  matched : List UInt8
  instead : List UInt8
  alone : Bool

/-- The next match in the rest of a text, and the rest behind it. Behind an empty match that was
left alone a byte is passed over, and an empty match at the start of the rest is left alone
otherwise. -/
def meet (regexec : Regexec) (repl : List UInt8) (behind : Bool) (rest : List UInt8) :
    Option (Piece × List UInt8) :=
  let skip := behind.toNat
  if skip ≤ rest.length then
    (regexec (rest.drop skip)).map fun m =>
      let so := skip + (m 0).rmSo.toNat
      let eo := skip + (m 0).rmEo.toNat
      let alone := behind = false ∧ m 0 = ⟨0, 0⟩
      (⟨rest.take so, (rest.drop so).take (eo - so),
        if alone then [] else expansion (rest.drop skip) m repl, alone⟩, rest.drop eo)
  else none

/-- The matches of a text, one behind the other, and the text behind the last one. -/
inductive Matches (regexec : Regexec) (repl : List UInt8) (once : Bool) :
    Bool → List UInt8 → List Piece → List UInt8 → Prop
  | done {behind : Bool} {rest : List UInt8} (hmeet : meet regexec repl behind rest = none) :
      Matches regexec repl once behind rest [] rest
  | stop {behind : Bool} {rest tail : List UInt8} {piece : Piece} (honce : once = true)
      (hmeet : meet regexec repl behind rest = some (piece, tail)) :
      Matches regexec repl once behind rest [piece] tail
  | met {behind : Bool} {rest rest' tail : List UInt8} {piece : Piece} {pieces : List Piece}
      (honce : once = false) (hmeet : meet regexec repl behind rest = some (piece, rest'))
      (hrest : Matches regexec repl once piece.alone rest' pieces tail) :
      Matches regexec repl once behind rest (piece :: pieces) tail

/-- The last match was left alone. -/
def endsAlone : Bool → List Piece → Bool
  | behind, [] => behind
  | _, piece :: pieces => endsAlone piece.alone pieces

/-- A text with its matches, and the text with the matches replaced. -/
def original (pieces : List Piece) : List UInt8 :=
  pieces.flatMap fun piece => piece.between ++ piece.matched

def replaced (pieces : List Piece) : List UInt8 :=
  pieces.flatMap fun piece => piece.between ++ piece.instead

/-- The matches are inside of the string that was searched. A group that took no part has no length.
-/
structure Reports (regexec : Regexec) : Prop where
  inside : ∀ (s : List UInt8) (m : Fin 10 → Regmatch), regexec s = some m →
    0 ≤ (m 0).rmSo ∧ (m 0).rmSo ≤ (m 0).rmEo ∧ (m 0).rmEo ≤ s.length
  group : ∀ (s : List UInt8) (m : Fin 10 → Regmatch) (i : Fin 10), regexec s = some m →
    (m i).rmSo = (m i).rmEo ∨ 0 ≤ (m i).rmSo ∧ (m i).rmSo ≤ (m i).rmEo ∧ (m i).rmEo ≤ s.length

variable {regexec : Regexec} {pattern repl text front rest rest' tail buf : List UInt8}
    {behind once : Bool}
  {piece : Piece} {pieces : List Piece}

theorem Matches.unique {pieces' : List Piece} {tail' : List UInt8}
    (h : Matches regexec repl once behind rest pieces tail)
    (h' : Matches regexec repl once behind rest pieces' tail') :
    pieces' = pieces ∧ tail' = tail := by
  induction h generalizing pieces' tail' with
  | done hmeet =>
      cases h' with
      | done hmeet' => exact ⟨rfl, rfl⟩
      | stop honce' hmeet' => cases hmeet.symm.trans hmeet'
      | met honce' hmeet' hrest' => cases hmeet.symm.trans hmeet'
  | stop honce hmeet =>
      cases h' with
      | done hmeet' => cases hmeet.symm.trans hmeet'
      | stop honce' hmeet' =>
          obtain ⟨rfl, rfl⟩ := Prod.mk.inj (Option.some.inj (hmeet.symm.trans hmeet'))
          exact ⟨rfl, rfl⟩
      | met honce' hmeet' hrest' => cases honce.symm.trans honce'
  | met honce hmeet hrest ih =>
      cases h' with
      | done hmeet' => cases hmeet.symm.trans hmeet'
      | stop honce' hmeet' => cases honce.symm.trans honce'
      | met honce' hmeet' hrest' =>
          obtain ⟨rfl, rfl⟩ := Prod.mk.inj (Option.some.inj (hmeet.symm.trans hmeet'))
          obtain ⟨rfl, rfl⟩ := ih hrest'
          exact ⟨rfl, rfl⟩

/-! ### One match -/

theorem regsubCopy_ok {mid back : List UInt8} {start stop : Int} (hstart : start = front.length)
    (hstop : stop = front.length + mid.length) :
    regsubCopy buf (front ++ mid ++ back) start stop = .ok (buf ++ mid) := by
  subst hstart hstop
  have hlen : ((front.length : Int) + mid.length - front.length).toNat = mid.length := by omega
  rw [regsubCopy, if_pos, Int.toNat_natCast, hlen, List.append_assoc, List.drop_left,
    List.take_left]
  simp only [List.length_append]
  omega

/-- A replacement is expanded behind what is in the buffer. -/
theorem regsubExpand_ok {m : Fin 10 → Regmatch} (hgroup : ∀ i, (m i).rmSo = (m i).rmEo ∨
    0 ≤ (m i).rmSo ∧ (m i).rmSo ≤ (m i).rmEo ∧ (m i).rmEo ≤ text.length) :
    regsubExpand text m repl buf = .ok (buf ++ expansion text m repl) := by
  fun_induction regsubExpand text m repl buf with
  | case1 buf => simp [expansion, pure, Except.pure]
  | case2 c buf => simp [expansion, pure, Except.pure]
  | case3 d repl buf group hdigit ih =>
      have hcopy : regsubCopy buf text group.rmSo group.rmEo =
          .ok (buf ++ (text.drop group.rmSo.toNat).take (group.rmEo - group.rmSo).toNat) := by
        rw [regsubCopy, if_pos ((hgroup (groupOf d)).resolve_left hdigit.2.2)]
      rw [hcopy, ok_bind, ih, expansion, if_pos rfl]
      dsimp only
      rw [if_pos hdigit, List.append_assoc]
  | case4 d repl buf group hdigit ih =>
      rw [ih, expansion, if_pos rfl]
      dsimp only
      rw [if_neg hdigit, List.append_assoc]
  | case5 c d repl buf hslash ih =>
      rw [ih, expansion, if_neg hslash, List.append_assoc, List.singleton_append]

/-- The cursors when a part of the text is done. -/
def Cursors.at (front : List UInt8) (behind : Bool) (buf : List UInt8) : Cursors :=
  ⟨front.length + behind.toNat, front.length, behind, buf⟩

/-- What is left to search, with the byte that is passed over. -/
def work (behind : Bool) (rest : List UInt8) : Nat := 2 * rest.length + (!behind).toNat

theorem meet_of_none (h : regexec (rest.drop behind.toNat) = none) :
    meet regexec repl behind rest = none := by
  rw [meet]
  split_ifs <;> simp [h]

/-- A match is met, appended with the text before it, and passed by the cursors. -/
theorem meet_match (hre : Reports regexec) {m : Fin 10 → Regmatch}
    (hskip : behind.toNat ≤ rest.length)
    (hm : regexec (rest.drop behind.toNat) = some m) : ∃ piece rest',
      meet regexec repl behind rest = some (piece, rest') ∧
      rest = piece.between ++ piece.matched ++ rest' ∧
      (piece.alone = true → behind = false ∧ rest' = rest ∧ piece.matched = [] ∧
        piece.instead = []) ∧
      work piece.alone rest' < work behind rest ∧
      ∀ front buf, regsubMatch repl (front ++ rest) m (.at front behind buf) =
        .ok (.at (front ++ (piece.between ++ piece.matched)) piece.alone
          (buf ++ (piece.between ++ piece.instead))) := by
  obtain ⟨hso, heo, hlen⟩ := hre.inside _ _ hm
  have hgroup := fun i => hre.group _ _ i hm
  rw [List.length_drop] at hlen
  -- The text before the match, the match and the text behind it.
  obtain ⟨between, matched, rest', rfl, hbetween, hmatched⟩ : ∃ between matched rest',
      rest = between ++ matched ++ rest' ∧ (between.length : Int) = behind.toNat + (m 0).rmSo ∧
        (matched.length : Int) = (m 0).rmEo - (m 0).rmSo := by
    refine ⟨rest.take (behind.toNat + (m 0).rmSo.toNat),
      (rest.drop (behind.toNat + (m 0).rmSo.toNat)).take ((m 0).rmEo - (m 0).rmSo).toNat,
      rest.drop (behind.toNat + (m 0).rmEo.toNat), ?_, ?_, ?_⟩
    · have hsplit : ∀ i j, rest = rest.take i ++ (rest.drop i).take j ++ rest.drop (i + j) :=
        fun i j => by
        rw [← List.drop_drop, List.append_assoc, List.take_append_drop, List.take_append_drop]
      have hdrop : behind.toNat + (m 0).rmEo.toNat =
          behind.toNat + (m 0).rmSo.toNat + ((m 0).rmEo - (m 0).rmSo).toNat := by omega
      rw [hdrop]
      exact hsplit _ _
    · rw [List.length_take]
      omega
    · rw [List.length_take, List.length_drop]
      omega
  have hstart : behind.toNat + (m 0).rmSo.toNat = between.length := by omega
  have hstop : behind.toNat + (m 0).rmEo.toNat = (between ++ matched).length := by
    rw [List.length_append]
    omega
  have hlong : (between ++ matched).length - between.length = matched.length := by
    rw [List.length_append, Nat.add_sub_cancel_left]
  have hmeet : meet regexec repl behind (between ++ matched ++ rest') = some (⟨between, matched,
      if behind = false ∧ m 0 = ⟨0, 0⟩ then []
      else expansion ((between ++ matched ++ rest').drop behind.toNat) m repl,
      behind = false ∧ m 0 = ⟨0, 0⟩⟩, rest') := by
    rw [meet, if_pos hskip, hm]
    dsimp only [Option.map_some]
    rw [hstart, hstop, hlong, List.drop_left, List.append_assoc, List.take_left, List.drop_left,
      List.take_left]
  refine ⟨_, _, hmeet, rfl, ?_, ?_, ?_⟩
  · intro halone
    obtain ⟨rfl, hempty⟩ := of_decide_eq_true halone
    rw [hempty] at hbetween hmatched
    obtain rfl := List.eq_nil_of_length_eq_zero (Int.ofNat_eq_zero.mp hbetween)
    obtain rfl := List.eq_nil_of_length_eq_zero (Int.ofNat_eq_zero.mp hmatched)
    exact ⟨rfl, rfl, rfl, if_pos ⟨rfl, hempty⟩⟩
  · simp only [work, List.length_append]
    by_cases halone : behind = false ∧ m 0 = ⟨0, 0⟩
    · simp [halone.1, halone.2]
    · have hmoved : 2 * (between.length + matched.length) + (!behind).toNat > 1 := by
        cases behind with
        | true =>
            rw [Bool.toNat_true] at hbetween
            omega
        | false =>
            have hne : (m 0).rmEo ≠ 0 := by
              intro hzero
              have hsmall : (m 0).rmSo = 0 := by omega
              exact halone ⟨rfl, Regmatch.ext hsmall hzero⟩
            rw [Bool.toNat_false] at hbetween
            omega
      rw [decide_eq_false halone, Bool.not_false, Bool.toNat_true]
      omega
  · intro front buf
    have hcopy : regsubCopy buf (front ++ (between ++ matched ++ rest')) front.length
        ((m 0).rmSo + (front.length + behind.toNat)) = .ok (buf ++ between) := by
      rw [List.append_assoc between, ← List.append_assoc front]
      exact regsubCopy_ok rfl (by omega)
    have hdrop : (front ++ (between ++ matched ++ rest')).drop
        ((front.length : Int) + behind.toNat).toNat =
        (between ++ matched ++ rest').drop behind.toNat := by
      have hnat : ((front.length : Int) + behind.toNat).toNat = front.length + behind.toNat := by
        omega
      rw [hnat, List.drop_length_add_append]
    have hexpand :=
      fun buf =>
        @regsubExpand_ok repl ((between ++ matched ++ rest').drop behind.toNat) buf m hgroup
    rw [regsubMatch, Cursors.at]
    dsimp only
    rw [hcopy, ok_bind, hdrop]
    by_cases halone : behind = false ∧ m 0 = ⟨0, 0⟩
    · obtain ⟨rfl, hempty⟩ := halone
      rw [hempty] at hbetween hmatched
      obtain rfl := List.eq_nil_of_length_eq_zero (Int.ofNat_eq_zero.mp hbetween)
      obtain rfl := List.eq_nil_of_length_eq_zero (Int.ofNat_eq_zero.mp hmatched)
      simp [hempty, Cursors.at, pure, Except.pure]
    · have hcond : behind = true ∨ (front.length : Int) + behind.toNat + (m 0).rmSo ≠ front.length ∨
          (m 0).rmSo ≠ (m 0).rmEo := by
        by_contra hnot
        simp only [not_or, not_not, Bool.not_eq_true] at hnot
        obtain ⟨rfl, hzero, hempty⟩ := hnot
        rw [Bool.toNat_false] at hzero
        have hsmall : (m 0).rmSo = 0 := by omega
        exact halone ⟨rfl, Regmatch.ext hsmall (hempty ▸ hsmall)⟩
      have hend : (front.length : Int) + behind.toNat + (m 0).rmEo =
          (front ++ (between ++ matched)).length := by
        simp only [List.length_append]
        omega
      rw [if_pos hcond, hexpand, ok_bind, if_neg halone, decide_eq_false halone, hend,
        List.append_assoc, Cursors.at, Bool.toNat_false, Int.ofNat_zero, add_zero]
      rfl

/-! ### The loop -/

theorem regsubCopy_tail (hskip : behind.toNat ≤ rest.length) :
    regsubCopy buf (front ++ rest) (Cursors.at front behind buf).start (front ++ rest).length =
      .ok (buf ++ rest.drop behind.toNat) := by
  have hcopy := @regsubCopy_ok (front ++ rest.take behind.toNat) buf (rest.drop behind.toNat) []
    (front.length + behind.toNat) (front ++ rest).length (by
      rw [List.length_append, List.length_take_of_le hskip, Int.natCast_add]) (by
      simp only [List.length_append, List.length_take_of_le hskip, List.length_drop]
      omega)
  rw [List.append_nil, List.append_assoc, List.take_append_drop] at hcopy
  exact hcopy

/-- The text is taken apart, and empty matches that are left alone replace nothing. -/
def Covers (text : List UInt8) (pieces : List Piece) (tail : List UInt8) : Prop :=
  text = original pieces ++ tail ∧
    ∀ piece ∈ pieces, piece.alone = true → piece.matched = [] ∧ piece.instead = []

theorem Covers.cons (hrest : rest = piece.between ++ piece.matched ++ rest')
    (halone : piece.alone = true → piece.matched = [] ∧ piece.instead = [])
    (h : Covers rest' pieces tail) :
    Covers rest (piece :: pieces) tail := by
  constructor
  · rw [hrest, h.1]
    simp [original]
  · exact List.forall_mem_cons.mpr ⟨halone, h.2⟩

/-- The matches are replaced, and the byte behind a last match that was left alone is dropped. -/
theorem regsubLoop_returns (hre : Reports regexec) (front buf : List UInt8)
    (hfirst : anchored pattern = true → rest ≠ []) : ∃ pieces tail,
      Matches regexec repl (anchored pattern) behind rest pieces tail ∧ Covers rest pieces tail ∧
      Returns
        (fun fuel => regsubLoop regexec pattern repl (front ++ rest) fuel (.at front behind buf))
        (buf ++ replaced pieces ++ tail.drop (endsAlone behind pieces).toNat) := by
  induction hwork : work behind rest using Nat.strong_induction_on generalizing behind rest front
    buf with
  | _ n ih =>
      have hstart : (Cursors.at front behind buf).start ≤ ((front ++ rest).length : Int) ↔
          behind.toNat ≤ rest.length := by
        change (front.length : Int) + behind.toNat ≤ _ ↔ _
        rw [List.length_append]
        omega
      have hdrop : (front ++ rest).drop (Cursors.at front behind buf).start.toNat =
          rest.drop behind.toNat := by
        change (front ++ rest).drop ((front.length : Int) + behind.toNat).toNat = _
        have hnat : ((front.length : Int) + behind.toNat).toNat = front.length + behind.toNat := by
          omega
        rw [hnat, List.drop_length_add_append]
      by_cases hskip : behind.toNat ≤ rest.length
      · cases hm : regexec (rest.drop behind.toNat) with
        | none =>
            refine ⟨[], rest, .done (meet_of_none hm), ⟨rfl, by simp⟩,
              .of_succ ⟨0, fun fuel _ => ?_⟩⟩
            dsimp only [regsubLoop]
            rw [if_pos (hstart.mpr hskip), hdrop, hm, replaced, List.flatMap_nil, List.append_nil]
            exact regsubCopy_tail hskip
        | some m =>
            obtain ⟨piece, rest', hmeet, hrest, halone, hless, hmatch⟩ :=
              @meet_match _ repl _ _ hre m hskip hm
            have hempty : piece.alone = true → piece.matched = [] ∧ piece.instead = [] :=
              fun h => (halone h).2.2
            have htext : front ++ rest = front ++ (piece.between ++ piece.matched) ++ rest' := by
              rw [hrest, List.append_assoc front]
            cases honce : anchored pattern with
            | true =>
                have hnext : piece.alone.toNat ≤ rest'.length := by
                  cases h : piece.alone with
                  | false => exact Nat.zero_le _
                  | true =>
                      rw [(halone h).2.1]
                      exact List.length_pos_iff.mpr (hfirst honce)
                refine ⟨[piece], rest', .stop rfl hmeet, .cons hrest hempty ⟨rfl, by simp⟩,
                  .of_succ ⟨0, fun fuel _ => ?_⟩⟩
                dsimp only [regsubLoop]
                rw [if_pos (hstart.mpr hskip), hdrop, hm]
                dsimp only
                rw [hmatch, ok_bind, if_pos honce, htext]
                refine (regsubCopy_tail hnext).trans ?_
                simp [replaced, endsAlone, Cursors.at]
            | false =>
                obtain ⟨pieces, tail, hmatches, hcovers, hloop⟩ := ih _ (hwork ▸ hless)
                  (front ++ (piece.between ++ piece.matched))
                    (buf ++ (piece.between ++ piece.instead))
                  (fun h => absurd h (by rw [honce]; decide)) rfl
                rw [honce] at hmatches
                refine ⟨piece :: pieces, tail, .met rfl hmeet hmatches, hcovers.cons hrest hempty,
                  .of_succ ?_⟩
                obtain ⟨fuels, hfuels⟩ := hloop
                refine ⟨fuels, fun fuel hfuel => ?_⟩
                dsimp only [regsubLoop]
                rw [if_pos (hstart.mpr hskip), hdrop, hm]
                dsimp only
                rw [hmatch, ok_bind, honce, if_neg (by decide), htext]
                refine (hfuels fuel hfuel).trans ?_
                simp [replaced, endsAlone]
      · obtain ⟨rfl, rfl⟩ : behind = true ∧ rest = [] := by
          cases behind with
          | false => exact absurd (Nat.zero_le _) hskip
          | true =>
              rw [Bool.toNat_true] at hskip
              exact ⟨rfl, List.eq_nil_of_length_eq_zero (by omega)⟩
        refine ⟨[], [], .done (by simp [meet]), ⟨rfl, by simp⟩, .of_succ ⟨0, fun fuel _ => ?_⟩⟩
        dsimp only [regsubLoop]
        rw [if_neg (hstart.not.mpr hskip)]
        simp [replaced, Cursors.at, pure, Except.pure]

/-! ### The result -/

/-- The result is the text with its matches replaced: what is outside of them is there once, in
order. -/
def Substitutes (regexec : Regexec) (pattern repl text result : List UInt8) : Prop :=
  ∃ pieces tail, Matches regexec repl (anchored pattern) false text pieces tail ∧
  Covers text pieces tail ∧
    result = replaced pieces ++ tail

theorem matches_nil (hre : Reports regexec) (repl : List UInt8) (once : Bool) : ∃ pieces,
    Matches regexec repl once false [] pieces [] ∧ Covers [] pieces [] ∧ replaced pieces = [] := by
  cases hm : regexec (List.drop false.toNat []) with
  | none => exact ⟨[], .done (meet_of_none hm), ⟨rfl, by simp⟩, rfl⟩
  | some m =>
      obtain ⟨piece, rest', hmeet, hrest, halone, hless, -⟩ :=
        @meet_match _ repl _ _ hre m (Nat.zero_le _) hm
      have hempty : piece.alone = true → piece.matched = [] ∧ piece.instead = [] :=
        fun h => (halone h).2.2
      obtain ⟨hleft, rfl⟩ := List.append_eq_nil_iff.mp hrest.symm
      have hbetween := (List.append_eq_nil_iff.mp hleft).1
      have htrue : piece.alone = true := by
        cases h : piece.alone with
        | true => rfl
        | false =>
            rw [h] at hless
            exact absurd hless (Nat.lt_irrefl _)
      refine ⟨[piece], ?_, .cons hrest hempty ⟨rfl, by simp⟩, ?_⟩
      · cases once with
        | true => exact .stop rfl hmeet
        | false => exact .met rfl hmeet (htrue ▸ .done (by simp [meet]))
      · simp [replaced, hbetween, (hempty htrue).2]

theorem regsub_returns (hre : Reports regexec) {regcomp : List UInt8 → Int → Option Regexec}
    {flags : Int}
    (hcomp : regcomp pattern flags = some regexec) (hpattern : pattern ≠ []) : ∃ pieces tail,
      Matches regexec repl (anchored pattern) false text pieces tail ∧ Covers text pieces tail ∧
      Returns (regsub regcomp pattern repl text flags)
        (some (replaced pieces ++ tail.drop (endsAlone false pieces).toNat)) := by
  by_cases htext : text = []
  · subst htext
    obtain ⟨pieces, hmatches, hcovers, hempty⟩ := matches_nil hre repl (anchored pattern)
    refine ⟨pieces, [], hmatches, hcovers, 0, fun fuel _ => ?_⟩
    rw [regsub, if_pos rfl, hempty, List.drop_nil]
    rfl
  · obtain ⟨pieces, tail, hmatches, hcovers, fuels, hloop⟩ :=
      @regsubLoop_returns regexec pattern repl text false hre [] [] fun _ => htext
    refine ⟨pieces, tail, hmatches, hcovers, fuels, fun fuel hfuel => ?_⟩
    rw [regsub, if_neg htext, if_neg hpattern, hcomp]
    dsimp only
    refine bind_eq_ok.mpr ⟨_, hloop fuel hfuel, ?_⟩
    rw [List.nil_append]
    rfl

/-- Nothing is lost unless the last match is an empty one that was left alone before the end. -/
theorem regsub_iff (hre : Reports regexec) {regcomp : List UInt8 → Int → Option Regexec}
    {flags : Int}
    (hcomp : regcomp pattern flags = some regexec) (hpattern : pattern ≠ []) :
    (∃ result, Returns (regsub regcomp pattern repl text flags) (some result) ∧
      Substitutes regexec pattern repl text result) ↔
    ∀ pieces tail, Matches regexec repl (anchored pattern) false text pieces tail →
      endsAlone false pieces = true → tail = [] := by
  obtain ⟨pieces, tail, hmatches, hcovers, hreturns⟩ :=
    @regsub_returns _ pattern repl text hre _ _ hcomp hpattern
  constructor
  · rintro ⟨result, hresult, pieces', tail', hmatches', -, rfl⟩ pieces'' tail'' hmatches'' halone
    obtain ⟨rfl, rfl⟩ := hmatches'.unique hmatches
    obtain ⟨rfl, rfl⟩ := hmatches''.unique hmatches
    have hsame := List.append_cancel_left (Option.some.inj (hreturns.unique hresult))
    rw [halone] at hsame
    have hlen := congrArg List.length hsame
    rw [List.length_drop, Bool.toNat_true] at hlen
    exact List.eq_nil_of_length_eq_zero (by omega)
  · intro h
    refine ⟨_, hreturns, pieces, tail, hmatches, hcovers, ?_⟩
    cases halone : endsAlone false pieces with
    | false => rfl
    | true => rw [h pieces tail hmatches halone, List.drop_nil]

/-- What `^x*` finds: the `x`s at the start of a string. -/
def leadingX (s : List UInt8) : Option (Fin 10 → Regmatch) :=
  some fun i => if i = 0 then ⟨0, (s.takeWhile (· = 120)).length⟩ else ⟨-1, -1⟩

theorem reports_leadingX : Reports leadingX := by
  have hgroup : ∀ s m (i : Fin 10), leadingX s = some m → i ≠ 0 → m i = ⟨-1, -1⟩ := by
    intro s m i h hi
    rw [← Option.some.inj h]
    exact if_neg hi
  have hinside : ∀ s m, leadingX s = some m →
      0 ≤ (m 0).rmSo ∧ (m 0).rmSo ≤ (m 0).rmEo ∧ (m 0).rmEo ≤ (s.length : Int) := by
    intro s m h
    rw [← Option.some.inj h]
    exact ⟨le_rfl, Int.natCast_nonneg _, Int.ofNat_le.mpr (List.takeWhile_sublist _).length_le⟩
  constructor
  · exact hinside
  · intro s m i h
    by_cases hi : i = 0
    · subst hi
      exact .inr (hinside s m h)
    · rw [hgroup s m i h hi]
      exact .inl rfl

/-- The pattern `^x*` on the text `xab`. -/
theorem regsub_substitutes_x :
    ∃ result, Returns (regsub (fun _ _ => some leadingX) [94, 120, 42] [89] [120, 97, 98] 0)
        (some result) ∧
      Substitutes leadingX [94, 120, 42] [89] [120, 97, 98] result := by
  refine (regsub_iff reports_leadingX rfl (by decide)).mpr fun pieces tail hmatches halone => ?_
  have hstop : Matches leadingX [89] (anchored [94, 120, 42]) false [120, 97, 98]
      [⟨[], [120], [89], false⟩] [97, 98] := .stop rfl rfl
  obtain ⟨rfl, rfl⟩ := hstop.unique hmatches
  exact absurd halone (by decide)

/-- The pattern `^x*` on the text `abc`, whose `a` is lost. -/
theorem regsub_drops :
    Returns (regsub (fun _ _ => some leadingX) [94, 120, 42] [89] [97, 98, 99] 0) (some [98, 99]) ∧
    ¬ ∃ result, Returns (regsub (fun _ _ => some leadingX) [94, 120, 42] [89] [97, 98, 99] 0)
      (some result) ∧
      Substitutes leadingX [94, 120, 42] [89] [97, 98, 99] result := by
  have hreturns : Returns (regsub (fun _ _ => some leadingX) [94, 120, 42] [89] [97, 98, 99] 0)
      (some [98, 99]) := by
    refine ⟨1, fun fuel hfuel => ?_⟩
    obtain ⟨n, rfl⟩ : ∃ n, fuel = n + 1 := ⟨fuel - 1, by omega⟩
    rfl
  refine ⟨hreturns, ?_⟩
  rintro ⟨result, hresult, pieces, tail, hmatches, -, hreplaced⟩
  obtain rfl := Option.some.inj (hresult.unique hreturns)
  have hstop : Matches leadingX [89] (anchored [94, 120, 42]) false [97, 98, 99]
      [⟨[], [], [], true⟩] [97, 98, 99] := .stop rfl rfl
  obtain ⟨rfl, rfl⟩ := hstop.unique hmatches
  exact absurd hreplaced (by decide)

end Ztmux.Regsub
