import Ztmux.Commands.Stream

/-!
Escapes for Unicode characters.

The digits are collected in a string, and the end of the string is written over the last of them. So
what is converted is the number without its last digit.
-/

namespace Ztmux.Commands

/-- The locale encodes characters in UTF-8, there is room for them, and nothing else is encoded as a
character. -/
structure World.Utf8 (w : World) : Prop where
  scalar : ∀ c : Char, w.wctomb c.val = some (String.utf8EncodeChar c)
  other : ∀ n, (∀ c : Char, c.val ≠ n) → ∀ c, w.wctomb n ≠ some (String.utf8EncodeChar c)
  room : 4 ≤ w.sizeofM

variable {w : World} {ps : ParseState} {ds rest : List UInt8}

/-! ### Characters -/

theorem utf8EncodeChar_inj {c c' : Char} (h : String.utf8EncodeChar c = String.utf8EncodeChar c') :
    c = c' := by
  have hc := @ByteArray.utf8DecodeChar?_utf8EncodeChar_append .empty c
  have hc' := @ByteArray.utf8DecodeChar?_utf8EncodeChar_append .empty c'
  rw [h] at hc
  exact Option.some.inj (hc.symm.trans hc')

/-! ### Digits -/

theorem hexdigit_ne {d : UInt8} (h : isHexdigit d = true) : d ≠ 0 ∧ d ≠ '\n'.toUInt8 :=
  ⟨fun heq => by rw [heq] at h; exact absurd h (by decide),
    fun heq => by rw [heq] at h; exact absurd h (by decide)⟩

theorem hexDigit_lt {d : UInt8} (h : isHexdigit d = true) : (hexDigit d).toNat < 16 := by
  have hall : ∀ n : Fin 256, isHexdigit (UInt8.ofNat n) = true → (hexDigit (UInt8.ofNat n)).toNat <
      16 := by
    decide +kernel
  have := hall ⟨d.toNat, d.toNat_lt⟩
  rw [UInt8.ofNat_toNat] at this
  exact this h

/-- Numbers of at most eight digits do not overflow. -/
theorem hexValue_snoc {d : UInt8} (hds : ∀ d ∈ ds, isHexdigit d = true) (hd : isHexdigit d = true)
    (hlen : ds.length ≤ 7) :
    (hexValue (ds ++ [d])).toNat = (hexValue ds).toNat * 16 + (hexDigit d).toNat ∧
      (hexValue ds).toNat < 16 ^ ds.length := by
  induction ds using List.reverseRecOn generalizing d with
  | nil =>
      refine ⟨?_, by decide⟩
      have hlt := hexDigit_lt hd
      rw [hexValue, List.nil_append, List.foldl_cons, List.foldl_nil, UInt32.toNat_add]
      exact Nat.mod_eq_of_lt (by change 0 + _ < _; omega)
  | append_singleton ds e ih =>
      rw [List.length_append, List.length_singleton] at hlen ⊢
      obtain ⟨hsnoc, hlt⟩ := ih (fun d hmem => hds d (List.mem_append_left _ hmem))
        (hds e (List.mem_append_right _ (List.mem_singleton_self e))) (by omega)
      have hbound : (hexValue (ds ++ [e])).toNat < 16 ^ (ds.length + 1) := by
        have := hexDigit_lt (hds e (List.mem_append_right _ (List.mem_singleton_self e)))
        rw [hsnoc, pow_succ]
        omega
      have hpow : 16 ^ (ds.length + 1) ≤ 16 ^ 7 := Nat.pow_le_pow_right (by decide) hlen
      have hd' := hexDigit_lt hd
      refine ⟨?_, hbound⟩
      have hfold : hexValue ((ds ++ [e]) ++ [d]) = hexValue (ds ++ [e]) * 16 + hexDigit d := by
        rw [hexValue, List.foldl_append]
        rfl
      rw [hfold, UInt32.toNat_add, UInt32.toNat_mul]
      have h16 : (16 : UInt32).toNat = 16 := rfl
      rw [h16, Nat.mod_eq_of_lt (by omega : (hexValue (ds ++ [e])).toNat * 16 < 2 ^ 32),
        Nat.mod_eq_of_lt (by omega)]

/-- The digits are put into their places. -/
theorem escapeDigits_ok (type : String) (hds : ∀ d ∈ ds, isHexdigit d = true)
    {s front back : List UInt8}
    (hplace : s = front ++ back) (hroom : ds.length ≤ back.length) (h : Ahead ps (ds ++ rest)) :
    ∃ ps', escapeDigits type ds.length front.length ps s =
        (ps', some (front ++ ds ++ back.drop ds.length)) ∧ Ahead ps' rest ∧ Read ps ps' := by
  induction ds generalizing ps s front back with
  | nil => exact ⟨ps, by simp [escapeDigits, hplace], h, .refl ps⟩
  | cons d ds ih =>
      obtain ⟨hd, hds⟩ := List.forall_mem_cons.mp hds
      rcases back with _ | ⟨b, back⟩
      · simp at hroom
      obtain ⟨ps₁, hgetc, hahead, hread, -⟩ := yylexGetc_cons h
      have hset : s.set front.length d = (front ++ [d]) ++ back := by
        rw [hplace, List.set_append_right _ _ (Nat.le_refl _), Nat.sub_self, List.append_assoc]
        rfl
      obtain ⟨ps₂, hdigits, hahead₂, hread₂⟩ := ih hds hset (by simpa using hroom) hahead
      refine ⟨ps₂, ?_, hahead₂, hread.trans hread₂⟩
      rw [List.length_cons, escapeDigits, hgetc]
      dsimp only
      rw [if_neg (hexdigit_ne hd).2, if_neg (not_not.mpr hd)]
      rw [List.length_append, List.length_singleton] at hdigits
      rw [hdigits]
      simp

/-! ### The escape -/

/-- The last digit is lost. -/
theorem yylexTokenUnicode_ok (w : World) (type : String) (hds : ∀ d ∈ ds, isHexdigit d = true)
    (hlen : 1 < ds.length) (hlen' : ds.length ≤ 8) (h : Ahead ps (ds ++ rest)) :
    ∃ ps', Ahead ps' rest ∧
      yylexTokenUnicode w type ds.length ps = appendChar w type ps' (hexValue ds.dropLast) := by
  obtain ⟨ps', hdigits, hahead, -⟩ := @escapeDigits_ok ps ds rest type hds
    (List.replicate 9 0) [] (List.replicate 9 0) rfl (by rw [List.length_replicate]; omega) h
  refine ⟨ps', hahead, ?_⟩
  obtain ⟨front, d, rfl⟩ : ∃ front d, ds = front ++ [d] := by
    rcases List.eq_nil_or_concat ds with rfl | ⟨front, d, rfl⟩
    · simp at hlen
    · exact ⟨front, d, by simp⟩
  have hfront : ∀ d ∈ front, isHexdigit d = true := fun d hd => hds d (List.mem_append_left _ hd)
  rw [List.length_append, List.length_singleton] at hlen hlen' hdigits
  rw [List.length_nil, List.nil_append] at hdigits
  -- The end of the string takes the place of the last digit.
  have hstring : cString ((front ++ [d] ++ (List.replicate 9 0).drop (front.length + 1)).set
      (front.length + 1 - 1) 0) = front := by
    rw [List.append_assoc, Nat.add_sub_cancel, List.set_append_right _ _ (Nat.le_refl _),
      Nat.sub_self, List.singleton_append, List.set_cons_zero, cString,
      List.takeWhile_append_of_pos fun c hc => by simpa using (hexdigit_ne (hfront c hc)).1]
    simp
  have hscan : sscanfHex (front.length + 1) front = some (hexValue front) := by
    have htake : hexDigits (front.length + 1) front = front := by
      rw [hexDigits, List.takeWhile_eq_self_iff.mpr hfront, List.take_of_length_le (Nat.le_succ _)]
    rw [sscanfHex, htake, if_neg]
    rintro rfl
    simp at hlen
  rw [List.length_append, List.length_singleton, yylexTokenUnicode, hdigits]
  dsimp only
  rw [hstring, hscan, List.dropLast_concat]

theorem hexValue_dropLast (hds : ∀ d ∈ ds, isHexdigit d = true) (hlen : 1 < ds.length)
    (hlen' : ds.length ≤ 8) : (hexValue ds.dropLast).toNat = (hexValue ds).toNat / 16 := by
  obtain ⟨front, d, rfl⟩ : ∃ front d, ds = front ++ [d] := by
    rcases List.eq_nil_or_concat ds with rfl | ⟨front, d, rfl⟩
    · simp at hlen
    · exact ⟨front, d, by simp⟩
  rw [List.length_append, List.length_singleton] at hlen'
  have hd := hds d (List.mem_append_right _ (List.mem_singleton_self d))
  have hsnoc := (hexValue_snoc (fun d hd => hds d (List.mem_append_left _ hd)) hd (by omega)).1
  have hlt := hexDigit_lt hd
  rw [List.dropLast_concat, hsnoc]
  omega

/-- The turn of the loop at a backslash adds the encoding of a character to the token, and goes on
behind its escape. -/
def Appends (w : World) (fuel : Nat) (t : Loop) (rest : List UInt8) (c : Char) : Prop :=
  ∃ t', tokenTurn w fuel t = .ok (.next t') ∧ t'.buf = t.buf ++ String.utf8EncodeChar c ∧
    t'.state = t.state ∧ t'.last = t.state ∧ Ahead t'.ps rest

/-- The letter of an escape, and how many digits it takes. -/
def escapeLetters : List (UInt8 × Nat) := [('u'.toUInt8, 4), ('U'.toUInt8, 8)]

/-- An escape adds its character exactly when that has the number 0. -/
theorem unicode_appends_iff (hw : w.Utf8) {t : Loop} {letter : UInt8} {c : Char}
    (hch : t.ch = some '\\'.toUInt8) (hstate : t.state = .none ∨ t.state = .doubleQuotes)
    (hletter : (letter, ds.length) ∈ escapeLetters) (hds : ∀ d ∈ ds, isHexdigit d = true)
    (hvalue : hexValue ds = c.val) (hahead : Ahead t.ps (letter :: (ds ++ rest))) (fuel : Nat) :
    Appends w fuel t rest c ↔ c.val = 0 := by
  have hlen : 1 < ds.length ∧ ds.length ≤ 8 := by
    rcases List.mem_cons.mp hletter with heq | hmem
    · obtain ⟨-, hlen⟩ := Prod.mk.inj heq
      omega
    · obtain ⟨-, hlen⟩ := Prod.mk.inj (List.mem_singleton.mp hmem)
      omega
  obtain ⟨ps₁, hgetc, hahead₁, -, -⟩ := yylexGetc_cons hahead
  obtain ⟨type, ps', hahead', hescape⟩ : ∃ type ps', Ahead ps' rest ∧
      yylexTokenEscape w t.ps = appendChar w type ps' (hexValue ds.dropLast) := by
    rw [yylexTokenEscape, hgetc]
    rcases List.mem_cons.mp hletter with heq | hmem
    · obtain ⟨rfl, hsize⟩ := Prod.mk.inj heq
      obtain ⟨ps', hahead', hunicode⟩ := yylexTokenUnicode_ok w "u" hds hlen.1 hlen.2 hahead₁
      rw [hsize] at hunicode
      exact ⟨"u", ps', hahead', hunicode⟩
    · obtain ⟨rfl, hsize⟩ := Prod.mk.inj (List.mem_singleton.mp hmem)
      obtain ⟨ps', hahead', hunicode⟩ := yylexTokenUnicode_ok w "U" hds hlen.1 hlen.2 hahead₁
      rw [hsize] at hunicode
      exact ⟨"U", ps', hahead', hunicode⟩
  have hturn : tokenTurn w fuel t =
      .ok (addPart t (appendChar w type ps' (hexValue ds.dropLast))) := by
    have hquotes : t.state ≠ .singleQuotes := by
      rcases hstate with hstate | hstate <;> rw [hstate] <;> exact fun h => (nomatch h)
    rw [tokenTurn, hch]
    dsimp only
    rw [if_neg (fun h => absurd h.2 (by decide)), tokenChar,
      if_neg (fun h => absurd h.2 (by decide)), if_neg (fun h => absurd h.1 (by decide)),
      if_pos ⟨rfl, hquotes⟩, hescape]
    rfl
  have hnumber := hexValue_dropLast hds hlen.1 hlen.2
  rw [hvalue] at hnumber
  constructor
  · rintro ⟨t', hnext, hbuf, -⟩
    rw [hturn] at hnext
    have hadd : w.wctomb (hexValue ds.dropLast) = some (String.utf8EncodeChar c) := by
      rw [appendChar] at hnext
      rcases hm : w.wctomb (hexValue ds.dropLast) with _ | m
      · simp [hm, addPart] at hnext
      · simp only [hm] at hnext
        split_ifs at hnext
        · simp [addPart] at hnext
        · simp only [addPart, Except.ok.injEq, Turn.next.injEq] at hnext
          rw [← hnext] at hbuf
          rw [List.append_cancel_left hbuf]
    -- The number without its last digit is that of the same character.
    by_cases hscalar : ∃ c' : Char, c'.val = hexValue ds.dropLast
    · obtain ⟨c', hc'⟩ := hscalar
      rw [← hc', hw.scalar] at hadd
      rw [← hc', utf8EncodeChar_inj (Option.some.inj hadd)] at hnumber
      apply UInt32.toNat.inj
      change c.val.toNat = 0
      omega
    · exact absurd hadd (hw.other _ (fun c' hc' => hscalar ⟨c', hc'⟩) c)
  · intro hzero
    have hsame : hexValue ds.dropLast = c.val := by
      apply UInt32.toNat.inj
      rw [hnumber, hzero]
      rfl
    have hroom : ¬ ((String.utf8EncodeChar c).length = 0 ∨
        w.sizeofM < (String.utf8EncodeChar c).length) := by
      have hpos := c.utf8Size_pos
      have hle := c.utf8Size_le_four
      have := hw.room
      rw [String.length_utf8EncodeChar]
      omega
    have happend : appendChar w type ps' (hexValue ds.dropLast) =
        (ps', some (String.utf8EncodeChar c)) := by
      rw [appendChar, hsame, hw.scalar]
      exact if_neg hroom
    refine ⟨{ t with ps := ps', buf := t.buf ++ String.utf8EncodeChar c, last := t.state }, ?_, rfl,
      rfl, rfl, hahead'⟩
    rw [hturn, happend]
    rfl

/-- A locale with UTF-8 and nothing in the environment. -/
def plainWorld : World where
  environ _ := none
  ownHome := none
  homeOf _ := none
  wctomb n := if h : n.isValidChar then some (String.utf8EncodeChar ⟨n, h⟩) else none
  sizeofM := 6

theorem plainWorld_utf8 : plainWorld.Utf8 where
  scalar c := dif_pos c.valid
  other n hn c heq := by
    have hinvalid : ¬ n.isValidChar := fun hvalid => hn ⟨n, hvalid⟩ rfl
    change (if h : n.isValidChar then some (String.utf8EncodeChar ⟨n, h⟩) else none) = _ at heq
    rw [dif_neg hinvalid] at heq
    cases heq
  room := by decide

/-- In double quotes, behind the backslash of `\u00e9`. -/
def acuteLoop : Loop where
  ps := ⟨.buffer (bytes ['u', '0', '0', 'e', '9']) 0, none, 1, false, false, false, 0, none⟩
  ch := some '\\'.toUInt8
  state := .doubleQuotes
  last := .doubleQuotes
  buf := []

theorem acuteLoop_ahead :
    Ahead acuteLoop.ps ('u'.toUInt8 :: (bytes ['0', '0', 'e', '9'] ++ [])) := ⟨trivial, rfl⟩

/-- In double quotes, behind the backslash of `\u0000x`. -/
def nulLoop : Loop where
  ps := ⟨.buffer (bytes ['u', '0', '0', '0', '0', 'x']) 0, none, 1, false, false, false, 0, none⟩
  ch := some '\\'.toUInt8
  state := .doubleQuotes
  last := .doubleQuotes
  buf := bytes ['a']

theorem nulLoop_appends :
    plainWorld.Utf8 ∧ Appends plainWorld 0 nulLoop (bytes ['x']) (Char.ofNat 0) := by
  have hahead : Ahead nulLoop.ps ('u'.toUInt8 :: (bytes ['0', '0', '0', '0'] ++ bytes ['x'])) :=
    ⟨trivial, rfl⟩
  exact ⟨plainWorld_utf8, (unicode_appends_iff plainWorld_utf8 rfl (.inr rfl) (by decide +kernel)
    (by decide +kernel) (by decide +kernel) hahead 0).mpr rfl⟩

/-- The character that is added has the number 0xe, for 0xe9. -/
theorem acuteLoop_not_appends :
    plainWorld.Utf8 ∧ Ahead acuteLoop.ps ('u'.toUInt8 :: (bytes ['0', '0', 'e', '9'] ++ [])) ∧
      hexValue (bytes ['0', '0', 'e', '9']) = 'é'.val ∧
      ¬ Appends plainWorld 0 acuteLoop [] 'é' := by
  refine ⟨plainWorld_utf8, acuteLoop_ahead, by decide +kernel, ?_⟩
  rintro ⟨t', hturn, hbuf, -⟩
  have hresult : tokenTurn plainWorld 0 acuteLoop = .ok (.next { acuteLoop with
      ps := { acuteLoop.ps with source := .buffer (bytes ['u', '0', '0', 'e', '9']) 5 }
      buf := [0x0e] }) := by decide +kernel
  rw [hturn] at hresult
  obtain rfl := Turn.next.inj (Except.ok.inj hresult)
  exact absurd hbuf (by decide +kernel)

end Ztmux.Commands
