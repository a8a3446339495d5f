import Ztmux.Commands.Quoted

/-!
Replacing the placeholders of a template.

The text is walked by its characters and each is written as one byte, its lowest, and that byte is
the one that is looked for among those to escape. So a text is put into a template only if each of
its characters is a byte.
-/

namespace Ztmux.Commands

/-! ### Model -/

def quote : List UInt8 := bytes ['"', '\\', '$', ';', '~']

/-- What is written for a character. -/
def replacedChar (quoted : Bool) (c : Char) : List UInt8 :=
  (if quoted ∧ strchr quote (some c.val.toUInt8) then ['\\'.toUInt8] else []) ++ [c.val.toUInt8]

/-- The loop over the template, which takes at least one byte in each turn. -/
def templateLoop (s : List Char) (idx : Int) : Nat → Bool → List UInt8 → List UInt8 → List UInt8
  | 0, _, _, buf => buf
  | _ + 1, _, [], buf => buf
  | turns + 1, replaced, ch :: ptr, buf =>
      let next := ptr.headD 0
      let other := next < '1'.toUInt8 ∨ '9'.toUInt8 < next ∨ (next.toNat : Int) - 48 ≠ idx
      if ch ≠ '%'.toUInt8 ∨ (other ∧ (next ≠ '%'.toUInt8 ∨ replaced)) then
        templateLoop s idx turns replaced ptr (buf ++ [ch])
      else
        let ptr := ptr.tail
        let quoted := ptr.headD 0 = '%'.toUInt8
        templateLoop s idx turns (replaced || other) (if quoted then ptr.tail else ptr)
          (buf ++ s.flatMap (replacedChar quoted))

/-- Replace the first `%%` or `%idx` in template by s. -/
def cmdTemplateReplace (template : List UInt8) (s : Option String) (idx : Int) : List UInt8 :=
  if '%'.toUInt8 ∉ template then template
  else cString (templateLoop (s.getD "").toList idx template.length false template [])

/-! ### The placeholders of a template -/

inductive Piece
  | byte (c : UInt8)
  | placeholder (quoted : Bool)
  deriving DecidableEq, Repr

/-- The digit of an index. -/
def IsIndex (idx : Int) (c : UInt8) : Prop :=
  '1'.toUInt8 ≤ c ∧ c ≤ '9'.toUInt8 ∧ (c.toNat : Int) - 48 = idx

instance (idx : Int) (c : UInt8) : Decidable (IsIndex idx c) := inferInstanceAs (Decidable (_ ∧ _))

/-- What a template is made of. `%` with the index, and `%%` the first time, are placeholders, which
a further `%` makes quoted. -/
def pieces (idx : Int) : Bool → List UInt8 → List Piece
  | first, c :: d :: e :: rest =>
      if c = '%'.toUInt8 ∧ (IsIndex idx d ∨ (d = '%'.toUInt8 ∧ first)) then
        let first := first && IsIndex idx d
        if e = '%'.toUInt8 then .placeholder true :: pieces idx first rest
        else .placeholder false :: pieces idx first (e :: rest)
      else .byte c :: pieces idx first (d :: e :: rest)
  | first, [c, d] =>
      if c = '%'.toUInt8 ∧ (IsIndex idx d ∨ (d = '%'.toUInt8 ∧ first)) then [.placeholder false]
      else [.byte c, .byte d]
  | _, [c] => [.byte c]
  | _, [] => []

/-- Escape the bytes that have a meaning between double quotes. -/
def escaped (text : List UInt8) : List UInt8 :=
  text.flatMap fun c => if c ∈ quote then ['\\'.toUInt8, c] else [c]

def Piece.render (text : List UInt8) : Piece → List UInt8
  | .byte c => [c]
  | .placeholder false => text
  | .placeholder true => escaped text

def utf8Bytes (s : String) : List UInt8 := s.toList.flatMap String.utf8EncodeChar

/-- The text is put in the places of the placeholders. -/
def Replaces (template : List UInt8) (s : Option String) (idx : Int) : Prop :=
  cmdTemplateReplace template s idx =
    (pieces idx true template).flatMap (Piece.render (utf8Bytes (s.getD "")))

example : pieces 2 true (bytes ['%', '%', '%', '%', '2', '%', '%', 'a']) =
    [.placeholder true, .placeholder true, .byte '%'.toUInt8, .byte 'a'.toUInt8] := by
  decide +kernel

/-! ### Characters -/

/-- A character of one byte, other than the terminator. -/
def IsAscii (c : Char) : Prop := c ≠ '\x00' ∧ c.val < 128

instance (c : Char) : Decidable (IsAscii c) := inferInstanceAs (Decidable (_ ∧ _))

theorem utf8EncodeChar_ascii {c : Char} (h : c.val < 128) :
    String.utf8EncodeChar c = [c.val.toUInt8] := by
  apply String.utf8EncodeChar_eq_singleton
  rw [Char.utf8Size_eq_one_iff, UInt32.le_iff_toNat_le]
  rw [UInt32.lt_iff_toNat_lt] at h
  exact Nat.le_of_lt_succ h

theorem toUInt8_ne_zero {c : Char} (h : IsAscii c) : c.val.toUInt8 ≠ 0 := by
  obtain ⟨hne, hlt⟩ := h
  intro hzero
  apply hne
  have hnat : c.val.toNat % 256 = 0 := congrArg UInt8.toNat hzero
  rw [UInt32.lt_iff_toNat_lt] at hlt
  change c.val.toNat < 128 at hlt
  apply Char.ext
  apply UInt32.toNat.inj
  change c.val.toNat = 0
  omega

/-- The bytes of another character are not ASCII. -/
theorem utf8EncodeChar_high {c : Char} (h : ¬ c.val < 128) :
    2 ≤ (String.utf8EncodeChar c).length ∧ ∀ b ∈ String.utf8EncodeChar c, 0x80 ≤ b := by
  rw [UInt32.lt_iff_toNat_lt] at h
  change ¬ c.val.toNat < 128 at h
  have hbyte : ∀ n, 128 ≤ n → n < 256 → (0x80 : UInt8) ≤ UInt8.ofNat n := by
    intro n hn hlt
    rw [UInt8.le_iff_toNat_le, UInt8.toNat_ofNat', Nat.mod_eq_of_lt hlt]
    exact hn
  fun_cases String.utf8EncodeChar c with
  | case1 v hle => exact absurd (Nat.lt_succ_of_le hle) h
  | case2 v _ _ | case3 v _ _ _ | case4 v _ _ _ =>
      refine ⟨by simp, ?_⟩
      simp only [List.forall_mem_cons, List.not_mem_nil, false_imp_iff, implies_true, and_true]
      refine ⟨hbyte _ (by omega) (by omega), ?_⟩
      first
        | exact hbyte _ (by omega) (by omega)
        | exact ⟨hbyte _ (by omega) (by omega), hbyte _ (by omega) (by omega)⟩
        | exact ⟨hbyte _ (by omega) (by omega), hbyte _ (by omega) (by omega),
            hbyte _ (by omega) (by omega)⟩

theorem escape_high {text : List UInt8} (h : ∀ b ∈ text, 0x80 ≤ b) : escaped text = text := by
  induction text with
  | nil => rfl
  | cons b text ih =>
      obtain ⟨hb, htext⟩ := List.forall_mem_cons.mp h
      have hquote : b ∉ quote := by
        intro hmem
        have hall : ∀ q ∈ quote, ¬ (0x80 : UInt8) ≤ q := by decide +kernel
        exact hall b hmem hb
      rw [escaped, List.flatMap_cons, if_neg hquote]
      exact congrArg (b :: ·) (ih htext)

theorem escaped_append (text more : List UInt8) :
    escaped (text ++ more) = escaped text ++ escaped more :=
  List.flatMap_append

/-- What a placeholder becomes, a character at a time. -/
def encodedChar (quoted : Bool) (c : Char) : List UInt8 :=
  if quoted then escaped (String.utf8EncodeChar c) else String.utf8EncodeChar c

theorem render_placeholder (quoted : Bool) (s : String) :
    (Piece.placeholder quoted).render (utf8Bytes s) = s.toList.flatMap (encodedChar quoted) := by
  cases quoted with
  | false => rfl
  | true =>
      rw [Piece.render, utf8Bytes]
      induction s.toList with
      | nil => rfl
      | cons c cs ih => rw [List.flatMap_cons, List.flatMap_cons, escaped_append, ih]; rfl

theorem replacedChar_ascii {c : Char} (hc : IsAscii c) (quoted : Bool) :
    replacedChar quoted c = encodedChar quoted c := by
  have hstrchr : strchr quote (some c.val.toUInt8) = decide (c.val.toUInt8 ∈ quote) := by
    rw [strchr, beq_eq_false_iff_ne.mpr fun h => toUInt8_ne_zero hc (Option.some.inj h),
      Bool.or_false, Option.getD_some, List.contains_eq_mem]
  rw [replacedChar, encodedChar, utf8EncodeChar_ascii hc.2, hstrchr, escaped,
    List.flatMap_singleton]
  cases quoted with
  | false => rfl
  | true =>
      by_cases hmem : c.val.toUInt8 ∈ quote
      · rw [if_pos ⟨rfl, decide_eq_true hmem⟩, if_pos rfl, if_pos hmem]
        rfl
      · rw [if_neg (fun h => hmem (of_decide_eq_true h.2)), if_pos rfl, if_neg hmem]
        rfl

/-- A character of more than one byte is written wrong. -/
theorem replacedChar_high {c : Char} (hc : ¬ c.val < 128) (quoted : Bool) :
    (replacedChar quoted c).length ≤ (encodedChar quoted c).length ∧
      replacedChar quoted c ≠ encodedChar quoted c := by
  obtain ⟨hlen, hhigh⟩ := utf8EncodeChar_high hc
  have hsame : encodedChar quoted c = String.utf8EncodeChar c := by
    rw [encodedChar, escape_high hhigh, ite_self]
  rw [hsame, replacedChar]
  split_ifs with hslash
  · refine ⟨hlen, fun heq => ?_⟩
    rw [← heq] at hhigh
    exact absurd (hhigh '\\'.toUInt8 (List.mem_append_left _ (List.mem_singleton_self _)))
      (by decide)
  · refine ⟨Nat.le_of_succ_le hlen, fun heq => ?_⟩
    rw [← heq] at hlen
    exact Nat.not_succ_le_self 1 hlen

/-- Two sequences of blocks, where none of the first is longer, are equal only block by block. -/
theorem eq_of_flatMap_eq {α : Type} {f g : α → List UInt8} {l : List α}
    (hle : ∀ x ∈ l, (f x).length ≤ (g x).length) (h : l.flatMap f = l.flatMap g) :
    ∀ x ∈ l, f x = g x := by
  induction l with
  | nil => exact fun x hx => (nomatch hx)
  | cons x l ih =>
      obtain ⟨hx, hl⟩ := List.forall_mem_cons.mp hle
      have hlen : (l.flatMap f).length ≤ (l.flatMap g).length := by
        rw [List.length_flatMap, List.length_flatMap]
        exact List.sum_le_sum hl
      have hsum := congrArg List.length h
      rw [List.flatMap_cons, List.flatMap_cons, List.length_append, List.length_append] at hsum
      rw [List.flatMap_cons, List.flatMap_cons] at h
      obtain ⟨hhead, htail⟩ := List.append_inj h (by omega)
      exact List.forall_mem_cons.mpr ⟨hhead, ih hl htail⟩

/-! ### The loop -/

variable {template : List UInt8} {idx : Int} {first : Bool}

/-- What the code writes for a piece. -/
def Piece.written (s : List Char) : Piece → List UInt8
  | .byte c => [c]
  | .placeholder quoted => s.flatMap (replacedChar quoted)

theorem templateLoop_eq (s : List Char) (turns : Nat) (replaced : Bool) {ptr : List UInt8}
    (h : ptr.length ≤ turns) (buf : List UInt8) : templateLoop s idx turns replaced ptr buf =
      buf ++ (pieces idx (!replaced) ptr).flatMap (Piece.written s) := by
  have hother : ∀ d : UInt8, (d < '1'.toUInt8 ∨ '9'.toUInt8 < d ∨ (d.toNat : Int) - 48 ≠ idx) ↔
      ¬ IsIndex idx d := by
    intro d
    rw [IsIndex, not_and_or, not_and_or, UInt8.not_le, UInt8.not_le]
  have hplain : ∀ (c d : UInt8) (replaced : Bool),
      (c ≠ '%'.toUInt8 ∨ (¬ IsIndex idx d ∧ (d ≠ '%'.toUInt8 ∨ replaced = true))) ↔
        ¬ (c = '%'.toUInt8 ∧ (IsIndex idx d ∨ (d = '%'.toUInt8 ∧ (!replaced) = true))) := by
    intro c d replaced
    rw [not_and_or, not_or, not_and_or, Bool.not_eq_true', Bool.not_eq_false]
  induction turns generalizing replaced ptr buf with
  | zero =>
      obtain rfl : ptr = [] := List.eq_nil_of_length_eq_zero (Nat.le_zero.mp h)
      simp [templateLoop, pieces]
  | succ turns ih =>
      rcases ptr with _ | ⟨c, ptr⟩
      · simp [templateLoop, pieces]
      rw [templateLoop]
      simp only [hother, hplain]
      rcases ptr with _ | ⟨d, ptr⟩
      · have hend : ¬ (c = '%'.toUInt8 ∧
          (IsIndex idx 0 ∨ ((0 : UInt8) = '%'.toUInt8 ∧ (!replaced) = true))) := by
          rintro ⟨-, hindex | hpercent⟩
          · exact absurd hindex.1 (by decide)
          · exact absurd hpercent.1 (by decide)
        rw [List.headD_nil, if_pos hend, ih _ (Nat.zero_le _)]
        simp [pieces, Piece.written]
      · rw [List.headD_cons]
        by_cases hplace : c = '%'.toUInt8 ∧ (IsIndex idx d ∨ (d = '%'.toUInt8 ∧ (!replaced) = true))
        · have hfirst : (!(replaced || decide (¬ IsIndex idx d))) =
              (!replaced && decide (IsIndex idx d)) := by
            rw [Bool.not_or, decide_not, Bool.not_not]
          rw [if_neg (not_not.mpr hplace), List.tail_cons]
          rcases ptr with _ | ⟨e, rest⟩
          · have hzero : decide ((0 : UInt8) = '%'.toUInt8) = false := by decide
            rw [List.headD_nil, if_neg (by decide), ih _ (Nat.zero_le _), pieces, if_pos hplace,
              hzero]
            simp [pieces, Piece.written]
          · rw [List.headD_cons, List.tail_cons, pieces, if_pos hplace]
            dsimp only
            by_cases hquoted : e = '%'.toUInt8
            · rw [if_pos hquoted, if_pos hquoted, ih _ (by simp at h ⊢; omega), hfirst,
                List.append_assoc]
              simp [Piece.written, hquoted]
            · rw [if_neg hquoted, if_neg hquoted, ih _ (by simp at h ⊢; omega), hfirst,
                List.append_assoc]
              simp [Piece.written, hquoted]
        · rw [if_pos hplace, ih _ (by simpa using h)]
          rcases ptr with _ | ⟨e, rest⟩
          · rw [pieces.eq_2, if_neg hplace]
            simp [pieces, Piece.written]
          · rw [pieces.eq_1, if_neg hplace]
            simp [Piece.written]

theorem byte_mem_pieces {c : UInt8} (h : .byte c ∈ pieces idx first template) : c ∈ template := by
  fun_induction pieces idx first template with
  | case1 first a d rest _ _ ih =>
      have hmem := ih (by simpa using h)
      exact List.mem_cons_of_mem _ (List.mem_cons_of_mem _ (List.mem_cons_of_mem _ hmem))
  | case2 first a d e rest _ _ _ ih =>
      have hmem := ih (by simpa using h)
      exact List.mem_cons_of_mem _ (List.mem_cons_of_mem _ hmem)
  | case3 first a d e rest _ ih =>
      rcases List.mem_cons.mp h with heq | hmem
      · rw [Piece.byte.inj heq]
        exact List.mem_cons_self
      · exact List.mem_cons_of_mem _ (ih hmem)
  | case4 first a d _ => simp at h
  | case5 first a d _ => simpa using h
  | case6 first a => simpa using h
  | case7 => simp at h

theorem pieces_eq_map (h : ∀ quoted, .placeholder quoted ∉ pieces idx first template) :
    pieces idx first template = template.map .byte := by
  fun_induction pieces idx first template with
  | case1 first a d rest _ _ ih => exact absurd List.mem_cons_self (h _)
  | case2 first a d e rest _ _ _ ih => exact absurd List.mem_cons_self (h _)
  | case3 first a d e rest _ ih =>
      rw [ih fun quoted hmem => h quoted (List.mem_cons_of_mem _ hmem)]
      rfl
  | case4 first a d _ => exact absurd List.mem_cons_self (h false)
  | case5 first a d _ | case6 first a | case7 => rfl

theorem percent_mem_of_placeholder {quoted : Bool}
    (h : .placeholder quoted ∈ pieces idx first template) :
    '%'.toUInt8 ∈ template := by
  fun_induction pieces idx first template with
  | case1 first a d rest hplace _ _
  | case2 first a d e rest hplace _ _ _
  | case4 first a d hplace =>
      rw [hplace.1]
      exact List.mem_cons_self
  | case3 first a d e rest _ ih => exact List.mem_cons_of_mem _ (ih (by simpa using h))
  | case5 first a d _ | case6 first a | case7 => simp at h

theorem written_eq_render {s : Option String}
    (h : (∀ quoted, .placeholder quoted ∉ pieces idx first template) ∨ ∀ c ∈ (s.getD "").toList,
      IsAscii c) :
    (pieces idx first template).flatMap (Piece.written (s.getD "").toList) =
      (pieces idx first template).flatMap (Piece.render (utf8Bytes (s.getD ""))) := by
  apply List.flatMap_congr
  intro piece hpiece
  cases piece with
  | byte c => rfl
  | placeholder quoted =>
      rcases h with hnone | hascii
      · exact absurd hpiece (hnone quoted)
      · rw [render_placeholder, Piece.written]
        exact List.flatMap_congr fun c hc => replacedChar_ascii (hascii c hc) quoted

theorem cString_eq {buf : List UInt8} (h : 0 ∉ buf) : cString buf = buf :=
  List.takeWhile_eq_self_iff.mpr fun _ hc => decide_eq_true fun heq => h (heq ▸ hc)

theorem zero_notMem_cString (buf : List UInt8) : 0 ∉ cString buf := by
  intro h
  rw [cString] at h
  simpa using List.mem_takeWhile_imp h

theorem zero_mem_encodedChar (quoted : Bool) : 0 ∈ encodedChar quoted '\x00' := by
  cases quoted <;> decide +kernel

/-- The text is put in its places exactly when there are none, or when it is ASCII. -/
theorem replaces_iff (htemplate : 0 ∉ template) (s : Option String) (idx : Int) :
    Replaces template s idx ↔ (∀ quoted, .placeholder quoted ∉ pieces idx true template) ∨
      ∀ c ∈ (s.getD "").toList, IsAscii c := by
  have hloop : templateLoop (s.getD "").toList idx template.length false template [] =
      (pieces idx true template).flatMap (Piece.written (s.getD "").toList) := by
    rw [templateLoop_eq _ _ _ (Nat.le_refl _), List.nil_append]
    rfl
  constructor
  · intro hreplaces
    by_contra hfail
    rw [not_or, not_forall, not_forall] at hfail
    obtain ⟨⟨quoted, hplace⟩, c, hc⟩ := hfail
    rw [not_not] at hplace
    rw [Classical.not_imp] at hc
    obtain ⟨hc, hascii⟩ := hc
    rw [Replaces, cmdTemplateReplace, if_neg (not_not.mpr (percent_mem_of_placeholder hplace)),
      hloop]
      at hreplaces
    -- A terminator in the text ends the result.
    have hnul : ∀ c ∈ (s.getD "").toList, c ≠ '\x00' := by
      rintro c hmem rfl
      apply zero_notMem_cString
      rw [hreplaces]
      refine List.mem_flatMap.mpr ⟨_, hplace, ?_⟩
      rw [render_placeholder]
      exact List.mem_flatMap.mpr ⟨_, hmem, zero_mem_encodedChar quoted⟩
    have hchar : ∀ quoted, ∀ c ∈ (s.getD "").toList,
        (replacedChar quoted c).length ≤ (encodedChar quoted c).length := by
      intro quoted c hmem
      by_cases hlow : c.val < 128
      · rw [replacedChar_ascii ⟨hnul c hmem, hlow⟩]
      · exact (replacedChar_high hlow quoted).1
    have hpiece : ∀ piece ∈ pieces idx true template,
        (piece.written (s.getD "").toList).length ≤
          (piece.render (utf8Bytes (s.getD ""))).length := by
      intro piece _
      cases piece with
      | byte c => exact Nat.le_refl _
      | placeholder quoted =>
          rw [render_placeholder, Piece.written, List.length_flatMap, List.length_flatMap]
          exact List.sum_le_sum (hchar quoted)
    have hwritten : (pieces idx true template).flatMap (Piece.written (s.getD "").toList) =
        (pieces idx true template).flatMap (Piece.render (utf8Bytes (s.getD ""))) := by
      rw [← hreplaces]
      symm
      apply (List.takeWhile_prefix _).eq_of_length_le
      change _ ≤ (cString _).length
      rw [hreplaces, List.length_flatMap, List.length_flatMap]
      exact List.sum_le_sum hpiece
    have hsame := eq_of_flatMap_eq hpiece hwritten _ hplace
    rw [render_placeholder] at hsame
    have hblock := eq_of_flatMap_eq (hchar quoted) hsame c hc
    exact (replacedChar_high (fun hlow => hascii ⟨hnul c hc, hlow⟩) quoted).2 hblock
  · intro h
    have hwritten := written_eq_render h
    have hzero : 0 ∉ (pieces idx true template).flatMap (Piece.render (utf8Bytes (s.getD ""))) := by
      intro hzero
      obtain ⟨piece, hpiece, hmem⟩ := List.mem_flatMap.mp hzero
      cases piece with
      | byte c =>
          rw [Piece.render, List.mem_singleton] at hmem
          exact htemplate (hmem ▸ byte_mem_pieces hpiece)
      | placeholder quoted =>
          rcases h with hnone | hascii
          · exact hnone quoted hpiece
          · rw [render_placeholder] at hmem
            obtain ⟨c, hc, hzero⟩ := List.mem_flatMap.mp hmem
            rw [← replacedChar_ascii (hascii c hc), replacedChar] at hzero
            rcases List.mem_append.mp hzero with hslash | hchar
            · split_ifs at hslash
              · exact absurd (List.mem_singleton.mp hslash) (by decide)
              · cases hslash
            · exact toUInt8_ne_zero (hascii c hc) (List.mem_singleton.mp hchar).symm
    rw [Replaces, cmdTemplateReplace]
    by_cases hpercent : '%'.toUInt8 ∈ template
    · rw [if_neg (not_not.mpr hpercent), hloop, hwritten, cString_eq hzero]
    · rw [if_pos hpercent,
        pieces_eq_map fun quoted hmem => hpercent (percent_mem_of_placeholder hmem),
        List.flatMap_map]
      exact (List.flatMap_singleton' template).symm

end Ztmux.Commands
