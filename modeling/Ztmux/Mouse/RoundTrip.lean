import Ztmux.Mouse.Numbers

/-!
A report is read back as the event it was written for, and a part of one asks for the rest. The
reader stays inside its buffer; its numbers do where the terminal's do.
-/

namespace Ztmux.Mouse

variable {last : LastMouse} {m : MouseEvent} {buf s : List UInt8}

/-- What is left behind a number and the byte that ends it. -/
def rest (s : List UInt8) : List UInt8 := (s.dropWhile isDigit).tail

theorem drop_scan (stops : UInt8 → Bool) (buf : List UInt8) (size : Nat) (n : Number) :
    buf.drop (scan stops (buf.drop size) size n).size = rest (buf.drop size) := by
  have hsplit := List.takeWhile_append_dropWhile (p := isDigit) (l := buf.drop size)
  rw [scan, rest, Nat.add_assoc, ← List.drop_drop, ← List.drop_drop]
  generalize (buf.drop size).takeWhile isDigit = ds at hsplit ⊢
  generalize (buf.drop size).dropWhile isDigit = t at hsplit ⊢
  rw [← hsplit, List.drop_left]
  cases t with
  | nil => rfl
  | cons ch t =>
    rw [List.length_cons, Nat.min_eq_right (Nat.succ_le_succ (Nat.zero_le _))]
    rfl

def stopsField (ch : UInt8) : Bool := ch == semicolon

def stopsReport (ch : UInt8) : Bool := ch == press || ch == release

theorem isDigit_of_stopsField {ch : UInt8} (h : stopsField ch) : isDigit ch = false := by
  obtain rfl := beq_iff_eq.mp h
  decide

theorem isDigit_of_stopsReport {ch : UInt8} (h : stopsReport ch) : isDigit ch = false := by
  rcases Bool.or_eq_true_iff.mp h with h | h
  · obtain rfl := beq_iff_eq.mp h
    decide
  · obtain rfl := beq_iff_eq.mp h
    decide

/-- The three numbers of `s`, which starts at `size`, and what they say. -/
def sgrOf (last : LastMouse) (m : MouseEvent) (s : List UInt8) (size : Nat) : Exec MouseRead :=
  let b := scan stopsField s size .zero
  andThen last m false b fun _ =>
    let x := scan stopsField (rest s) b.size .zero
    andThen last m b.number.wrapped x fun _ =>
      let y := scan stopsReport (rest (rest s)) x.size .zero
      andThen last m (b.number.wrapped || x.number.wrapped) y fun ch =>
        .ok (sgrEvent last m y.size b.number.value x.number.value y.number.value ch
          (b.number.wrapped || x.number.wrapped || y.number.wrapped))

theorem readSgr_eq : readSgr last buf m = sgrOf last m (buf.drop 3) 3 := by
  have hfield : ∀ size, readNumber buf (· == semicolon) (buf.length + 1) size .zero =
      .ok (scan stopsField (buf.drop size) size .zero) := fun size =>
    readNumber_eq (fun _ => isDigit_of_stopsField) (by omega)
  have hreport : ∀ size, readNumber buf (fun ch => ch == press || ch == release) (buf.length + 1)
      size
      .zero = .ok (scan stopsReport (buf.drop size) size .zero) := fun size =>
    readNumber_eq (fun _ => isDigit_of_stopsReport) (by omega)
  simp only [readSgr, sgrOf, hfield, hreport, ok_bind, drop_scan]

/-- Three bytes say that a report in the SGR format follows. -/
theorem ttyKeysMouse_sgr (h : buf = esc :: bracket :: less :: s) :
    ttyKeysMouse last buf m = sgrOf last m s 3 := by
  subst h
  have hread : readSgr last (esc :: bracket :: less :: s) m = sgrOf last m s 3 := readSgr_eq
  rw [ttyKeysMouse, ← hread]
  rfl

/-! ## Numbers that have no place -/

/-- Of `k` numbers, those that are there have a place in 32 bits. -/
def FieldsFit : Nat → List UInt8 → Prop
  | 0, _ => True
  | k + 1, s => digitsValue 0 (s.takeWhile isDigit) < 2 ^ 32 ∧
      ∀ t, s.dropWhile isDigit = semicolon :: t → FieldsFit k t

/-- The numbers of a report in the SGR format have a place in 32 bits. -/
def NumbersFit (buf : List UInt8) : Prop :=
  ∀ s, buf = esc :: bracket :: less :: s → FieldsFit 3 s

theorem scan_wrapped_iff (stops : UInt8 → Bool) (s : List UInt8) (size : Nat) :
    (scan stops s size .zero).number.wrapped = false ↔ digitsValue 0 (s.takeWhile isDigit) <
      2 ^ 32 :=
  Number.wrapped_zero_iff fun _ => mem_takeWhile_isDigit

theorem ending_stop {stops : UInt8 → Bool} {size : Nat} {n : Number} {ch : UInt8}
    (h : (scan stops s size n).ending = .stop ch) :
    s.dropWhile isDigit = ch :: rest s ∧ stops ch := by
  rw [scan, rest] at *
  cases hs : s.dropWhile isDigit with
  | nil =>
    rw [hs] at h
    cases h
  | cons c t =>
    rw [hs] at h
    by_cases hstop : stops c
    · rw [endingOf, if_pos hstop] at h
      obtain rfl := NumberEnd.stop.inj h
      exact ⟨rfl, hstop⟩
    · rw [endingOf, if_neg hstop] at h
      cases h

/-- A number that does not end at a semicolon is the last. -/
theorem fieldsFit_of_last {k : Nat} (h : ∀ t, s.dropWhile isDigit ≠ semicolon :: t) :
    FieldsFit (k + 1) s ↔ digitsValue 0 (s.takeWhile isDigit) < 2 ^ 32 :=
  ⟨fun hfit => hfit.1, fun hfit => ⟨hfit, fun t ht => absurd ht (h t)⟩⟩

theorem not_semicolon {stops : UInt8 → Bool} {size : Nat} {n : Number}
    (hstops : stops semicolon) (h : ∀ ch, (scan stops s size n).ending ≠ .stop ch)
    (t : List UInt8) :
    s.dropWhile isDigit ≠ semicolon :: t := by
  intro hs
  refine h semicolon ?_
  rw [scan, hs, endingOf, if_pos hstops]

theorem andThen_ok {wrapped : Bool} {r : NumberRead} {k : UInt8 → Exec MouseRead} {P : Prop}
    (hlast : (∀ ch, r.ending ≠ .stop ch) → (wrapped = false ∧ r.number.wrapped = false ↔ P))
    (hstop : ∀ ch, r.ending = .stop ch → ∃ o, k ch = .ok o ∧ (o.wrapped = false ↔ P)) :
    ∃ o, andThen last m wrapped r k = .ok o ∧ (o.wrapped = false ↔ P) := by
  rw [andThen]
  cases hend : r.ending with
  | stop ch => exact hstop ch hend
  | more =>
    refine ⟨_, rfl, Iff.trans Bool.or_eq_false_iff (hlast fun ch h => ?_)⟩
    rw [hend] at h
    cases h
  | bad =>
    refine ⟨_, rfl, Iff.trans Bool.or_eq_false_iff (hlast fun ch h => ?_)⟩
    rw [hend] at h
    cases h

theorem sgrEvent_wrapped (size : Nat) (sgrB x y : UInt32) (ch : UInt8) (wrapped : Bool) :
    (sgrEvent last m size sgrB x y ch wrapped).wrapped = wrapped := by
  rw [sgrEvent]
  split_ifs
  · rfl
  · rfl
  · rfl
  · rfl

theorem fieldsFit_cons {k : Nat} {t : List UInt8} (h : s.dropWhile isDigit = semicolon :: t) :
    FieldsFit (k + 1) s ↔ digitsValue 0 (s.takeWhile isDigit) < 2 ^ 32 ∧ FieldsFit k t := by
  refine and_congr_right fun _ => ⟨fun hfit => hfit t h, fun hfit t' ht' => ?_⟩
  obtain rfl : t = t' := (List.cons.inj (h.symm.trans ht')).2
  exact hfit

/-- The reader returns, and says whether a number had no place. -/
theorem sgrOf_ok (last : LastMouse) (m : MouseEvent) (s : List UInt8) (size : Nat) :
    ∃ o, sgrOf last m s size = .ok o ∧ (o.wrapped = false ↔ FieldsFit 3 s) := by
  have hsemicolon : ∀ {ch}, stopsField ch → ch = semicolon := fun h => beq_iff_eq.mp h
  refine andThen_ok ?_ fun ch hch => ?_
  · intro hlast
    rw [fieldsFit_of_last (not_semicolon rfl hlast), scan_wrapped_iff]
    exact and_iff_right rfl
  obtain ⟨hs, hstop⟩ := ending_stop hch
  rw [hsemicolon hstop] at hs
  rw [fieldsFit_cons hs, ← scan_wrapped_iff stopsField s size]
  refine andThen_ok ?_ fun ch hch => ?_
  · intro hlast
    rw [fieldsFit_of_last (not_semicolon rfl hlast), scan_wrapped_iff stopsField (rest s)]
  obtain ⟨hs, hstop⟩ := ending_stop hch
  rw [hsemicolon hstop] at hs
  rw [fieldsFit_cons hs, ← scan_wrapped_iff stopsField (rest s) (scan stopsField s size .zero).size]
  -- whatever stands behind the third number, there is no fourth
  have hthird : FieldsFit 1 (rest (rest s)) ↔
      digitsValue 0 ((rest (rest s)).takeWhile isDigit) < 2 ^ 32 :=
    and_iff_left fun _ _ => trivial
  refine andThen_ok ?_ fun ch hch => ⟨_, rfl, ?_⟩
  · intro hlast
    rw [hthird, scan_wrapped_iff stopsReport, Bool.or_eq_false_iff, and_assoc]
  · rw [sgrEvent_wrapped, hthird, Bool.or_eq_false_iff, Bool.or_eq_false_iff,
      scan_wrapped_iff stopsReport, and_assoc]

theorem readLegacy_ok (last : LastMouse) (m : MouseEvent) (buf : List UInt8) :
    ∃ o, readLegacy last buf m = .ok o ∧ o.wrapped = false := by
  rw [readLegacy]
  by_cases h₃ : buf.length ≤ 3
  · rw [if_pos h₃]
    exact ⟨_, rfl, rfl⟩
  rw [if_neg h₃, byteAt_ok (not_le.mp h₃), ok_bind]
  by_cases h₄ : buf.length ≤ 4
  · rw [if_pos h₄]
    exact ⟨_, rfl, rfl⟩
  rw [if_neg h₄, byteAt_ok (not_le.mp h₄), ok_bind]
  by_cases h₅ : buf.length ≤ 5
  · rw [if_pos h₅]
    exact ⟨_, rfl, rfl⟩
  rw [if_neg h₅, byteAt_ok (not_le.mp h₅), ok_bind]
  split_ifs
  · exact ⟨_, rfl, rfl⟩
  · exact ⟨_, rfl, rfl⟩

/-- Whatever does not start as a report in the SGR format does has no number to read. -/
theorem ttyKeysMouse_not_sgr (hne : buf ≠ []) (h : ∀ t, buf ≠ esc :: bracket :: less :: t) :
    ∃ o, ttyKeysMouse last buf m = .ok o ∧ o.wrapped = false := by
  obtain ⟨first, tail, rfl⟩ := List.exists_cons_of_ne_nil hne
  by_cases hfirst : first = esc
  swap
  · exact ⟨_, if_pos hfirst, rfl⟩
  subst hfirst
  cases tail with
  | nil => exact ⟨_, rfl, rfl⟩
  | cons second tail =>
    by_cases hsecond : second = bracket
    swap
    · exact ⟨_, if_pos hsecond, rfl⟩
    subst hsecond
    cases tail with
    | nil => exact ⟨_, rfl, rfl⟩
    | cons third tail =>
      by_cases hthird : third = press
      · subst hthird
        exact readLegacy_ok last m _
      · have hless : third ≠ less := fun hless => h tail (by rw [hless])
        exact ⟨_, (if_neg hthird).trans (if_neg hless), rfl⟩

/-- The reader reads a byte that is not there exactly where there is none at all. -/
theorem ttyKeysMouse_ok (last : LastMouse) (m : MouseEvent) (buf : List UInt8) :
    (∃ o, ttyKeysMouse last buf m = .ok o ∧ o.wrapped = false) ↔ buf ≠ [] ∧ NumbersFit buf := by
  by_cases hsgr : ∃ s, buf = esc :: bracket :: less :: s
  · obtain ⟨s, rfl⟩ := hsgr
    obtain ⟨o, ho, hwrapped⟩ := sgrOf_ok last m s 3
    rw [ttyKeysMouse_sgr rfl, ho]
    constructor
    · rintro ⟨o', ho', hfalse⟩
      obtain rfl := Except.ok.inj ho'
      refine ⟨List.cons_ne_nil _ _, fun t ht => ?_⟩
      simp only [List.cons.injEq, true_and] at ht
      exact ht ▸ hwrapped.mp hfalse
    · rintro ⟨-, hfit⟩
      exact ⟨o, rfl, hwrapped.mpr (hfit s rfl)⟩
  · have hfit : NumbersFit buf := fun s hs => absurd ⟨s, hs⟩ hsgr
    rw [and_iff_left hfit]
    constructor
    · rintro ⟨o, ho, -⟩ rfl
      cases ho
    · exact fun hne => ttyKeysMouse_not_sgr hne fun t ht => hsgr ⟨t, ht⟩

/-! ## What is written is read back -/

/-- `report` is read as an event that `P` holds of, to its end and no further whatever follows it,
and a part of it asks for the rest. -/
def ReadBack (last : LastMouse) (event : MouseEvent) (report : List UInt8)
    (P : MouseEvent → Prop) : Prop :=
  (∀ more : List UInt8, ∃ o, ttyKeysMouse last (report ++ more) event = .ok o ∧ o.ret = 0 ∧
    o.size = report.length ∧ P o.m) ∧
  ∀ part : List UInt8, part <+: report → part ≠ [] → part ≠ report →
    ∃ o, ttyKeysMouse last part event = .ok o ∧ o.ret = 1

theorem rest_decimal (n : Nat) {ch : UInt8} (t : List UInt8) (h : isDigit ch = false) :
    rest (decimalBytes n ++ ch :: t) = t := by
  have hdigits : ∀ b ∈ decimalBytes n, isDigit b := fun b => isDigit_of_mem_decimalBytes
  rw [rest, (takeWhile_digits hdigits h).2]
  rfl

/-- The bytes of a report behind the three that start it. -/
def sgrBody (sgrB x y : UInt32) (ch : UInt8) : List UInt8 :=
  decimalBytes sgrB.toNat ++ semicolon :: (decimalBytes x.toNat ++
    semicolon :: (decimalBytes y.toNat ++ [ch]))

theorem sgrOf_body {ch : UInt8} (sgrB x y : UInt32) (more : List UInt8) (hch : stopsReport ch) :
    sgrOf last m (sgrBody sgrB x y ch ++ more) 3 =
      .ok (sgrEvent last m (3 + (sgrBody sgrB x y ch).length) sgrB x y ch false) := by
  have hsemicolon : isDigit semicolon = false := by decide
  have hbody : sgrBody sgrB x y ch ++ more = decimalBytes sgrB.toNat ++ semicolon ::
      (decimalBytes x.toNat ++ semicolon :: (decimalBytes y.toNat ++ ch :: more)) := by
    simp only [sgrBody, List.append_assoc, List.cons_append, List.nil_append]
  have hlength : (sgrBody sgrB x y ch).length = (decimalBytes sgrB.toNat).length + 1 +
      ((decimalBytes x.toNat).length + 1 + ((decimalBytes y.toNat).length + 1)) := by
    simp only [sgrBody, List.length_append, List.length_cons, List.length_nil]
    omega
  rw [hbody, hlength, sgrOf]
  simp only [scan_decimal stopsField _ rfl hsemicolon, rest_decimal _ _ hsemicolon,
    scan_decimal stopsReport _ hch (isDigit_of_stopsReport hch), andThen, Bool.or_false,
    Nat.add_assoc]

theorem sgrOf_part {ch : UInt8} {p : List UInt8} (sgrB x y : UInt32)
    (hp : p <+: sgrBody sgrB x y ch) (hne : p ≠ sgrBody sgrB x y ch) :
    ∃ o, sgrOf last m p 3 = .ok o ∧ o.ret = 1 := by
  have hsemicolon : isDigit semicolon = false := by decide
  have hdigits : ∀ (v : UInt32) {q : List UInt8}, q <+: decimalBytes v.toNat → ∀ b ∈ q, isDigit b :=
    fun v _ hq b hb => isDigit_of_mem_decimalBytes (hq.subset hb)
  rcases isPrefix_cut hp with hb | ⟨p₁, rfl, hp₁⟩
  · rw [sgrOf, andThen, scan_part 3 (hdigits _ hb)]
    exact ⟨_, rfl, rfl⟩
  rw [sgrOf, scan_decimal stopsField 3 rfl hsemicolon, rest_decimal _ _ hsemicolon]
  rcases isPrefix_cut hp₁ with hx | ⟨p₂, rfl, hp₂⟩
  · simp only [andThen, scan_part _ (hdigits _ hx)]
    exact ⟨_, rfl, rfl⟩
  simp only [andThen, scan_decimal stopsField _ rfl hsemicolon, rest_decimal _ _ hsemicolon]
  rcases isPrefix_cut hp₂ with hy | ⟨p₃, rfl, hp₃⟩
  · simp only [scan_part _ (hdigits _ hy)]
    exact ⟨_, rfl, rfl⟩
  · -- the last byte makes the report whole
    rw [List.prefix_nil] at hp₃
    exact absurd (by rw [hp₃, sgrBody]) hne

theorem sgrReport_eq {ch : UInt8} {x y : UInt32} (htype : m.sgrType.toUInt8 = ch)
    (hch : stopsReport ch) :
    sgrReport m x y = esc :: bracket :: less :: sgrBody m.sgrB (x + 1) (y + 1) ch := by
  have hsplit : inputKeySplit2 ch.toUInt32 = [ch] := by
    rcases Bool.or_eq_true_iff.mp hch with h | h
    · obtain rfl := beq_iff_eq.mp h
      rfl
    · obtain rfl := beq_iff_eq.mp h
      rfl
  rw [sgrReport, htype, hsplit]
  simp only [sgrBody, List.append_assoc, List.cons_append, List.nil_append]

/-- A part of what starts with three bytes is a part of these or goes on behind them. -/
theorem part_cases {a b c : UInt8} {p t : List UInt8} (h : p <+: a :: b :: c :: t) :
    p = [] ∨ p = [a] ∨ p = [a, b] ∨ ∃ q, p = a :: b :: c :: q ∧ q <+: t := by
  rcases List.prefix_cons_iff.mp h with rfl | ⟨p₁, rfl, h₁⟩
  · exact Or.inl rfl
  rcases List.prefix_cons_iff.mp h₁ with rfl | ⟨p₂, rfl, h₂⟩
  · exact Or.inr (Or.inl rfl)
  rcases List.prefix_cons_iff.mp h₂ with rfl | ⟨p₃, rfl, h₃⟩
  · exact Or.inr (Or.inr (Or.inl rfl))
  · exact Or.inr (Or.inr (Or.inr ⟨p₃, rfl, h₃⟩))

/-- Adding one to what is not the greatest number is undone by the reader. -/
theorem not_lt_one_of_succ {x : UInt32} (h : x.toNat < 2 ^ 32 - 1) : ¬ x + 1 < 1 := by
  rw [UInt32.lt_iff_toNat_lt, UInt32.toNat_add]
  show ¬ (x.toNat + 1) % 2 ^ 32 < 1
  omega

theorem sgr_readBack (ch : UInt8) {x y : UInt32} {event : MouseEvent}
    (htype : m.sgrType.toUInt8 = ch) (hch : stopsReport ch)
    (hwheel : ¬ (ch = release ∧ mouseWheel m.sgrB)) (hx : x.toNat < 2 ^ 32 - 1)
    (hy : y.toNat < 2 ^ 32 - 1) :
    ReadBack last event (sgrReport m x y) fun o => o.x = x ∧ o.y = y ∧ o.sgrB = m.sgrB ∧
      o.sgrType = ch.toUInt32 ∧ o.b = if ch = release then 3 else m.sgrB := by
  rw [sgrReport_eq htype hch]
  constructor
  · intro more
    have hread : ttyKeysMouse last
        (esc :: bracket :: less :: sgrBody m.sgrB (x + 1) (y + 1) ch ++ more) event = _ :=
      (ttyKeysMouse_sgr rfl).trans (sgrOf_body m.sgrB (x + 1) (y + 1) more hch)
    have hvalid : ¬ (x + 1 < 1 ∨ y + 1 < 1) :=
      not_or.mpr ⟨not_lt_one_of_succ hx, not_lt_one_of_succ hy⟩
    rw [sgrEvent, if_neg hvalid, if_neg hwheel] at hread
    refine ⟨_, hread, rfl, Nat.add_comm 3 _, ?_, ?_, rfl, rfl, rfl⟩
    · exact add_sub_cancel_right x 1
    · exact add_sub_cancel_right y 1
  · intro part hpart hne hproper
    rcases part_cases hpart with rfl | rfl | rfl | ⟨q, rfl, hq⟩
    · exact absurd rfl hne
    · exact ⟨_, rfl, rfl⟩
    · exact ⟨_, rfl, rfl⟩
    · rw [ttyKeysMouse_sgr rfl]
      exact sgrOf_part m.sgrB (x + 1) (y + 1) hq fun h => hproper (by rw [h])

/-! ## The legacy format -/

/-- The sums that the legacy format is written with have a place in 32 bits. -/
def LegacyFits (m : MouseEvent) (x y : UInt32) : Prop :=
  m.b.toNat + 32 < 2 ^ 32 ∧ x.toNat + 33 < 2 ^ 32 ∧ y.toNat + 33 < 2 ^ 32

/-- The greatest coordinate of the legacy format. -/
def legacyMax : UInt32 := mouseParamMax - mouseParamPosOff

def clampLegacy (x : UInt32) : UInt32 := if legacyMax < x then legacyMax else x

theorem toNat_add_pos (x : UInt32) : (x + mouseParamPosOff).toNat = (x.toNat + 33) % 2 ^ 32 :=
  UInt32.toNat_add ..

theorem toNat_add_btn (b : UInt32) : (b + mouseParamBtnOff).toNat = (b.toNat + 32) % 2 ^ 32 :=
  UInt32.toNat_add ..

theorem legacyPosition_toNat (x : UInt32) : (legacyPosition x).toNat =
    if 255 < (x.toNat + 33) % 2 ^ 32 then 255 else (x.toNat + 33) % 2 ^ 32 := by
  have hlt := toNat_add_pos x
  have hiff : mouseParamMax < x + mouseParamPosOff ↔ 255 < (x.toNat + 33) % 2 ^ 32 := by
    rw [UInt32.lt_iff_toNat_lt, hlt]
    rfl
  rw [legacyPosition]
  split_ifs with h₁ h₂ h₂
  · rfl
  · exact absurd (hiff.mp h₁) h₂
  · exact absurd (hiff.mpr h₂) h₁
  · rw [UInt8.toNat_add, UInt32.toNat_toUInt8]
    show (x.toNat % 2 ^ 8 + 33) % 2 ^ 8 = _
    omega

theorem legacyPosition_fits {x : UInt32} (h : x.toNat + 33 < 2 ^ 32) :
    ¬ (legacyPosition x).toUInt32 < mouseParamPosOff ∧
      (legacyPosition x).toUInt32 - mouseParamPosOff = clampLegacy x := by
  have hread : (legacyPosition x).toUInt32.toNat = min x.toNat 222 + 33 := by
    rw [UInt8.toNat_toUInt32, legacyPosition_toNat, Nat.mod_eq_of_lt h]
    split_ifs with hmax
    · omega
    · omega
  have hclamp : (clampLegacy x).toNat = min x.toNat 222 := by
    have hiff : legacyMax < x ↔ 222 < x.toNat := UInt32.lt_iff_toNat_lt
    rw [clampLegacy]
    split_ifs with hmax
    · exact (Nat.min_eq_right (hiff.mp hmax).le).symm
    · exact (Nat.min_eq_left (not_lt.mp fun h => hmax (hiff.mpr h))).symm
  have hle : mouseParamPosOff ≤ (legacyPosition x).toUInt32 := by
    rw [UInt32.le_iff_toNat_le, hread]
    exact Nat.le_add_left ..
  refine ⟨UInt32.not_lt.mpr hle, UInt32.toNat_inj.mp ?_⟩
  rw [UInt32.toNat_sub_of_le _ _ hle, hread, hclamp]
  exact Nat.add_sub_cancel ..

theorem legacyPosition_wraps {x : UInt32} (h : ¬ x.toNat + 33 < 2 ^ 32) :
    (legacyPosition x).toUInt32 < mouseParamPosOff := by
  have hx := x.toNat_lt
  rw [UInt32.lt_iff_toNat_lt, UInt8.toNat_toUInt32, legacyPosition_toNat, if_neg (by omega)]
  show _ < 33
  omega

theorem legacyButton_byte {b : UInt32} (h : ¬ mouseParamMax < b + mouseParamBtnOff) :
    (b + mouseParamBtnOff).toUInt8.toUInt32 = b + mouseParamBtnOff := by
  have hle : (b + mouseParamBtnOff).toNat ≤ 255 := by
    rw [UInt32.lt_iff_toNat_lt] at h
    exact not_lt.mp h
  rw [← UInt32.toNat_inj, UInt8.toNat_toUInt32, UInt32.toNat_toUInt8, Nat.mod_eq_of_lt (by omega)]

theorem legacyButton_lt_iff {b : UInt32} (h : ¬ mouseParamMax < b + mouseParamBtnOff) :
    b + mouseParamBtnOff < mouseParamBtnOff ↔ ¬ b.toNat + 32 < 2 ^ 32 := by
  have hb := b.toNat_lt
  rw [UInt32.lt_iff_toNat_lt, toNat_add_btn] at h ⊢
  show _ < 32 ↔ _
  replace h : ¬ 255 < (b.toNat + 32) % 2 ^ 32 := h
  omega

/-- What the six bytes of a report in the legacy format are read as, whatever follows them. -/
theorem ttyKeysMouse_legacy (b x y : UInt8) (more : List UInt8) :
    ttyKeysMouse last (esc :: bracket :: press :: b :: x :: y :: more) m = .ok
      (if b.toUInt32 < mouseParamBtnOff ∨ x.toUInt32 < mouseParamPosOff ∨
          y.toUInt32 < mouseParamPosOff then noReport last m (-2) 6 false
        else mouseRead last m 6 (x.toUInt32 - mouseParamPosOff) (y.toUInt32 - mouseParamPosOff)
          (b.toUInt32 - mouseParamBtnOff) blank 0 false) := by
  have hread : ttyKeysMouse last (esc :: bracket :: press :: b :: x :: y :: more) m =
      readLegacy last (esc :: bracket :: press :: b :: x :: y :: more) m := rfl
  have hlength : (esc :: bracket :: press :: b :: x :: y :: more).length = more.length + 6 := rfl
  have h₃ : ¬ more.length + 6 ≤ 3 := by omega
  have h₄ : ¬ more.length + 6 ≤ 4 := by omega
  have h₅ : ¬ more.length + 6 ≤ 5 := by omega
  rw [hread, readLegacy, hlength, if_neg h₃]
  simp only [byteAt, List.getElem?_cons_succ, List.getElem?_cons_zero, ok_bind, if_neg h₄,
    if_neg h₅]
  exact (apply_ite Except.ok ..).symm

theorem legacy_readBack_iff {x y : UInt32} {event : MouseEvent}
    (hb : ¬ mouseParamMax < m.b + mouseParamBtnOff) :
    ReadBack last event (legacyReport m x y) (fun o => o.x = clampLegacy x ∧ o.y = clampLegacy y ∧
      o.b = m.b ∧ o.sgrType = blank.toUInt32) ↔ LegacyFits m x y := by
  have hread : ∀ more, ttyKeysMouse last (legacyReport m x y ++ more) event = _ := fun more =>
    ttyKeysMouse_legacy (m.b + mouseParamBtnOff).toUInt8 (legacyPosition x) (legacyPosition y) more
  simp only [legacyButton_byte hb, legacyButton_lt_iff hb] at hread
  constructor
  · rintro ⟨hback, -⟩
    by_contra hwraps
    obtain ⟨o, ho, hret, -⟩ := hback []
    have hbad : ¬ m.b.toNat + 32 < 2 ^ 32 ∨ (legacyPosition x).toUInt32 < mouseParamPosOff ∨
        (legacyPosition y).toUInt32 < mouseParamPosOff := by
      rw [LegacyFits, not_and_or, not_and_or] at hwraps
      exact hwraps.imp id (Or.imp legacyPosition_wraps legacyPosition_wraps)
    have hnone := hread []
    rw [if_pos hbad] at hnone
    obtain rfl := Except.ok.inj (hnone.symm.trans ho)
    cases hret
  · rintro ⟨hfit, hx, hy⟩
    obtain ⟨hxlt, hxeq⟩ := legacyPosition_fits hx
    obtain ⟨hylt, hyeq⟩ := legacyPosition_fits hy
    constructor
    · intro more
      have hgood := hread more
      rw [if_neg (not_or.mpr ⟨not_not.mpr hfit, not_or.mpr ⟨hxlt, hylt⟩⟩), hxeq, hyeq] at hgood
      exact ⟨_, hgood, rfl, rfl, rfl, rfl, add_sub_cancel_right m.b _, rfl⟩
    · intro part hpart hne hproper
      rcases part_cases hpart with rfl | rfl | rfl | ⟨q, rfl, hq⟩
      · exact absurd rfl hne
      · exact ⟨_, rfl, rfl⟩
      · exact ⟨_, rfl, rfl⟩
      rcases part_cases hq with rfl | rfl | rfl | ⟨t, rfl, ht⟩
      · exact ⟨_, rfl, rfl⟩
      · exact ⟨_, rfl, rfl⟩
      · exact ⟨_, rfl, rfl⟩
      · rw [List.prefix_nil] at ht
        exact absurd (by rw [ht, legacyReport]) hproper

theorem inputKeyGetMouse_sgr {mode : MouseMode} {x y : UInt32} {report : List UInt8}
    (h : inputKeyGetMouse mode m x y = some report) (hsgr : usesSgr mode m) :
    report = sgrReport m x y := by
  rw [inputKeyGetMouse, if_pos hsgr] at h
  split_ifs at h
  exact (Option.some.inj h).symm

theorem inputKeyGetMouse_legacy {mode : MouseMode} {x y : UInt32} {report : List UInt8}
    (h : inputKeyGetMouse mode m x y = some report) (hsgr : ¬ usesSgr mode m)
    (hutf8 : mode.utf8 = false) :
    ¬ mouseParamMax < m.b + mouseParamBtnOff ∧ report = legacyReport m x y := by
  have hmode : ¬ mode.utf8 = true := by
    rw [hutf8]
    decide
  rw [inputKeyGetMouse, if_neg hsgr, if_neg hmode] at h
  split_ifs at h with _ hb
  exact ⟨hb, (Option.some.inj h).symm⟩

/-- What a report is read back as, and where the reader's numbers stay in 32 bits. -/
theorem mouse_reports (mode : MouseMode) (m : MouseEvent) (x y : UInt32) (last : LastMouse)
    (event : MouseEvent) :
    (∀ report : List UInt8, inputKeyGetMouse mode m x y = some report →
      ((m.sgrType = press.toUInt32 ∨ m.sgrType = release.toUInt32) → usesSgr mode m →
        ¬ (m.sgrType = release.toUInt32 ∧ mouseWheel m.sgrB) →
        x.toNat < 2 ^ 32 - 1 → y.toNat < 2 ^ 32 - 1 →
        ReadBack last event report fun o => o.x = x ∧ o.y = y ∧ o.sgrB = m.sgrB ∧
          o.sgrType = m.sgrType ∧ o.b = if m.sgrType = release.toUInt32 then 3 else m.sgrB) ∧
      (¬ usesSgr mode m → mode.utf8 = false →
        (ReadBack last event report (fun o => o.x = clampLegacy x ∧ o.y = clampLegacy y ∧
          o.b = m.b ∧ o.sgrType = blank.toUInt32) ↔ LegacyFits m x y))) ∧
    ∀ buf : List UInt8, (∃ o, ttyKeysMouse last buf event = .ok o ∧ o.wrapped = false) ↔
      buf ≠ [] ∧ NumbersFit buf := by
  refine ⟨fun report hreport => ⟨fun htype hsgr hwheel hx hy => ?_, fun hsgr hutf8 => ?_⟩,
    ttyKeysMouse_ok last event⟩
  · rw [inputKeyGetMouse_sgr hreport hsgr]
    rcases htype with htype | htype
    · have hback : ReadBack last event (sgrReport m x y) _ :=
        sgr_readBack press (by rw [htype]; rfl) rfl (fun h => absurd h.1 (by decide)) hx hy
      rw [htype]
      exact hback
    · have hback : ReadBack last event (sgrReport m x y) _ :=
        sgr_readBack release (by rw [htype]; rfl) rfl (fun h => hwheel ⟨htype, h.2⟩) hx hy
      rw [htype]
      exact hback
  · obtain ⟨hb, rfl⟩ := inputKeyGetMouse_legacy hreport hsgr hutf8
    exact legacy_readBack_iff hb

def noMouse : MouseEvent := ⟨0, 0, 0, 0, 0, 0, 0, 0⟩

/-- A button is released at a column and a line past 222. -/
theorem mouse_reports_release :
    ReadBack ⟨0, 0, 0⟩ noMouse
        (sgrReport ⟨299, 499, 3, 0, 0, 0, release.toUInt32, 2⟩ 299 499)
        (fun o => o.x = 299 ∧ o.y = 499 ∧ o.sgrB = 2 ∧ o.sgrType = release.toUInt32 ∧ o.b = 3) ∧
      ReadBack ⟨0, 0, 0⟩ noMouse (legacyReport ⟨299, 499, 3, 0, 0, 0, release.toUInt32, 2⟩ 299 499)
        (fun o => o.x = 222 ∧ o.y = 222 ∧ o.b = 3 ∧ o.sgrType = blank.toUInt32) :=
  ⟨((mouse_reports ⟨true, false, false, false, true⟩ ⟨299, 499, 3, 0, 0, 0, release.toUInt32, 2⟩
      299 499 ⟨0, 0, 0⟩ noMouse).1 _ rfl).1 (Or.inr rfl) rfl (by decide) (by decide) (by decide),
    (((mouse_reports ⟨true, false, false, false, false⟩ ⟨299, 499, 3, 0, 0, 0, release.toUInt32, 2⟩
      299 499 ⟨0, 0, 0⟩ noMouse).1 _ rfl).2 (by decide) rfl).mpr ⟨by decide, by decide, by decide⟩⟩

/-- The button `4294967296` is read as button 0. -/
theorem button_wraps :
    ∃ buf : List UInt8, buf ≠ [] ∧
      ttyKeysMouse ⟨0, 0, 0⟩ buf noMouse =
        .ok (mouseRead ⟨0, 0, 0⟩ noMouse 18 0 0 0 press 0 true) ∧
      ¬ ∃ o, ttyKeysMouse ⟨0, 0, 0⟩ buf noMouse = .ok o ∧ o.wrapped = false := by
  have hread : ttyKeysMouse ⟨0, 0, 0⟩ [esc, bracket, less, 52, 50, 57, 52, 57, 54, 55, 50, 57, 54,
      semicolon, 49, semicolon, 49, press] noMouse =
      .ok (mouseRead ⟨0, 0, 0⟩ noMouse 18 0 0 0 press 0 true) := by decide +kernel
  refine ⟨_, List.cons_ne_nil _ _, hread, ?_⟩
  rintro ⟨o, ho, hfalse⟩
  obtain rfl := Except.ok.inj (hread.symm.trans ho)
  cases hfalse

end Ztmux.Mouse
