import Ztmux.Utf8.Vis

/-!
Reading visible bytes back.

The decoder is a state machine with its own rules for octal numbers and carets. It sees one byte at
a time and keeps the byte it works on where it will be.
-/

namespace Ztmux.Utf8

/-! ### Model -/

def addOctal (cp c : UInt8) : UInt8 := (cp <<< 3) + (c - '0'.toUInt8)

/-- What a byte behind a backslash is: what is returned, the byte and the state. -/
def unvisStart (cp c : UInt8) : Int × UInt8 × Nat :=
  if c = 92 then (1, c, 0)
  else if 48 ≤ c ∧ c ≤ 55 then (0, c - '0'.toUInt8, 5)
  else if c = 77 then (0, 0x80, 2)
  else if c = 94 then (0, cp, 4)
  else if c = 110 then (1, '\n'.toUInt8, 0)
  else if c = 114 then (1, 0x0d, 0)
  else if c = 98 then (1, 0x08, 0)
  else if c = 97 then (1, 0x07, 0)
  else if c = 118 then (1, 0x0b, 0)
  else if c = 116 then (1, '\t'.toUInt8, 0)
  else if c = 102 then (1, 0x0c, 0)
  else if c = 115 then (1, ' '.toUInt8, 0)
  else if c = 69 then (1, 0x1b, 0)
  else if c = 10 ∨ c = 36 then (3, cp, 0)
  else (-1, cp, 0)

def unvis (cp c : UInt8) (astate : Nat) (ends : Bool) : Int × UInt8 × Nat :=
  if ends then
    if astate = 5 ∨ astate = 6 then (1, cp, 0)
    else if astate = 0 then (3, cp, astate)
    else (-1, cp, astate)
  else match astate with
    | 0 => if c = '\\'.toUInt8 then (0, 0, 1) else (1, c, 0)
    | 1 => unvisStart cp c
    | 2 =>
        if c = '-'.toUInt8 then (0, cp, 3)
        else if c = '^'.toUInt8 then (0, cp, 4)
        else (-1, cp, 0)
    | 3 => (1, cp ||| c, 0)
    | 4 => if c = '?'.toUInt8 then (1, cp ||| 0o177, 0) else (1, cp ||| (c &&& 0o37), 0)
    | 5 => if isOctal c then (0, addOctal cp c, 6) else (2, cp, 0)
    | 6 => if isOctal c then (1, addOctal cp c, 0) else (2, cp, 0)
    | _ => (-1, cp, 0)

/-- The bytes that are done, the byte behind them and the state. A byte is written before it is
read. -/
structure Decoder where
  out : List UInt8
  cp : UInt8
  astate : Nat

/-- Go on to the next byte of the result. -/
def Decoder.next (d : Decoder) (r : Int × UInt8 × Nat) : Decoder := ⟨d.out ++ [r.2.1], 0, r.2.2⟩

/-- The same byte is seen again when it ends a number. -/
def strunvisByte (c : UInt8) : Nat → Decoder → Exec (Option Decoder)
  | 0, _ => .error .outOfFuel
  | fuel + 1, d =>
      let r := unvis d.cp c d.astate false
      if r.1 = 1 then pure (some (d.next r))
      else if r.1 = 2 then strunvisByte c fuel (d.next r)
      else if r.1 = 0 ∨ r.1 = 3 then pure (some ⟨d.out, r.2.1, r.2.2⟩)
      else pure none

def strunvisLoop (fuel : Nat) : List UInt8 → Decoder → Exec (Option Decoder)
  | [], _ => .error .outOfBounds
  | c :: src, d =>
      if c = 0 then
        let r := unvis d.cp c d.astate true
        pure (some (if r.1 = 1 then d.next r else d))
      else do
        match ← strunvisByte c fuel d with
        | none => pure none
        | some d => strunvisLoop fuel src d

/-- The length of the result and the result, if there is one. -/
def strunvis (src : List UInt8) (fuel : Nat) : Exec (Option (Int × List UInt8)) := do
  let d ← strunvisLoop fuel src ⟨[], 0, 0⟩
  pure (d.map fun d => (wrapI32 d.out.length, d.out))

/-! ### Reading back -/

/-- The flags `VIS_OCTAL`, `VIS_CSTYLE`, `VIS_TAB` and `VIS_NL`. -/
def reversible : VisFlags := ⟨true, true, true, true, false, false, false⟩

variable {fuel : Nat} {src out : List UInt8} {cp c : UInt8}

theorem strunvisByte_done {d : Decoder} {cp' : UInt8} {astate : Nat}
    (h : unvis d.cp c d.astate false = (1, cp', astate)) :
    strunvisByte c (fuel + 1) d = .ok (some ⟨d.out ++ [cp'], 0, astate⟩) := by
  rw [strunvisByte, h]
  rfl

theorem strunvisByte_more {d : Decoder} {cp' : UInt8} {astate : Nat}
    (h : unvis d.cp c d.astate false = (0, cp', astate)) :
    strunvisByte c (fuel + 1) d = .ok (some ⟨d.out, cp', astate⟩) := by
  rw [strunvisByte, h]
  rfl

theorem strunvisLoop_plain (h0 : c ≠ 0) (hslash : c ≠ '\\'.toUInt8) :
    strunvisLoop (fuel + 1) (c :: src) ⟨out, cp, 0⟩ =
      strunvisLoop (fuel + 1) src ⟨out ++ [c], 0, 0⟩ := by
  have hbyte : strunvisByte c (fuel + 1) ⟨out, cp, 0⟩ = .ok (some ⟨out ++ [c], 0, 0⟩) :=
    strunvisByte_done (if_neg hslash)
  rw [strunvisLoop, if_neg h0, hbyte]
  rfl

theorem strunvisLoop_bytes {bytes : List UInt8} (h : ∀ c ∈ bytes, c ≠ 0 ∧ c ≠ '\\'.toUInt8) :
    ∃ cp', strunvisLoop (fuel + 1) (bytes ++ src) ⟨out, cp, 0⟩ =
      strunvisLoop (fuel + 1) src ⟨out ++ bytes, cp', 0⟩ := by
  induction bytes generalizing out cp with
  | nil => exact ⟨cp, by rw [List.append_nil]; rfl⟩
  | cons c bytes ih =>
      obtain ⟨⟨h0, hslash⟩, hbytes⟩ := List.forall_mem_cons.mp h
      obtain ⟨cp', hrest⟩ := @ih (out ++ [c]) 0 hbytes
      refine ⟨cp', ?_⟩
      rw [List.cons_append, strunvisLoop_plain h0 hslash, hrest, List.append_assoc,
        List.singleton_append]

/-- A backslash, and a byte behind it that says what it stands for. -/
theorem strunvisLoop_cstyle {letter : UInt8} (h0 : letter ≠ 0)
    (hletter : unvisStart 0 letter = (1, c, 0)) :
    strunvisLoop (fuel + 1) ('\\'.toUInt8 :: letter :: src) ⟨out, cp, 0⟩ =
      strunvisLoop (fuel + 1) src ⟨out ++ [c], 0, 0⟩ := by
  have hslash : strunvisByte '\\'.toUInt8 (fuel + 1) ⟨out, cp, 0⟩ = .ok (some ⟨out, 0, 1⟩) := rfl
  have hbyte : strunvisByte letter (fuel + 1) ⟨out, 0, 1⟩ = .ok (some ⟨out ++ [c], 0, 0⟩) :=
    strunvisByte_done hletter
  rw [strunvisLoop, if_neg (by decide), hslash]
  dsimp only [bind, Except.bind]
  rw [strunvisLoop, if_neg h0, hbyte]
  rfl

theorem octalDigits_read (c : UInt8) : ∃ a b d, octalDigits c = [a, b, d] ∧ isOctal a ∧ isOctal b ∧
    isOctal d ∧
    addOctal (addOctal (a - '0'.toUInt8) b) d = c := by
  refine ⟨_, _, _, rfl, ?_⟩
  have hall : ∀ n : Fin 256, isOctal (UInt8.ofNat n / 64 + '0'.toUInt8) ∧
      isOctal (UInt8.ofNat n / 8 % 8 + '0'.toUInt8) ∧ isOctal (UInt8.ofNat n % 8 + '0'.toUInt8) ∧
      addOctal (addOctal (UInt8.ofNat n / 64 + '0'.toUInt8 - '0'.toUInt8)
        (UInt8.ofNat n / 8 % 8 + '0'.toUInt8)) (UInt8.ofNat n % 8 + '0'.toUInt8) =
          UInt8.ofNat n := by
    decide +kernel
  have hc := hall ⟨c.toNat, c.toNat_lt⟩
  rw [UInt8.ofNat_toNat] at hc
  exact hc

theorem strunvisLoop_octal :
    strunvisLoop (fuel + 1) ('\\'.toUInt8 :: octalDigits c ++ src) ⟨out, cp, 0⟩ =
      strunvisLoop (fuel + 1) src ⟨out ++ [c], 0, 0⟩ := by
  obtain ⟨a, b, d, hdigits, ha, hb, hd, hread⟩ := octalDigits_read c
  have hnonzero : ∀ x : UInt8, isOctal x → x ≠ 0 := by
    rintro x ⟨hle, -⟩ rfl
    exact absurd hle (by decide)
  have hslash : strunvisByte '\\'.toUInt8 (fuel + 1) ⟨out, cp, 0⟩ = .ok (some ⟨out, 0, 1⟩) := rfl
  have hfirst : strunvisByte a (fuel + 1) ⟨out, 0, 1⟩ = .ok (some ⟨out, a - '0'.toUInt8, 5⟩) := by
    have hne : a ≠ 92 := by
      rintro rfl
      exact absurd ha (by decide)
    have hstart : unvisStart 0 a = (0, a - '0'.toUInt8, 5) := by
      rw [unvisStart, if_neg hne]
      exact if_pos ha
    exact strunvisByte_more hstart
  have hsecond : strunvisByte b (fuel + 1) ⟨out, a - '0'.toUInt8, 5⟩ =
      .ok (some ⟨out, addOctal (a - '0'.toUInt8) b, 6⟩) := strunvisByte_more (if_pos hb)
  have hthird : strunvisByte d (fuel + 1) ⟨out, addOctal (a - '0'.toUInt8) b, 6⟩ =
      .ok (some ⟨out ++ [c], 0, 0⟩) := by
    have hlast : unvis (addOctal (a - '0'.toUInt8) b) d 6 false = (1, c, 0) := by
      rw [← hread]
      exact if_pos hd
    exact strunvisByte_done hlast
  rw [hdigits]
  dsimp only [List.cons_append, List.nil_append]
  rw [strunvisLoop, if_neg (by decide), hslash]
  dsimp only [bind, Except.bind]
  rw [strunvisLoop, if_neg (hnonzero a ha), hfirst]
  dsimp only [bind, Except.bind]
  rw [strunvisLoop, if_neg (hnonzero b hb), hsecond]
  dsimp only [bind, Except.bind]
  rw [strunvisLoop, if_neg (hnonzero d hd), hthird]
  rfl

/-- The letter that stands for a control character. -/
theorem cstyle_read (h : 7 ≤ c ∧ c < 9 ∨ 11 ≤ c ∧ c < 14) :
    CSTYLE.getD (c.toNat - 7) 0 ≠ 0 ∧ unvisStart 0 (CSTYLE.getD (c.toNat - 7) 0) = (1, c, 0) := by
  have hall : ∀ n : Fin 256, (7 ≤ UInt8.ofNat n ∧ UInt8.ofNat n < 9 ∨ 11 ≤ UInt8.ofNat n ∧
    UInt8.ofNat n < 14) →
      CSTYLE.getD ((UInt8.ofNat n).toNat - 7) 0 ≠ 0 ∧
        unvisStart 0 (CSTYLE.getD ((UInt8.ofNat n).toNat - 7) 0) = (1, UInt8.ofNat n, 0) := by
    decide +kernel
  have hc := hall ⟨c.toNat, c.toNat_lt⟩
  rw [UInt8.ofNat_toNat] at hc
  exact hc h

/-- A byte is read back, whatever is behind it. -/
theorem strunvisLoop_visBytes (h0 : c ≠ 0) (nextc : UInt8) :
    strunvisLoop (fuel + 1) (visBytes reversible c nextc ++ src) ⟨out, cp, 0⟩ =
      strunvisLoop (fuel + 1) src ⟨out ++ [c], 0, 0⟩ := by
  rw [visBytes]
  split_ifs with hnul htab hnl hslash hdq hsafe hcstyle hoctal
  · exact absurd hnul.1 h0
  · rw [htab.1]
    exact strunvisLoop_cstyle (by decide) rfl
  · rw [hnl.1]
    exact strunvisLoop_cstyle (by decide) rfl
  · rw [hslash.1]
    exact strunvisLoop_cstyle (by decide) rfl
  · exact absurd hdq.2 (by decide)
  · exact absurd hsafe.2 (by decide)
  · exact strunvisLoop_cstyle (cstyle_read hcstyle).1 (cstyle_read hcstyle).2
  · exact strunvisLoop_octal
  · exact strunvisLoop_plain h0 fun heq => hslash ⟨heq, rfl⟩

theorem strvisBytes_reversible (c : UInt8) (next : Option UInt8) :
    strvisBytes reversible c next = visBytes reversible c (next.getD 0) := by
  cases next with
  | none => rfl
  | some nextc =>
      rw [strvisBytes, if_neg fun h => absurd h.1 (by decide)]
      rfl

variable {width : Width} {s : List UInt8} {items : List Item}

/-- The bytes of a complete character have nothing that is special to the decoder. -/
theorem completeChar_high {text bytes : List UInt8} {w : UInt8}
    (h : completeChar width text = some (bytes, w)) :
    ∀ c ∈ bytes, 0x80 ≤ c.toNat := by
  have hwidth : completeWidth width bytes = some w := by
    obtain ⟨-, -, -, hwidth⟩ := completeChar_bytes h
    exact hwidth
  rw [completeWidth] at hwidth
  split_ifs at hwidth with htail
  rw [completeChar] at h
  cases hlead : text.head?.bind leadSize with
  | none => simp [hlead] at h
  | some size =>
      simp only [hlead] at h
      split_ifs at h with hlen
      obtain ⟨w', -, heq⟩ := Option.map_eq_some_iff.mp h
      obtain ⟨ch, hhead, hsize⟩ := Option.bind_eq_some_iff.mp hlead
      obtain ⟨rest, rfl⟩ := List.head?_eq_some_iff.mp hhead
      have hge := (leadSize_le hsize).1
      obtain ⟨n, hn⟩ : ∃ n, size.toNat = n + 1 := ⟨size.toNat - 1, by omega⟩
      rw [hn, List.take_succ_cons] at heq
      obtain ⟨rfl, -⟩ := Prod.mk.inj heq
      refine List.forall_mem_cons.mpr ⟨?_, fun c hc => ?_⟩
      · by_contra hlow
        have hbound : ∀ n : UInt8, 0x80 ≤ n.toNat → ¬ n ≤ ch := fun n hn hle => by
          rw [UInt8.le_iff_toNat_le] at hle
          omega
        rw [leadSize, if_neg (fun hle => hbound 0xc2 (by decide) hle.1),
          if_neg (fun hle => hbound 0xe0 (by decide) hle.1),
          if_neg (fun hle => hbound 0xf0 (by decide) hle.1)] at hsize
        cases hsize
      · have hcont : ∀ n : Fin 256, isContinuation (UInt8.ofNat n) = true →
            0x80 ≤ (UInt8.ofNat n).toNat := by
          decide +kernel
        have hc' := hcont ⟨c.toNat, c.toNat_lt⟩
        rw [UInt8.ofNat_toNat] at hc'
        exact hc' (List.all_eq_true.mp htail c hc)

theorem plain_of_high (h : 0x80 ≤ c.toNat) : c ≠ 0 ∧ c ≠ '\\'.toUInt8 := by
  constructor
  · rintro rfl
    exact absurd h (by decide)
  · rintro rfl
    exact absurd h (by decide)

theorem strunvisLoop_encoded (hsplits : Splits width s items) (h0 : 0 ∉ s) (src : List UInt8) :
    ∃ cp', strunvisLoop (fuel + 1) (encoded reversible items ++ src) ⟨out, cp, 0⟩ =
      strunvisLoop (fuel + 1) src ⟨out ++ s, cp', 0⟩ := by
  induction hsplits generalizing out cp with
  | nil => exact ⟨cp, by rw [encoded, List.append_nil]; rfl⟩
  | @character bytes rest w items hcomplete hrest ih =>
      rw [List.mem_append, not_or] at h0
      have hbytes := fun c hc => plain_of_high (completeChar_high hcomplete c hc)
      obtain ⟨cp₁, hchar⟩ :=
        @strunvisLoop_bytes fuel (encoded reversible items ++ src) out cp bytes hbytes
      obtain ⟨cp₂, hback⟩ := @ih (out ++ bytes) cp₁ h0.2
      refine ⟨cp₂, ?_⟩
      rw [encoded, List.append_assoc, hchar, hback, List.append_assoc]
  | @byte ch rest items hcomplete hrest ih =>
      rw [List.mem_cons, not_or] at h0
      obtain ⟨cp', hback⟩ := @ih (out ++ [ch]) 0 h0.2
      refine ⟨cp', ?_⟩
      rw [encoded, List.append_assoc, strvisBytes_reversible, strunvisLoop_visBytes (Ne.symm h0.1),
        hback, List.append_assoc, List.singleton_append]

theorem strunvis_encoded (hsplits : Splits width s items) (h0 : 0 ∉ s) :
    Returns (strunvis (encoded reversible items ++ [0])) (some (wrapI32 s.length, s)) := by
  refine .of_succ ⟨0, fun fuel _ => ?_⟩
  obtain ⟨cp', hback⟩ := @strunvisLoop_encoded fuel [] 0 width s items hsplits h0 [0]
  dsimp only
  rw [strunvis, hback, List.nil_append, strunvisLoop, if_pos rfl]
  rfl

/-! ### The length of an `int` -/

/-- The bytes that a part of a string becomes, by number. -/
def Item.room : Item → Nat
  | .character bytes _ => bytes.length
  | .byte c =>
      if c = '\\'.toUInt8 ∨ 7 ≤ c ∧ c ≤ 13 then 2
      else if c < 32 ∨ 127 ≤ c then 4
      else 1

def roomFor (items : List Item) : Nat := (items.map Item.room).sum

/-- What is behind a byte matters for a NUL only. -/
theorem visBytes_next (flag : VisFlags) (h0 : c ≠ 0) (nextc : UInt8) :
    visBytes flag c nextc = visBytes flag c 0 := by
  have hnul : ∀ n, ¬ (c = 0 ∧ ¬ isOctal n) := fun _ h => h0 h.1
  simp only [visBytes, if_neg (hnul _)]

theorem length_visBytes (h0 : c ≠ 0) (nextc : UInt8) :
    (visBytes reversible c nextc).length = (Item.byte c).room := by
  have hall : ∀ n : Fin 256, UInt8.ofNat n ≠ 0 →
      (visBytes reversible (UInt8.ofNat n) 0).length = (Item.byte (UInt8.ofNat n)).room := by
    decide +kernel
  have hc := hall ⟨c.toNat, c.toNat_lt⟩
  rw [UInt8.ofNat_toNat] at hc
  rw [visBytes_next reversible h0]
  exact hc h0

theorem length_encoded (hsplits : Splits width s items) (h0 : 0 ∉ s) :
    (encoded reversible items).length = roomFor items := by
  induction hsplits with
  | nil => rfl
  | character hcomplete hrest ih =>
      rw [List.mem_append, not_or] at h0
      rw [encoded, List.length_append, ih h0.2]
      rfl
  | byte hcomplete hrest ih =>
      rw [List.mem_cons, not_or] at h0
      rw [encoded, List.length_append, ih h0.2, strvisBytes_reversible,
        length_visBytes (Ne.symm h0.1)]
      rfl

/-- Nothing is read from bytes that have no terminator. -/
theorem strunvisLoop_unterminated (h0 : 0 ∉ src) (d d' : Decoder) :
    strunvisLoop fuel src d ≠ .ok (some d') := by
  induction src generalizing d with
  | nil => exact fun h => (nomatch h)
  | cons c src ih =>
      rw [List.mem_cons, not_or] at h0
      rw [strunvisLoop, if_neg (Ne.symm h0.1)]
      intro h
      obtain ⟨next, -, h⟩ := bind_eq_ok.mp h
      cases next with
      | none => cases h
      | some d₁ => exact ih h0.2 d₁ h

/-- Both encoders give the same bytes. -/
def SameBytes (width : Width) (s : List UInt8) (flag : VisFlags) : Prop :=
  ∀ mem : List UInt8, mem.length = 4 * (s.length + 1) → ∃ out back,
    Returns (utf8StrvisVec width [] s flag) out ∧
    Returns (utf8Strvis width mem s flag) (out ++ 0 :: back, wrapI32 out.length)

theorem sameBytes (width : Width) (s : List UInt8) (flag : VisFlags) : SameBytes width s flag := by
  intro mem hmem
  obtain ⟨items, hsplits⟩ := exists_splits width s
  obtain ⟨back, hreturns⟩ := utf8Strvis_returns flag hsplits hmem
  have hvec := utf8StrvisVec_returns flag hsplits []
  rw [List.nil_append] at hvec
  exact ⟨_, back, hvec, hreturns⟩

/-- A string that is made visible is read back. -/
def ReadsBack (fresh : Nat → UInt8) (width : Width) (s : List UInt8) : Prop :=
  ∃ buf len n, Returns (utf8Stravis fresh width s reversible) (buf, len) ∧
  Returns (strunvis buf) (some (n, s))

/-- The buffer of a string that is made visible has another size than what is in it when the length
is no `int`. -/
theorem utf8Stravis_iff (fresh : Nat → UInt8) (hsplits : Splits width s items)
    {r : List UInt8 × Int} : ∃ back,
    (Returns (utf8Stravis fresh width s reversible) r ↔
      0 < wrapI32 (encoded reversible items).length + 1 ∧
        r =
          ((encoded reversible items ++ 0 :: back).take
          (wrapI32 (encoded reversible items).length + 1).toNat,
            wrapI32 (encoded reversible items).length)) := by
  obtain ⟨back, n, hn⟩ := utf8Strvis_returns reversible hsplits
    (by rw [List.length_map, List.length_range] : ((List.range (4 * (s.length + 1))).map
      fresh).length = _)
  refine ⟨back, ?_⟩
  have hcall : ∀ fuel, n ≤ fuel → utf8Stravis fresh width s reversible fuel = (do
      pure (← xrealloc (encoded reversible items ++ 0 :: back)
        (wrapI32 (encoded reversible items).length + 1),
        wrapI32 (encoded reversible items).length)) := by
    intro fuel hfuel
    rw [utf8Stravis, hn fuel hfuel, ok_bind]
  constructor
  · rintro ⟨m, hm⟩
    have hreturns := hm (max m n) (by omega)
    rw [hcall _ (by omega), xrealloc] at hreturns
    split_ifs at hreturns with hpos
    · exact ⟨hpos, (Except.ok.inj hreturns).symm⟩
    · cases hreturns
  · rintro ⟨hpos, rfl⟩
    refine ⟨n, fun fuel hfuel => ?_⟩
    rw [hcall fuel hfuel, xrealloc, if_pos hpos]
    rfl

theorem roomFor_lt_of_readsBack {fresh : Nat → UInt8} (h0 : 0 ∉ s) (hsplits : Splits width s items)
    (h : ReadsBack fresh width s) : roomFor items < 2 ^ 31 := by
  obtain ⟨buf, len, n, hstravis, m, hm⟩ := h
  obtain ⟨back, hiff⟩ := @utf8Stravis_iff width s items fresh hsplits (buf, len)
  obtain ⟨hpos, hbuf⟩ := hiff.mp hstravis
  obtain ⟨hbuf, -⟩ := Prod.mk.inj hbuf
  have hlen := length_encoded hsplits h0
  have hwrap := wrapI32_le (encoded reversible items).length
  by_contra hlong
  have hcut : (wrapI32 (encoded reversible items).length + 1).toNat ≤
      (encoded reversible items).length := by
    omega
  rw [List.take_append_of_le_length hcut] at hbuf
  have hread := hm m (Nat.le_refl m)
  rw [strunvis] at hread
  obtain ⟨d, hloop, hd⟩ := bind_eq_ok.mp hread
  cases d with
  | none => cases hd
  | some d =>
      refine strunvisLoop_unterminated
        (fun hmem => zero_notMem_encoded reversible hsplits h0 ?_) _ d hloop
      rw [hbuf] at hmem
      exact List.mem_of_mem_take hmem

/-- Both encoders agree, and what is made visible is read back when its length is an `int`. -/
theorem readsBack_iff (fresh : Nat → UInt8) (width : Width) (h0 : 0 ∉ s) :
    (∀ flag, SameBytes width s flag) ∧ ReadsBack fresh width s ↔
      ∀ items, Splits width s items → roomFor items < 2 ^ 31 := by
  constructor
  · rintro ⟨-, h⟩ items hsplits
    exact roomFor_lt_of_readsBack h0 hsplits h
  · intro h
    obtain ⟨items, hsplits⟩ := exists_splits width s
    have hlt := h items hsplits
    obtain ⟨back, hiff⟩ := @utf8Stravis_iff width s items fresh hsplits
      (encoded reversible items ++ [0], (encoded reversible items).length)
    have hwrap : wrapI32 (encoded reversible items).length = (encoded reversible items).length := by
      rw [← length_encoded hsplits h0] at hlt
      exact wrapI32_of_lt (by omega) (by omega)
    have htake : (encoded reversible items ++ 0 :: back).take
        (wrapI32 (encoded reversible items).length + 1).toNat =
        encoded reversible items ++ [0] := by
      have hsize : (wrapI32 (encoded reversible items).length + 1).toNat =
          (encoded reversible items).length + 1 := by
        omega
      rw [hsize, List.take_length_add_append]
      rfl
    exact ⟨sameBytes width s, _, _, _, hiff.mpr ⟨by omega, by rw [htake, hwrap]⟩,
      strunvis_encoded hsplits h0⟩

/-- A tab before a letter and a backslash. -/
theorem tab_readsBack :
    (∀ flag, SameBytes (fun _ => none) [9, 97, 92] flag) ∧
      ReadsBack (fun _ => 0) (fun _ => none) [9, 97, 92] := by
  have hnul : (0 : UInt8) ∉ ([9, 97, 92] : List UInt8) := by decide
  refine (readsBack_iff (fun _ => 0) (fun _ => none) hnul).mpr fun items hsplits => ?_
  have hle := length_encoded_le reversible items
  rw [hsplits.bytes, length_encoded hsplits hnul] at hle
  exact lt_of_le_of_lt hle (by decide)

/-- A string of 2 GiB of letters. -/
theorem not_readsBack_long :
    ¬ ((∀ flag, SameBytes (fun _ => none) (List.replicate (2 ^ 31) 97) flag) ∧
      ReadsBack (fun _ => 0) (fun _ => none) (List.replicate (2 ^ 31) 97)) := by
  rintro ⟨-, h⟩
  have hprintable : ∀ ch ∈ List.replicate (2 ^ 31) (97 : UInt8), IsPrintable ch := by
    intro ch hch
    rw [List.eq_of_mem_replicate hch]
    decide
  have hzero : 0 ∉ List.replicate (2 ^ 31) (97 : UInt8) := by
    intro hmem
    exact absurd (List.eq_of_mem_replicate hmem) (by decide)
  have hlt := roomFor_lt_of_readsBack hzero (splits_printable (fun _ => none) hprintable).1 h
  rw [roomFor, List.map_replicate, List.map_replicate, List.sum_replicate] at hlt
  exact absurd hlt (by decide)

end Ztmux.Utf8
