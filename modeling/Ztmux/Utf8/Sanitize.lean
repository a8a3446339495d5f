import Ztmux.Utf8.Decode

/-!
Sanitizing a string.

A complete character becomes as many underscores as it is wide, and another byte stays when it can
be printed and becomes one underscore otherwise. The result grows by the width of each character,
and is not asked for when that leaves it without any room.
-/

namespace Ztmux.Utf8

/-! ### Model -/

def xreallocarray (nmemb : Nat) : Exec Unit := if nmemb = 0 then .error .fatal else .ok ()

def sanitizedByte (ch : UInt8) : UInt8 := if 0x1f < ch ∧ ch < 0x7f then ch else '_'.toUInt8

def sanitizeLoop (width : Width) (s : List UInt8) : Nat → Nat → List UInt8 → Exec (List UInt8)
  | 0, _, _ => .error .outOfFuel
  | fuel + 1, i, dst =>
      match s[i]? with
      | none => do
          xreallocarray (dst.length + 1)
          pure dst
      | some ch => do
          xreallocarray (dst.length + 1)
          let r ← utf8Decode width s fuel i ch
          if r.2.1 = .done then do
            xreallocarray (dst.length + r.2.2.width.toNat)
            sanitizeLoop width s fuel r.1 (dst ++ List.replicate r.2.2.width.toNat '_'.toUInt8)
          else sanitizeLoop width s fuel (r.1 + 1) (dst ++ [sanitizedByte (s.getD r.1 0)])

/-- The string without its terminator, to the string without its terminator. -/
def utf8Sanitize (width : Width) (s : List UInt8) (fuel : Nat) : Exec (List UInt8) :=
  sanitizeLoop width s fuel 0 []

/-! ### What a string is made of -/

inductive Item
  | character (bytes : List UInt8) (w : UInt8)
  | byte (ch : UInt8)
  deriving DecidableEq, Repr

/-- A string is a sequence of complete characters and bytes that begin none. -/
inductive Splits (width : Width) : List UInt8 → List Item → Prop
  | nil : Splits width [] []
  | character {bytes rest : List UInt8} {w : UInt8} {items : List Item} :
      completeChar width (bytes ++ rest) = some (bytes, w) → Splits width rest items →
      Splits width (bytes ++ rest) (.character bytes w :: items)
  | byte {ch : UInt8} {rest : List UInt8} {items : List Item} :
      completeChar width (ch :: rest) = none → Splits width rest items →
      Splits width (ch :: rest) (.byte ch :: items)

/-- What becomes of a part: one byte of each that is not part of a character. -/
def Item.sanitized : Item → List UInt8
  | .character _ w => List.replicate w.toNat '_'.toUInt8
  | .byte ch => [sanitizedByte ch]

theorem exists_splits (width : Width) (s : List UInt8) : ∃ items, Splits width s items := by
  induction hlen : s.length using Nat.strong_induction_on generalizing s with
  | h n ih =>
      rcases s with _ | ⟨ch, rest⟩
      · exact ⟨[], .nil⟩
      · cases hcomplete : completeChar width (ch :: rest) with
        | none =>
            obtain ⟨items, hitems⟩ :=
              ih rest.length (by rw [← hlen]; exact Nat.lt_succ_self _) rest rfl
            exact ⟨_, .byte hcomplete hitems⟩
        | some p =>
            obtain ⟨bytes, w⟩ := p
            obtain ⟨rest', htext, hlong, -⟩ := completeChar_bytes hcomplete
            rw [htext] at hcomplete hlen ⊢
            rw [List.length_append] at hlen
            obtain ⟨items, hitems⟩ := ih rest'.length (by omega) rest' rfl
            exact ⟨_, .character hcomplete hitems⟩

variable {width : Width} {s : List UInt8} {items : List Item}

/-- No character of a string that can be printed has more than one byte. -/
def IsPrintable (ch : UInt8) : Prop := 0x20 ≤ ch ∧ ch ≤ 0x7e

instance (ch : UInt8) : Decidable (IsPrintable ch) := inferInstanceAs (Decidable (_ ∧ _))

theorem sanitizedByte_printable (ch : UInt8) : IsPrintable (sanitizedByte ch) := by
  rw [sanitizedByte]
  split_ifs with h
  · simp only [IsPrintable, UInt8.le_iff_toNat_le, UInt8.lt_iff_toNat_lt] at h ⊢
    change 31 < ch.toNat ∧ ch.toNat < 127 at h
    change 32 ≤ ch.toNat ∧ ch.toNat ≤ 126
    omega
  · decide

theorem Item.sanitized_printable (item : Item) : ∀ ch ∈ item.sanitized, IsPrintable ch := by
  intro ch hch
  cases item with
  | character bytes w =>
      rw [List.eq_of_mem_replicate hch]
      decide
  | byte b =>
      rw [List.mem_singleton.mp hch]
      exact sanitizedByte_printable b

theorem leadSize_printable {ch : UInt8} (h : IsPrintable ch) : leadSize ch = none := by
  simp only [IsPrintable, UInt8.le_iff_toNat_le] at h
  change 32 ≤ ch.toNat ∧ ch.toNat ≤ 126 at h
  have hlow : ∀ n : UInt8, 127 ≤ n.toNat → ¬ n ≤ ch := fun n hn hle => by
    rw [UInt8.le_iff_toNat_le] at hle
    omega
  rw [leadSize, if_neg (fun hle => hlow 0xc2 (by decide) hle.1),
    if_neg (fun hle => hlow 0xe0 (by decide) hle.1),
    if_neg (fun hle => hlow 0xf0 (by decide) hle.1)]

/-- A string that can be printed is made of its bytes, and they stay. -/
theorem splits_printable (width : Width) (h : ∀ ch ∈ s, IsPrintable ch) :
    Splits width s (s.map .byte) ∧ (s.map Item.byte).flatMap Item.sanitized = s := by
  induction s with
  | nil => exact ⟨.nil, rfl⟩
  | cons ch s ih =>
      obtain ⟨hch, hs⟩ := List.forall_mem_cons.mp h
      obtain ⟨hsplits, hstays⟩ := ih hs
      refine ⟨.byte ?_ hsplits, ?_⟩
      · simp [completeChar, leadSize_printable hch]
      · have hsame : sanitizedByte ch = ch := by
          rw [sanitizedByte, if_pos]
          simp only [IsPrintable, UInt8.le_iff_toNat_le, UInt8.lt_iff_toNat_lt] at hch ⊢
          change 32 ≤ ch.toNat ∧ ch.toNat ≤ 126 at hch
          change 31 < ch.toNat ∧ ch.toNat < 127
          omega
        rw [List.map_cons, List.flatMap_cons, hstays, Item.sanitized, hsame]
        rfl

/-! ### Sanitizing -/

/-- Nothing is asked for when the string begins with a character without width. -/
def Item.HasRoom (dst : List UInt8) : List Item → Prop
  | .character _ w :: _ => dst ≠ [] ∨ w ≠ 0
  | _ => True

theorem xreallocarray_succ (n : Nat) : xreallocarray (n + 1) = .ok () := if_neg (Nat.succ_ne_zero n)

theorem sanitizeLoop_done (fuel : Nat) {i : Nat} (hi : s.length ≤ i) (dst : List UInt8) :
    sanitizeLoop width s (fuel + 1) i dst = .ok dst := by
  rw [sanitizeLoop, List.getElem?_eq_none hi]
  dsimp only
  rw [xreallocarray_succ]
  rfl

theorem sanitizeLoop_step (fuel : Nat) {i : Nat} {ch : UInt8} (hi : s[i]? = some ch)
    (dst : List UInt8)
    {r : Nat × Utf8State × Utf8Data} (hr : utf8Decode width s fuel i ch = .ok r) :
    sanitizeLoop width s (fuel + 1) i dst =
      if r.2.1 = .done then (do
        xreallocarray (dst.length + r.2.2.width.toNat)
        sanitizeLoop width s fuel r.1 (dst ++ List.replicate r.2.2.width.toNat '_'.toUInt8))
      else sanitizeLoop width s fuel (r.1 + 1) (dst ++ [sanitizedByte (s.getD r.1 0)]) := by
  rw [sanitizeLoop, hi]
  dsimp only
  rw [xreallocarray_succ, ok_bind, hr, ok_bind]

theorem sanitizeLoop_ok {text : List UInt8} (hsplits : Splits width text items) {i : Nat}
    (hdrop : s.drop i = text) {dst : List UInt8} (hroom : Item.HasRoom dst items) :
    Returns (fun fuel => sanitizeLoop width s fuel i dst)
      (dst ++ items.flatMap Item.sanitized) := by
  induction hsplits generalizing i dst with
  | nil =>
      refine Returns.of_succ ⟨0, fun fuel _ => ?_⟩
      dsimp only
      rw [sanitizeLoop_done fuel (List.drop_eq_nil_iff.mp hdrop), List.flatMap_nil, List.append_nil]
  | @character bytes rest w items hcomplete _ ih =>
      obtain ⟨-, -, hlong, -⟩ := completeChar_bytes hcomplete
      rcases bytes with _ | ⟨ch, bytes⟩
      · simp at hlong
      obtain ⟨r, ⟨n, hn⟩, hsome, -⟩ := utf8Decode_ok width hdrop
      obtain ⟨hplace, hdone, hw, -⟩ := hsome _ w hcomplete
      have hget : s[i]? = some ch := by
        rw [← List.head?_drop, hdrop]
        rfl
      have hdrop' : s.drop r.1 = rest := by
        rw [hplace, ← List.drop_drop, hdrop, List.drop_left]
      have hnonzero : dst.length + w.toNat ≠ 0 := by
        rcases hroom with hdst | hw0
        · have := List.length_pos_iff.mpr hdst
          omega
        · have : w.toNat ≠ 0 := fun heq => hw0 (UInt8.toNat.inj heq)
          omega
      have hroom' : Item.HasRoom (dst ++ List.replicate w.toNat '_'.toUInt8) items := by
        rcases items with _ | ⟨_ | _, items⟩
        · trivial
        · refine .inl fun hnil => hnonzero ?_
          rw [← List.length_nil (α := UInt8), ← hnil, List.length_append, List.length_replicate]
        · trivial
      obtain ⟨m, hm⟩ := ih hdrop' hroom'
      refine Returns.of_succ ⟨max m n, fun fuel hfuel => ?_⟩
      dsimp only at hm ⊢
      rw [sanitizeLoop_step fuel hget dst (hn fuel (by omega)), if_pos hdone, hw,
        xreallocarray, if_neg hnonzero, ok_bind, hm fuel (by omega), List.flatMap_cons,
        Item.sanitized,
        List.append_assoc]
  | @byte ch rest items hcomplete _ ih =>
      obtain ⟨r, ⟨n, hn⟩, -, hnone⟩ := utf8Decode_ok width hdrop
      obtain ⟨hdone, hplace⟩ := hnone hcomplete
      have hget : s[i]? = some ch := by
        rw [← List.head?_drop, hdrop]
        rfl
      have hdrop' : s.drop (r.1 + 1) = rest := by
        rw [hplace, ← List.tail_drop, hdrop]
        rfl
      have hroom' : Item.HasRoom (dst ++ [sanitizedByte ch]) items := by
        rcases items with _ | ⟨_ | _, items⟩
        · trivial
        · exact .inl (List.append_ne_nil_of_right_ne_nil _ (List.cons_ne_nil _ _))
        · trivial
      obtain ⟨m, hm⟩ := ih hdrop' hroom'
      refine Returns.of_succ ⟨max m n, fun fuel hfuel => ?_⟩
      dsimp only at hm ⊢
      have hbyte : s.getD r.1 0 = ch := by
        rw [hplace, List.getD_eq_getElem?_getD, hget]
        rfl
      rw [sanitizeLoop_step fuel hget dst (hn fuel (by omega)), if_neg hdone, hbyte,
        hm fuel (by omega), List.flatMap_cons, Item.sanitized, List.append_assoc]

/-- The function aborts for a string that begins with a character without width. -/
theorem utf8Sanitize_fatal {bytes : List UInt8} (h : completeChar width s = some (bytes, 0)) :
    ∃ n, ∀ fuel, n ≤ fuel → utf8Sanitize width s (fuel + 1) = .error .fatal := by
  obtain ⟨rest, htext, hlong, -⟩ := completeChar_bytes h
  rcases s with _ | ⟨ch, s⟩
  · rw [List.nil_eq, List.append_eq_nil_iff] at htext
    simp [htext.1] at hlong
  obtain ⟨r, ⟨n, hn⟩, hsome, -⟩ := @utf8Decode_ok (ch :: s) width 0 ch s rfl
  obtain ⟨-, hdone, hw, -⟩ := hsome bytes 0 h
  refine ⟨n, fun fuel hfuel => ?_⟩
  rw [utf8Sanitize, sanitizeLoop_step fuel rfl [] (hn fuel hfuel), if_pos hdone, hw]
  rfl

/-- A string is sanitized: the result can be printed, is sanitized already, and is that of the
complete characters and of the other bytes one after the other. -/
def Sanitizes (width : Width) (s : List UInt8) : Prop :=
  ∃ items out, Splits width s items ∧ Returns (utf8Sanitize width s) out ∧
    out = items.flatMap Item.sanitized ∧ (∀ ch ∈ out, IsPrintable ch) ∧
    Returns (utf8Sanitize width out) out

/-- Every string is sanitized but those that begin with a complete character without width. -/
theorem sanitizes_iff (width : Width) (s : List UInt8) :
    Sanitizes width s ↔ ∀ bytes, completeChar width s ≠ some (bytes, 0) := by
  constructor
  · rintro ⟨items, out, -, ⟨n, hn⟩, -⟩ bytes hcomplete
    obtain ⟨m, hm⟩ := utf8Sanitize_fatal hcomplete
    have hreturns := hn (max m n + 1) (by omega)
    rw [hm (max m n) (by omega)] at hreturns
    cases hreturns
  · intro hwide
    obtain ⟨items, hsplits⟩ := exists_splits width s
    have hroom : Item.HasRoom [] items := by
      cases hsplits with
      | nil => trivial
      | @character bytes rest w items hcomplete _ =>
          exact .inr fun hw => hwide bytes (by rw [hcomplete, hw])
      | byte _ _ => trivial
    have hprintable : ∀ ch ∈ items.flatMap Item.sanitized, IsPrintable ch := by
      intro ch hch
      obtain ⟨item, -, hmem⟩ := List.mem_flatMap.mp hch
      exact item.sanitized_printable ch hmem
    obtain ⟨hsplits', hstays⟩ := splits_printable width hprintable
    have hroom' : Item.HasRoom [] ((items.flatMap Item.sanitized).map .byte) := by
      cases items.flatMap Item.sanitized <;> trivial
    have hagain := sanitizeLoop_ok hsplits' List.drop_zero hroom'
    rw [hstays, List.nil_append] at hagain
    exact ⟨items, _, hsplits, sanitizeLoop_ok hsplits List.drop_zero hroom, rfl, hprintable, hagain⟩

/-- The combining acute accent has no width. -/
def accentWidth : Width := fun bytes => if bytes = [0xcc, 0x81] then some 0 else none

/-- There is no room for the accent alone. -/
theorem accent_not_sanitizes :
    (∀ bytes w, accentWidth bytes = some w → w ≤ 2) ∧ ¬ Sanitizes accentWidth [0xcc, 0x81] := by
  refine ⟨fun bytes w hw => ?_, ?_⟩
  · rw [accentWidth] at hw
    split_ifs at hw
    obtain rfl := Option.some.inj hw
    decide
  · rintro ⟨items, out, -, ⟨n, hn⟩, -⟩
    obtain ⟨m, hm⟩ := @utf8Sanitize_fatal accentWidth [0xcc, 0x81] [0xcc, 0x81] rfl
    have hreturns := hn (max m n + 1) (by omega)
    rw [hm (max m n) (by omega)] at hreturns
    cases hreturns

end Ztmux.Utf8
