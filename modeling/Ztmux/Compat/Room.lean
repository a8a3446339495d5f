import Ztmux.Compat.Base64Exact

/-!
Decoding into less than it is told.

The room that there is need not be the size that is given. Every whole group takes three bytes, and
the first character after a group is written at once: what is written stays in a room of whole
groups as long as there are no more characters than those groups hold.
-/

namespace Ztmux.Base64

/-- The characters of the alphabet before the first that ends the decoding. -/
def characters (text : Text) : Nat :=
  ((strip text).takeWhile fun c => decide (REVERSE.getD c.toNat 255 ≠ 255)).length

theorem characters_cons {c : UInt8} (hspace : isAsciiWhitespace c = false) (text : Text) :
    characters (c :: text) = if REVERSE.getD c.toNat 255 ≠ 255 then characters text + 1 else 0 := by
  rw [characters, strip_cons, hspace, if_neg Bool.false_ne_true, List.takeWhile_cons]
  by_cases h : REVERSE.getD c.toNat 255 = 255
  · rw [if_neg (by simpa using h), if_neg (not_not_intro h)]
    rfl
  · rw [if_pos (by simpa using h), if_pos h]
    rfl

theorem strip_strip (text : Text) : strip (strip text) = strip text :=
  List.filter_eq_self.mpr fun c hc => by simpa using strip_clean text c hc

theorem characters_strip (text : Text) : characters (strip text) = characters text := by
  rw [characters, strip_strip]
  rfl

theorem REVERSE_pad : REVERSE.getD pad.toNat 255 = 255 := by decide +kernel

theorem characters_pad (text : Text) : characters (pad :: text) = 0 := by
  rw [characters_cons (by decide), if_neg (not_not_intro REVERSE_pad)]

theorem scan_pad (n : Nat) (text : Text) (s : Decoder) :
    scan n (pad :: text) s = .ok (s, some text) := by
  have hspace : isAsciiWhitespace pad = false := by decide
  rw [scan, hspace, if_neg Bool.false_ne_true, if_pos rfl]
  rfl

/-- A character that is neither whitespace nor a pad is refused or gives its six bits. -/
theorem scan_character {c : UInt8} (hspace : isAsciiWhitespace c = false) (hpad : c ≠ pad) (n : Nat)
    (text : Text)
    (s : Decoder) : scan n (c :: text) s =
      if REVERSE.getD c.toNat 255 = 255 then .error .invalid
        else put n (REVERSE.getD c.toNat 255) s >>= scan n text := by
  rw [scan, hspace, if_neg Bool.false_ne_true, if_neg hpad]
  rfl

section

variable {out : Text} {held : List UInt8} {s : Decoder} {n m : Nat}

theorem put_size (r : UInt8) (hn : s.tarindex + 1 < n) (hm : s.tarindex + 1 < m) :
    put n r s = put m r s := by
  have hahead : ∀ dst b, ahead n dst (s.tarindex + 1) b = ahead m dst (s.tarindex + 1) b :=
    fun dst b => by
    rw [ahead, ahead, if_pos hn, if_pos hm]
  rw [put, put]
  simp only [hahead, if_neg (show ¬ n ≤ s.tarindex by omega),
    if_neg (show ¬ m ≤ s.tarindex by omega)]

/-- With room for a group, the size that is given does not matter. -/
theorem put_room (h : Holding out held s) (hlen : s.dst.length = 3 * m) (hn : 3 * m < n)
    (hroom : out.length + 3 ≤ 3 * m)
    (r : UInt8) : ∃ s', put n r s = .ok s' ∧ put (3 * m) r s = .ok s' ∧ s'.dst.length = 3 * m ∧
      Holding (advance out held r).1 (advance out held r).2 s' := by
  have hfit : Fits (3 * m) out held r := by
    cases h with
    | zero rest => exact show out.length < 3 * m by omega
    | one o rest => exact .inl (by omega)
    | two o p rest hahead => exact ⟨by omega, .inl (by omega)⟩
    | three o p q rest hahead => exact show out.length + 2 < 3 * m by omega
  obtain ⟨s', hput, hlen', hnext⟩ := put_fits h hlen hfit
  refine ⟨s', ?_, hput, hlen', hnext⟩
  rw [← hput]
  cases h with
  | zero rest => exact put_size r (by dsimp only; omega) (by dsimp only; omega)
  | one o rest => exact put_size r (by dsimp only; omega) (by dsimp only; omega)
  | two o p rest hahead => exact put_size r (by dsimp only; omega) (by dsimp only; omega)
  | three o p q rest hahead => rw [put_three, put_three, if_neg (by omega), if_neg (by omega)]

theorem length_advance (h : Holding out held s) (r : UInt8) :
    4 * ((advance out held r).1.length / 3) + (advance out held r).2.length =
      4 * (out.length / 3) + held.length + 1 ∧
      ((advance out held r).1.length = out.length ∨ (advance out held r).1.length = out.length + 3 ∧
        (advance out held r).2 = []) := by
  cases h with
  | zero rest => exact ⟨rfl, .inl rfl⟩
  | one o rest => exact ⟨rfl, .inl rfl⟩
  | two o p rest hahead => exact ⟨rfl, .inl rfl⟩
  | three o p q rest hahead =>
      simp only [advance, List.length_append, List.length_cons, List.length_nil]
      refine ⟨by omega, .inr ⟨trivial, trivial⟩⟩

/-- The room a decoder has: a group that has been begun fits. -/
structure Roomy (m : Nat) (out : Text) (held : List UInt8) (s : Decoder) : Prop where
  holding : Holding out held s
  whole : 3 ∣ out.length
  length : s.dst.length = 3 * m
  written : out.length ≤ 3 * m
  begun : held ≠ [] → out.length + 3 ≤ 3 * m

theorem Holding.length_le (h : Holding out held s) : held.length ≤ 3 := by
  cases h with
  | zero rest => exact Nat.zero_le 3
  | one o rest => exact show 1 ≤ 3 by decide
  | two o p rest hahead => exact show 2 ≤ 3 by decide
  | three o p q rest hahead => exact le_refl 3

/-- What has been read is no more than the groups there is room for. -/
theorem Roomy.read_le (h : Roomy m out held s) : 4 * (out.length / 3) + held.length ≤ 4 * m := by
  have hheld := h.holding.length_le
  have hout := h.written
  obtain ⟨k, hk⟩ := h.whole
  rw [hk] at hout ⊢
  rw [Nat.mul_div_cancel_left k (by decide)]
  by_cases hnil : held = []
  · rw [hnil, List.length_nil]
    omega
  · have hbegun := h.begun hnil
    omega

/-- A character that begins a group has room, or what has been read fills the room. -/
theorem Roomy.full_or_room (h : Roomy m out held s) :
    held = [] ∧ out.length = 3 * m ∨ out.length + 3 ≤ 3 * m := by
  by_cases hnil : held = []
  · obtain ⟨k, hk⟩ := h.whole
    have hout := h.written
    by_cases hfull : out.length = 3 * m
    · exact .inl ⟨hnil, hfull⟩
    · exact .inr (by omega)
  · exact .inr (h.begun hnil)

theorem Roomy.put (h : Roomy m out held s) (hn : 3 * m < n) (hroom : out.length + 3 ≤ 3 * m)
    (r : UInt8) :
    ∃ s', put n r s = .ok s' ∧ put (3 * m) r s = .ok s' ∧
    Roomy m (advance out held r).1 (advance out held r).2 s' := by
  obtain ⟨s', hput, hput', hlen, hnext⟩ := put_room h.holding h.length hn hroom r
  refine ⟨s', hput, hput', hnext, ?_, hlen, ?_, ?_⟩
  · have hdvd := h.whole
    rcases (length_advance h.holding r).2 with heq | ⟨heq, -⟩ <;> rw [heq] <;> omega
  · rcases (length_advance h.holding r).2 with heq | ⟨heq, -⟩ <;> rw [heq] <;> omega
  · intro hheld
    rcases (length_advance h.holding r).2 with heq | ⟨-, hnil⟩
    · rw [heq]
      exact hroom
    · exact absurd hnil hheld

/-- In a full room the next character is written outside. -/
theorem Roomy.put_outside (h : Roomy m out [] s) (hn : 3 * m < n) (hfull : out.length = 3 * m)
    (r : UInt8) :
    Base64.put n r s = .error .outside := by
  have hlen := h.length
  cases h.holding with
  | zero rest =>
      rw [put_zero, if_neg (by omega), store, if_neg (by dsimp only at hlen; omega)]
      rfl

/-- As long as the characters fit, reading goes on as it would if the room were the size that is
given; the first that does not fit is written outside. -/
theorem scan_room (h : Roomy m out held s) (hn : 3 * m < n) {text : Text}
    (hclean : ∀ c ∈ text, isAsciiWhitespace c = false) :
    (4 * (out.length / 3) + held.length + characters text ≤ 4 * m →
      scan n text s = scan (3 * m) text s ∧
      ∀ r, scan (3 * m) text s = .ok r → ∃ out' held', Roomy m out' held' r.1) ∧
    (4 * m < 4 * (out.length / 3) + held.length + characters text →
      scan n text s = .error .outside) := by
  have hread := h.read_le
  induction text generalizing out held s with
  | nil =>
      refine ⟨fun _ => ⟨rfl, fun r hr => ⟨out, held, ?_⟩⟩, fun hmany => absurd hmany hread.not_gt⟩
      rw [← Except.ok.inj hr]
      exact h
  | cons c text ih =>
      obtain ⟨hspace, hclean⟩ := List.forall_mem_cons.mp hclean
      by_cases hpad : c = pad
      · rw [hpad, characters_pad, Nat.add_zero, scan_pad, scan_pad]
        refine ⟨fun _ => ⟨rfl, fun r hr => ⟨out, held, ?_⟩⟩, fun hmany => absurd hmany hread.not_gt⟩
        rw [← Except.ok.inj hr]
        exact h
      · rw [characters_cons hspace, scan_character hspace hpad, scan_character hspace hpad]
        by_cases hbad : REVERSE.getD c.toNat 255 = 255
        · rw [if_pos hbad, if_pos hbad, if_neg (not_not_intro hbad), Nat.add_zero]
          exact ⟨fun _ => ⟨rfl, fun r hr => (nomatch hr)⟩, fun hmany => absurd hmany hread.not_gt⟩
        · rw [if_neg hbad, if_neg hbad, if_pos hbad]
          rcases h.full_or_room with ⟨rfl, hfull⟩ | hroom
          · have hcount : 4 * (out.length / 3) = 4 * m := by
              rw [hfull, Nat.mul_div_cancel_left m (by decide)]
            refine ⟨fun hfew => absurd hfew (by rw [hcount]; omega), fun _ => ?_⟩
            rw [h.put_outside hn hfull]
            rfl
          · obtain ⟨s', hput, hput', hnext⟩ := h.put hn hroom (REVERSE.getD c.toNat 255)
            have hcount := (length_advance h.holding (REVERSE.getD c.toNat 255)).1
            have hrest := ih hnext hclean hnext.read_le
            rw [hput, hput', code_bind, code_bind]
            rw [hcount] at hrest
            exact ⟨fun hfew => hrest.1 (by omega), fun hmany => hrest.2 (by omega)⟩

theorem tail_size {src : Text} (hn : s.tarindex < n) (hm : s.tarindex < m) :
    tail n src s = tail m src s := by
  rw [tail, tail, if_pos hn, if_pos hm]

/-- What is checked at the end is about bytes inside the room. -/
theorem Roomy.finish (h : Roomy m out held s) (hn : 3 * m < n) (rest : Option Text) :
    finish n s rest = finish (3 * m) s rest := by
  have hbegun := h.begun
  cases rest with
  | none => rfl
  | some src =>
      cases h.holding with
      | zero rest => rfl
      | one o rest => rfl
      | two o p rest hahead =>
          have hroom := hbegun (List.cons_ne_nil _ _)
          exact bind_congr fun src => tail_size (by dsimp only; omega) (by dsimp only; omega)
      | three o p q rest hahead =>
          have hroom := hbegun (List.cons_ne_nil _ _)
          exact tail_size (by dsimp only; omega) (by dsimp only; omega)

end

/-- Told more than there is, the decoder does as it should when the characters fit into the groups
there is room for, and writes outside when they do not. -/
theorem ptonInto_room (text : Text) {n m : Nat} (hn : 3 * m < n) :
    ptonInto n (3 * m) text = if characters text ≤ 4 * m then pton text (3 * m)
      else .error .outside := by
  have hroomy : Roomy m [] [] ⟨List.replicate (3 * m) none, 0, 0⟩ :=
    ⟨.zero [] _, by simp, List.length_replicate, Nat.zero_le _, fun h => absurd rfl h⟩
  obtain ⟨hfew, hmany⟩ := scan_room hroomy hn (strip_clean text)
  simp only [List.length_nil, Nat.zero_div, Nat.mul_zero, Nat.add_zero, Nat.zero_add,
    characters_strip] at hfew hmany
  rw [pton, ← ptonInto_strip, ← ptonInto_strip (3 * m), ptonInto, ptonInto]
  split_ifs with h
  · obtain ⟨heq, hend⟩ := hfew h
    rw [heq]
    cases hscan : scan (3 * m) (strip text) ⟨List.replicate (3 * m) none, 0, 0⟩ with
    | error stop => rfl
    | ok r =>
        obtain ⟨out, held, hroomy'⟩ := hend r hscan
        rw [code_bind, code_bind]
        dsimp only
        rw [hroomy'.finish hn]
  · rw [hmany (by omega)]
    rfl

theorem encode_clean (src : Text) : ∀ c ∈ encode src, c ≠ 0 ∧ isAsciiWhitespace c = false := by
  have henc : ∀ e, enc e ≠ 0 ∧ isAsciiWhitespace (enc e) = false := fun e => by
    have hvalue : (sextet e).toNat.toUInt8 = sextet e := UInt8.ofNat_toNat
    have htable : ∀ q : Fin 64, enc q.val.toUInt8 ≠ 0 := by decide +kernel
    have hne := htable ⟨(sextet e).toNat, toNat_sextet_lt e⟩
    have hspace := (REVERSE_enc ⟨(sextet e).toNat, toNat_sextet_lt e⟩).2.1
    dsimp only at hne hspace
    rw [hvalue, enc_sextet] at hne hspace
    exact ⟨hne, hspace⟩
  have hpad : pad ≠ 0 ∧ isAsciiWhitespace pad = false := by decide
  fun_induction encode src with
  | case1 a b c src ih =>
      simpa only [List.forall_mem_cons, henc, true_and, ne_eq, not_false_eq_true] using ih
  | case2 a b =>
      simp only [List.forall_mem_cons, henc, hpad, ne_eq, not_false_eq_true, and_self,
        List.not_mem_nil, false_imp_iff, implies_true]
  | case3 a =>
      simp only [List.forall_mem_cons, henc, hpad, ne_eq, not_false_eq_true, and_self,
        List.not_mem_nil, false_imp_iff, implies_true]
  | case4 => exact fun _ h => absurd h List.not_mem_nil

end Ztmux.Base64
