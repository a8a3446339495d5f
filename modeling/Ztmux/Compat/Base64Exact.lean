import Ztmux.Compat.Base64

/-!
What is encoded and what is decoded.

A text that is decoded is, without its whitespace, the encoding of the bytes that come of it. While
it is read the bytes before the index are those decoded so far, and the byte at the index holds the
bits that are left over.
-/

namespace Ztmux.Base64

/-! ### Six bits -/

theorem REVERSE_enc : ∀ q : Fin 64, REVERSE.getD (enc q.val.toUInt8).toNat 255 = q.val.toUInt8 ∧
    isAsciiWhitespace (enc q.val.toUInt8) = false ∧ enc q.val.toUInt8 ≠ pad := by
  decide +kernel

theorem enc_REVERSE : ∀ c : Fin 256, REVERSE.getD c.val 255 = 255 ∨
    ((REVERSE.getD c.val 255).toNat < 64 ∧ enc (REVERSE.getD c.val 255) = c.val.toUInt8) := by
  decide +kernel

/-- The value of the low six bits. -/
def sextet (e : UInt8) : UInt8 := e &&& 63

theorem toNat_sextet (e : UInt8) : (sextet e).toNat = e.toNat % 64 := by
  rw [sextet, UInt8.toNat_and]
  exact Nat.and_two_pow_sub_one_eq_mod e.toNat 6

theorem enc_sextet (e : UInt8) : enc (sextet e) = enc e := by
  rw [enc, enc, sextet, UInt8.and_assoc]
  rfl

/-- The low six bits of a byte that is shifted by four or two, with bits of the next one below them.
-/
theorem lor_mod (x y i : Nat) (hi : i ≤ 6) (hy : y < 2 ^ i) :
    (x <<< i % 2 ^ 8 ||| y) % 64 = x % 2 ^ (6 - i) * 2 ^ i + y := by
  have hpow : 2 ^ 6 = 2 ^ (6 - i) * 2 ^ i := by rw [← Nat.pow_add, Nat.sub_add_cancel hi]
  have hhigh : x <<< i % 2 ^ 8 % 2 ^ 6 = (x % 2 ^ (6 - i)) <<< i := by
    rw [Nat.mod_mod_of_dvd _ (by decide), Nat.shiftLeft_eq, Nat.shiftLeft_eq, hpow,
      Nat.mul_mod_mul_right]
  have hlow : y % 2 ^ 6 = y := Nat.mod_eq_of_lt (hy.trans_le (Nat.pow_le_pow_right (by decide) hi))
  rw [show 64 = 2 ^ 6 from rfl, Nat.or_mod_two_pow, hhigh, hlow, ← Nat.shiftLeft_add_eq_or_of_lt hy,
    Nat.shiftLeft_eq]

theorem toNat_sextet_zero (a : UInt8) : (sextet (a >>> 2)).toNat = a.toNat / 4 := by
  have hlt := a.toNat_lt
  rw [toNat_sextet, UInt8.toNat_shiftRight, Nat.shiftRight_eq_div_pow]
  exact Nat.mod_eq_of_lt (by change a.toNat / 4 < 64; omega)

theorem toNat_sextet_one (a b : UInt8) :
    (sextet (a <<< 4 ||| b >>> 4)).toNat = a.toNat % 4 * 16 + b.toNat / 16 := by
  have hlt := b.toNat_lt
  rw [toNat_sextet, UInt8.toNat_or, UInt8.toNat_shiftLeft, UInt8.toNat_shiftRight,
    Nat.shiftRight_eq_div_pow]
  exact lor_mod a.toNat (b.toNat / 16) 4 (by decide) (by omega)

theorem toNat_sextet_two (b c : UInt8) :
    (sextet (b <<< 2 ||| c >>> 6)).toNat = b.toNat % 16 * 4 + c.toNat / 64 := by
  have hlt := c.toNat_lt
  rw [toNat_sextet, UInt8.toNat_or, UInt8.toNat_shiftLeft, UInt8.toNat_shiftRight,
    Nat.shiftRight_eq_div_pow]
  exact lor_mod b.toNat (c.toNat / 64) 2 (by decide) (by omega)

theorem toNat_sextet_high (a : UInt8) : (sextet (a <<< 4)).toNat = a.toNat % 4 * 16 := by
  rw [toNat_sextet, UInt8.toNat_shiftLeft]
  simpa using lor_mod a.toNat 0 4 (by decide) (by decide)

theorem toNat_sextet_middle (b : UInt8) : (sextet (b <<< 2)).toNat = b.toNat % 16 * 4 := by
  rw [toNat_sextet, UInt8.toNat_shiftLeft]
  simpa using lor_mod b.toNat 0 2 (by decide) (by decide)

/-- The bytes that six bits and the next six bits make. -/
theorem toNat_bytes : ∀ p q : Fin 64,
    (p.val.toUInt8 <<< 2 ||| q.val.toUInt8 >>> 4).toNat = p.val * 4 + q.val / 16 ∧
    ((p.val.toUInt8 &&& 15) <<< 4 ||| q.val.toUInt8 >>> 2).toNat = p.val % 16 * 16 + q.val / 4 ∧
    ((p.val.toUInt8 &&& 3) <<< 6 ||| q.val.toUInt8).toNat = p.val % 4 * 64 + q.val ∧
    ((p.val.toUInt8 &&& 15) <<< 4).toNat = p.val % 16 * 16 ∧ ((p.val.toUInt8 &&& 3) <<< 6).toNat =
      p.val % 4 * 64 := by
  decide +kernel

section

variable {p q : UInt8}

theorem toNat_byte_zero (hp : p.toNat < 64) (hq : q.toNat < 64) :
    (p <<< 2 ||| q >>> 4).toNat = p.toNat * 4 + q.toNat / 16 := by
  simpa using (toNat_bytes ⟨p.toNat, hp⟩ ⟨q.toNat, hq⟩).1

theorem toNat_byte_one (hp : p.toNat < 64) (hq : q.toNat < 64) :
    ((p &&& 15) <<< 4 ||| q >>> 2).toNat = p.toNat % 16 * 16 + q.toNat / 4 := by
  simpa using (toNat_bytes ⟨p.toNat, hp⟩ ⟨q.toNat, hq⟩).2.1

theorem toNat_byte_two (hp : p.toNat < 64) (hq : q.toNat < 64) :
    ((p &&& 3) <<< 6 ||| q).toNat = p.toNat % 4 * 64 + q.toNat := by
  simpa using (toNat_bytes ⟨p.toNat, hp⟩ ⟨q.toNat, hq⟩).2.2.1

theorem toNat_left_one (hq : q.toNat < 64) : ((q &&& 15) <<< 4).toNat = q.toNat % 16 * 16 := by
  simpa using (toNat_bytes ⟨q.toNat, hq⟩ 0).2.2.2.1

theorem toNat_left_two (hq : q.toNat < 64) : ((q &&& 3) <<< 6).toNat = q.toNat % 4 * 64 := by
  simpa using (toNat_bytes ⟨q.toNat, hq⟩ 0).2.2.2.2

theorem toNat_sextet_lt (e : UInt8) : (sextet e).toNat < 64 := by
  rw [toNat_sextet]
  exact Nat.mod_lt _ (by decide)

theorem enc_eq_enc {d e : UInt8} (h : (sextet d).toNat = (sextet e).toNat) : enc d = enc e := by
  rw [← enc_sextet d, ← enc_sextet e, UInt8.toNat.inj h]

theorem sextet_of_lt (hq : q.toNat < 64) : (sextet q).toNat = q.toNat := by
  rw [toNat_sextet, Nat.mod_eq_of_lt hq]

end

/-! ### The target -/

theorem code_bind {α β : Type} (a : α) (f : α → Code β) : ((Except.ok a : Code α) >>= f) = f a :=
  rfl

theorem store_append (front : Target) (x : Option UInt8) (rest : Target) (b : UInt8) {i : Nat}
    (hi : i = front.length) :
    store (front ++ x :: rest) i b = .ok (front ++ some b :: rest) := by
  subst hi
  rw [store, if_pos (by simp), List.set_append_right _ _ le_rfl, Nat.sub_self, List.set_cons_zero]
  rfl

theorem store_at (front mid : Target) (x : Option UInt8) (rest : Target) (b : UInt8) :
    store (front ++ (mid ++ x :: rest)) (front.length + mid.length) b =
      .ok (front ++ (mid ++ some b :: rest)) := by
  rw [← List.append_assoc, ← List.append_assoc]
  exact store_append _ x rest b List.length_append.symm

theorem store_four (front : Target) (w x y z : Option UInt8) (rest : Target) (a b c d : UInt8)
    {β : Type}
    (f : Target → Code β) :
    (store (front ++ w :: x :: y :: z :: rest) front.length a >>=
      fun dst => store dst (front.length + 1) b >>= fun dst =>
      store dst (front.length + 2) c >>= fun dst => store dst (front.length + 3) d >>= f) =
      f (front ++ [some a, some b, some c, some d] ++ rest) := by
  have hsecond : store (front ++ some a :: x :: y :: z :: rest) (front.length + 1) b = _ :=
    store_at front [some a] x _ b
  have hthird : store (front ++ ([some a] ++ some b :: y :: z :: rest)) (front.length + 2) c = _ :=
    store_at front [some a, some b] y _ c
  have hfourth : store (front ++ ([some a, some b] ++ some c :: z :: rest)) (front.length + 3) d =
      _ :=
    store_at front [some a, some b, some c] z _ d
  rw [store_append front w _ a rfl, code_bind, hsecond, code_bind, hthird, code_bind, hfourth,
    code_bind, List.append_assoc]
  rfl

theorem cur_append (front : Target) (b : UInt8) (rest : Target) {i : Nat} (hi : i = front.length) :
    cur (front ++ some b :: rest) i = .ok b := by
  subst hi
  rw [cur, List.getElem?_append_right le_rfl, Nat.sub_self]
  rfl

theorem slice_append (bs : Text) (rest : Target) :
    slice (bs.map some ++ rest) bs.length = .ok bs := by
  induction bs using List.reverseRecOn generalizing rest with
  | nil => rfl
  | append_singleton bs b ih =>
      rw [List.length_append, List.length_singleton, slice, List.map_append, List.append_assoc, ih]
      change (cur (bs.map some ++ some b :: rest) bs.length >>= _) = _
      rw [cur_append _ b rest (List.length_map some).symm]
      rfl

/-! ### Encoding -/

/-- The characters of some bytes. -/
def encode : Text → Text
  | a :: b :: c :: src =>
      enc (a >>> 2) :: enc (a <<< 4 ||| b >>> 4) :: enc (b <<< 2 ||| c >>> 6) :: enc c :: encode src
  | [a, b] => [enc (a >>> 2), enc (a <<< 4 ||| b >>> 4), enc (b <<< 2), pad]
  | [a] => [enc (a >>> 2), enc (a <<< 4), pad, pad]
  | [] => []

theorem length_encode (src : Text) : (encode src).length = divCeil src.length 3 * 4 := by
  fun_induction encode src with
  | case1 a b c src ih =>
      simp only [List.length_cons, ih, divCeil]
      omega
  | case2 a b => simp [divCeil]
  | case3 a => simp [divCeil]
  | case4 => rfl

/-- Whole groups are encoded on their own. -/
theorem encode_append {out : Text} (h : 3 ∣ out.length) (src : Text) :
    encode (out ++ src) = encode out ++ encode src := by
  fun_induction encode out with
  | case1 a b c out ih =>
      have hdvd : 3 ∣ out.length := by
        simp only [List.length_cons] at h
        omega
      simp only [List.cons_append, encode, ih hdvd]
  | case2 a b => exact absurd h (by simp)
  | case3 a => exact absurd h (by simp)
  | case4 => rfl

theorem exists_four {rest : Target} (h : 4 ≤ rest.length) :
    ∃ w x y z rest', rest = w :: x :: y :: z :: rest' := by
  match rest, h with
  | w :: x :: y :: z :: rest, _ => exact ⟨w, x, y, z, rest, rfl⟩

theorem encodeChunks_eq (src : Text) (front rest : Target)
    (hroom : (encode src).length ≤ rest.length) :
    encodeChunks src (front ++ rest) front.length =
      .ok (front ++ (encode src).map some ++ rest.drop (encode src).length,
        front.length + (encode src).length) := by
  fun_induction encode src generalizing front rest with
  | case1 a b c src ih =>
      obtain ⟨w, x, y, z, rest, rfl⟩ :=
        exists_four (show 4 ≤ rest.length by simp only [List.length_cons] at hroom; omega)
      have hnext :=
        ih (front ++ [some (enc (a >>> 2)), some (enc (a <<< 4 ||| b >>> 4)),
        some (enc (b <<< 2 ||| c >>> 6)),
        some (enc c)]) rest (by simp only [List.length_cons] at hroom; omega)
      rw [List.length_append] at hnext
      rw [encodeChunks, store_four]
      refine hnext.trans ?_
      simp only [List.map_cons, List.length_cons, List.length_nil, List.append_assoc,
        List.cons_append, List.nil_append, List.drop_succ_cons]
      congr 2
      omega
  | case2 a b =>
      obtain ⟨w, x, y, z, rest, rfl⟩ := exists_four hroom
      rw [encodeChunks, store_four]
      rfl
  | case3 a =>
      obtain ⟨w, x, y, z, rest, rfl⟩ := exists_four hroom
      rw [encodeChunks, store_four]
      rfl
  | case4 => simp [encodeChunks, pure, Except.pure]

/-- Encoding writes the characters of the bytes when there is room for them and the NUL. -/
theorem ntop_eq (src : Text) (targsize : Nat) :
    ntop src targsize = if targsize < divCeil src.length 3 * 4 + 1 then .error .invalid
      else .ok (encode src) := by
  rw [ntop]
  split_ifs with h
  · rfl
  · have hroom : (encode src).length ≤ (List.replicate targsize (none : Option UInt8)).length := by
      rw [List.length_replicate, length_encode]
      omega
    have hchunks := encodeChunks_eq src [] (List.replicate targsize none) hroom
    rw [List.nil_append, List.nil_append, List.length_nil, Nat.zero_add,
      List.drop_replicate] at hchunks
    obtain ⟨k, hk⟩ := Nat.exists_eq_add_one_of_ne_zero
      (show targsize - (encode src).length ≠ 0 by rw [length_encode]; omega)
    rw [hk, List.replicate_succ] at hchunks
    rw [hchunks, code_bind]
    dsimp only
    rw [store_append _ none _ 0 (List.length_map some).symm, code_bind]
    exact slice_append (encode src) _

/-! ### Whitespace -/

/-- A text without its whitespace. -/
def strip (text : Text) : Text := text.filter fun c => !isAsciiWhitespace c

/-- The rest of the loop's answer without its whitespace. -/
def stripped (r : Decoder × Option Text) : Decoder × Option Text := (r.1, r.2.map strip)

theorem strip_cons (c : UInt8) (text : Text) :
    strip (c :: text) = if isAsciiWhitespace c then strip text else c :: strip text := by
  rw [strip, List.filter_cons]
  cases isAsciiWhitespace c <;> rfl

theorem scan_strip (n : Nat) (text : Text) (s : Decoder) :
    scan n (strip text) s = (scan n text s).map stripped := by
  induction text generalizing s with
  | nil => rfl
  | cons ch text ih =>
      rw [strip_cons, scan]
      by_cases hspace : isAsciiWhitespace ch
      · rw [if_pos hspace, if_pos hspace, ih]
      · rw [if_neg hspace, if_neg hspace, scan, if_neg hspace]
        by_cases hpad : ch = pad
        · rw [if_pos hpad, if_pos hpad]
          rfl
        · rw [if_neg hpad, if_neg hpad]
          dsimp only
          split_ifs
          · rfl
          · cases put n (REVERSE.getD ch.toNat 255) s with
            | error stop => rfl
            | ok s' => exact ih s'

theorem secondPad_strip (text : Text) : secondPad (strip text) = (secondPad text).map strip := by
  induction text with
  | nil => rfl
  | cons c text ih =>
      rw [strip_cons, secondPad]
      by_cases hspace : isAsciiWhitespace c
      · rw [if_pos hspace, if_pos hspace, ih]
      · rw [if_neg hspace, if_neg hspace, secondPad, if_neg hspace]
        split_ifs <;> rfl

theorem all_strip (text : Text) :
    (strip text).all isAsciiWhitespace = text.all isAsciiWhitespace := by
  induction text with
  | nil => rfl
  | cons c text ih =>
      rw [strip_cons]
      by_cases hspace : isAsciiWhitespace c
      · rw [if_pos hspace, List.all_cons, hspace, Bool.true_and, ih]
      · rw [if_neg hspace, List.all_cons, List.all_cons, ih]

theorem finish_strip (n : Nat) (s : Decoder) (rest : Option Text) :
    finish n s (rest.map strip) = finish n s rest := by
  cases rest with
  | none => rfl
  | some src =>
      have htail : ∀ src, tail n (strip src) s = tail n src s :=
        fun src => by rw [tail, tail, all_strip]
      rw [Option.map_some, finish, finish, secondPad_strip, htail]
      have hsecond : ((secondPad src).map strip >>= fun src => tail n src s) =
          (secondPad src >>= fun src => tail n src s) := by
        cases secondPad src with
        | error stop => rfl
        | ok src => exact htail src
      rw [hsecond]

/-- Whitespace anywhere makes no difference. -/
theorem ptonInto_strip (n room : Nat) (text : Text) :
    ptonInto n room (strip text) = ptonInto n room text := by
  rw [ptonInto, ptonInto, scan_strip]
  cases scan n text ⟨List.replicate room none, 0, 0⟩ with
  | error stop => rfl
  | ok r =>
      change (finish n r.1 (r.2.map strip) >>= fun s => slice s.dst s.tarindex) = _
      rw [finish_strip]
      rfl

/-! ### Decoding -/

/-- The bits that do not fill a byte: written if there is a next byte, zero if there is none. -/
def Ahead (b : UInt8) (rest : Target) : Prop := rest = [] ∧ b = 0 ∨ ∃ rest', rest = some b :: rest'

/-- What the decoder holds: the bytes of whole groups and the six bits of each character since then.
-/
inductive Holding : Text → List UInt8 → Decoder → Prop
  | zero (out : Text) (rest : Target) : Holding out [] ⟨out.map some ++ rest, out.length, 0⟩
  | one (out : Text) (o : UInt8) (rest : Target) :
      Holding out [o] ⟨out.map some ++ some (o <<< 2) :: rest, out.length, 1⟩
  | two (out : Text) (o p : UInt8) (rest : Target) : Ahead ((p &&& 15) <<< 4) rest →
      Holding out [o, p] ⟨(out ++ [o <<< 2 ||| p >>> 4]).map some ++ rest, out.length + 1, 2⟩
  | three (out : Text) (o p q : UInt8) (rest : Target) : Ahead ((q &&& 3) <<< 6) rest →
      Holding out [o, p, q]
        ⟨(out ++ [o <<< 2 ||| p >>> 4, (p &&& 15) <<< 4 ||| q >>> 2]).map some ++ rest,
          out.length + 2, 3⟩

/-- What is held after one more character. -/
def advance (out : Text) : List UInt8 → UInt8 → Text × List UInt8
  | [o, p, q], r =>
      (out ++ [o <<< 2 ||| p >>> 4, (p &&& 15) <<< 4 ||| q >>> 2, (q &&& 3) <<< 6 ||| r], [])
  | held, r => (out, held ++ [r])

/-- Whether one more character has room in a target of `n` bytes. -/
def Fits (n : Nat) (out : Text) : List UInt8 → UInt8 → Prop
  | [], _ => out.length < n
  | [_], p => out.length + 1 < n ∨ (p &&& 15) <<< 4 = 0
  | [_, _], q => out.length + 1 < n ∧ (out.length + 2 < n ∨ (q &&& 3) <<< 6 = 0)
  | _, _ => out.length + 2 < n

theorem ahead_append {n : Nat} (front : Target) (rest : Target) (b : UInt8) {i : Nat}
    (hi : i = front.length)
    (hn : i + rest.length = n) :
    (rest = [] ∧ b ≠ 0 ∧ ahead n (front ++ rest) i b = .error .invalid) ∨
      ∃ rest', rest'.length = rest.length ∧ Ahead b rest' ∧ ahead n (front ++ rest) i b =
        .ok (front ++ rest') := by
  cases rest with
  | nil =>
      rw [List.length_nil] at hn
      rw [ahead, if_neg (by omega)]
      by_cases hb : b = 0
      · exact .inr ⟨[], rfl, .inl ⟨rfl, hb⟩, if_neg (not_not_intro hb)⟩
      · exact .inl ⟨rfl, hb, if_pos hb⟩
  | cons x rest =>
      rw [List.length_cons] at hn
      refine .inr ⟨some b :: rest, rfl, .inr ⟨rest, rfl⟩, ?_⟩
      rw [ahead, if_pos (by omega), store_append front x rest b hi]

section

variable (n : Nat) (r : UInt8) (dst : Target) (i : Nat)

theorem put_zero : put n r ⟨dst, i, 0⟩ = if n ≤ i then throw .invalid else (do
    let dst ← store dst i (r <<< 2)
    pure ⟨dst, i, 1⟩) := rfl

theorem put_one : put n r ⟨dst, i, 1⟩ = if n ≤ i then throw .invalid else (do
    let b ← cur dst i
    let dst ← store dst i (b ||| r >>> 4)
    let dst ← ahead n dst (i + 1) ((r &&& 15) <<< 4)
    pure ⟨dst, i + 1, 2⟩) := rfl

theorem put_two : put n r ⟨dst, i, 2⟩ = if n ≤ i then throw .invalid else (do
    let b ← cur dst i
    let dst ← store dst i (b ||| r >>> 2)
    let dst ← ahead n dst (i + 1) ((r &&& 3) <<< 6)
    pure ⟨dst, i + 1, 3⟩) := rfl

theorem put_three : put n r ⟨dst, i, 3⟩ = if n ≤ i then throw .invalid else (do
    let b ← cur dst i
    let dst ← store dst i (b ||| r)
    pure ⟨dst, i + 1, 0⟩) := rfl

end

/-- One more character is taken if it has room and refused if it has not. -/
theorem put_holding {out : Text} {held : List UInt8} {s : Decoder} (h : Holding out held s)
    {n : Nat}
    (hn : s.dst.length = n) (r : UInt8) :
    (Fits n out held r ∧ ∃ s', put n r s = .ok s' ∧ s'.dst.length = n ∧
      Holding (advance out held r).1 (advance out held r).2 s') ∨
    (¬ Fits n out held r ∧ put n r s = .error .invalid) := by
  cases h with
  | zero rest =>
      cases rest with
      | nil =>
          have hsize : out.length = n := by simpa using hn
          exact .inr ⟨by simp [Fits, hsize], by rw [put_zero, if_pos hsize.ge]; rfl⟩
      | cons x rest =>
          have hsize : out.length + (rest.length + 1) = n := by simpa using hn
          refine .inl ⟨show out.length < n by omega, _, ?_, ?_, .one out r rest⟩
          · rw [put_zero, if_neg (by omega), store_append _ x rest _ (List.length_map some).symm]
            rfl
          · simpa using hsize
  | one o rest =>
      have hsize : out.length + (rest.length + 1) = n := by simpa using hn
      have hput : put n r ⟨out.map some ++ some (o <<< 2) :: rest, out.length, 1⟩ =
          ahead n ((out ++ [o <<< 2 ||| r >>> 4]).map some ++ rest) (out.length + 1)
            ((r &&& 15) <<< 4) >>= fun dst =>
            pure ⟨dst, out.length + 1, 2⟩ := by
        rw [put_one, if_neg (by omega), cur_append _ _ rest (List.length_map some).symm, code_bind,
          store_append _ _ rest _ (List.length_map some).symm, code_bind, List.map_append,
          List.append_assoc]
        rfl
      rw [hput]
      rcases ahead_append (i := out.length + 1) (n := n) ((out ++ [o <<< 2 ||| r >>> 4]).map some)
        rest ((r &&& 15) <<< 4) (by simp)
        (by omega) with ⟨rfl, hb, hahead⟩ | ⟨rest', hlength, hahead, heq⟩
      · rw [hahead]
        rw [List.length_nil] at hsize
        refine .inr ⟨?_, rfl⟩
        rintro (hlt | hzero)
        · omega
        · exact hb hzero
      · rw [heq]
        refine .inl ⟨?_, _, rfl, by simp [hlength]; omega, .two out o r rest' hahead⟩
        rcases hahead with ⟨hnil, hb⟩ | ⟨rest'', rfl⟩
        · exact .inr hb
        · refine .inl ?_
          rw [List.length_cons] at hlength
          omega
  | two o p rest hahead =>
      rcases hahead with ⟨rfl, -⟩ | ⟨rest, rfl⟩
      · have hsize : out.length + 1 = n := by simpa using hn
        refine .inr ⟨fun hfit => absurd hfit.1 (by omega), ?_⟩
        rw [put_two, if_pos hsize.ge]
        rfl
      · have hsize : out.length + (rest.length + 1 + 1) = n := by simpa using hn
        have hput : put n r ⟨(out ++ [o <<< 2 ||| p >>> 4]).map some ++ some ((p &&& 15) <<< 4) ::
          rest, out.length + 1, 2⟩ =
            ahead n ((out ++ [o <<< 2 ||| p >>> 4, (p &&& 15) <<< 4 ||| r >>> 2]).map some ++ rest)
              (out.length + 1 + 1)
              ((r &&& 3) <<< 6) >>= fun dst => pure ⟨dst, out.length + 2, 3⟩ := by
          rw [put_two, if_neg (by omega), cur_append _ _ rest (by simp), code_bind,
            store_append _ _ rest _ (by simp), code_bind, List.map_append, List.map_append,
            List.append_assoc, List.append_assoc]
          rfl
        rw [hput]
        rcases ahead_append (i := out.length + 1 + 1) (n := n)
          ((out ++ [o <<< 2 ||| p >>> 4, (p &&& 15) <<< 4 ||| r >>> 2]).map some)
          rest ((r &&& 3) <<< 6) (by simp) (by omega) with
            ⟨rfl, hb, hahead⟩ | ⟨rest', hlength, hahead, heq⟩
        · rw [hahead]
          rw [List.length_nil] at hsize
          refine .inr ⟨?_, rfl⟩
          rintro ⟨-, hlt | hzero⟩
          · omega
          · exact hb hzero
        · rw [heq]
          refine .inl
            ⟨⟨by omega, ?_⟩, _, rfl, by simp [hlength]; omega, .three out o p r rest' hahead⟩
          rcases hahead with ⟨hnil, hb⟩ | ⟨rest'', rfl⟩
          · exact .inr hb
          · refine .inl ?_
            rw [List.length_cons] at hlength
            omega
  | three o p q rest hahead =>
      rcases hahead with ⟨rfl, -⟩ | ⟨rest, rfl⟩
      · have hsize : out.length + 2 = n := by simpa using hn
        refine .inr ⟨fun hfit => absurd hfit (show ¬ out.length + 2 < n by omega), ?_⟩
        rw [put_three, if_pos hsize.ge]
        rfl
      · have hsize : out.length + (rest.length + 1 + 1 + 1) = n := by simpa using hn
        refine .inl ⟨show out.length + 2 < n by omega, _, ?_, ?_, .zero _ rest⟩
        · rw [put_three, if_neg (by omega), cur_append _ _ rest (by simp), code_bind,
            store_append _ _ rest _ (by simp), code_bind]
          simp [pure, Except.pure, advance]
        · simp [advance]
          omega

/-! ### What is read -/

/-- The characters of three bytes are those they were made of. -/
theorem encode_bytes {o p q r : UInt8} (ho : o.toNat < 64) (hp : p.toNat < 64) (hq : q.toNat < 64)
    (hr : r.toNat < 64) :
    encode [o <<< 2 ||| p >>> 4, (p &&& 15) <<< 4 ||| q >>> 2, (q &&& 3) <<< 6 ||| r] =
      [enc o, enc p, enc q, enc r] := by
  have hzero := toNat_byte_zero ho hp
  have hone := toNat_byte_one hp hq
  have htwo := toNat_byte_two hq hr
  rw [encode, encode]
  congr 1
  · apply enc_eq_enc
    rw [toNat_sextet_zero, sextet_of_lt ho]
    omega
  congr 1
  · apply enc_eq_enc
    rw [toNat_sextet_one, sextet_of_lt hp]
    omega
  congr 1
  · apply enc_eq_enc
    rw [toNat_sextet_two, sextet_of_lt hq]
    omega
  congr 1
  apply enc_eq_enc
  rw [toNat_sextet, sextet_of_lt hr]
  omega

theorem encode_two {o p q : UInt8} (ho : o.toNat < 64) (hp : p.toNat < 64) (hq : q.toNat < 64)
    (hleft : (q &&& 3) <<< 6 = 0) :
    encode [o <<< 2 ||| p >>> 4, (p &&& 15) <<< 4 ||| q >>> 2] = [enc o, enc p, enc q, pad] := by
  have hzero := toNat_byte_zero ho hp
  have hone := toNat_byte_one hp hq
  have hleft := (toNat_left_two hq).symm.trans (congrArg UInt8.toNat hleft)
  rw [UInt8.toNat_zero] at hleft
  rw [encode]
  congr 1
  · apply enc_eq_enc
    rw [toNat_sextet_zero, sextet_of_lt ho]
    omega
  congr 1
  · apply enc_eq_enc
    rw [toNat_sextet_one, sextet_of_lt hp]
    omega
  congr 1
  apply enc_eq_enc
  rw [toNat_sextet_middle, sextet_of_lt hq]
  omega

theorem encode_one {o p : UInt8} (ho : o.toNat < 64) (hp : p.toNat < 64)
    (hleft : (p &&& 15) <<< 4 = 0) :
    encode [o <<< 2 ||| p >>> 4] = [enc o, enc p, pad, pad] := by
  have hzero := toNat_byte_zero ho hp
  have hleft := (toNat_left_one hp).symm.trans (congrArg UInt8.toNat hleft)
  rw [UInt8.toNat_zero] at hleft
  rw [encode]
  congr 1
  · apply enc_eq_enc
    rw [toNat_sextet_zero, sextet_of_lt ho]
    omega
  congr 1
  apply enc_eq_enc
  rw [toNat_sextet_high, sextet_of_lt hp]
  omega

/-- The characters that have been read of what is held. -/
def consumed (out : Text) (held : List UInt8) : Text := encode out ++ held.map enc

theorem consumed_advance {out : Text} {held : List UInt8} {s : Decoder} (h : Holding out held s)
    (hdvd : 3 ∣ out.length)
    (hheld : ∀ q ∈ held, q.toNat < 64) {r : UInt8} (hr : r.toNat < 64) :
    3 ∣ (advance out held r).1.length ∧ (∀ q ∈ (advance out held r).2, q.toNat < 64) ∧
      consumed (advance out held r).1 (advance out held r).2 = consumed out held ++ [enc r] := by
  cases h with
  | zero rest => exact ⟨hdvd, by simpa [advance] using hr, by simp [consumed, advance]⟩
  | one o rest =>
      exact ⟨hdvd, by simpa [advance] using ⟨hheld o (by simp), hr⟩, by simp [consumed, advance]⟩
  | two o p rest hahead =>
      refine ⟨hdvd, ?_, by simp [consumed, advance]⟩
      simpa [advance] using ⟨hheld o (by simp), hheld p (by simp), hr⟩
  | three o p q rest hahead =>
      refine ⟨?_, fun _ h => (nomatch h), ?_⟩
      · rw [advance, List.length_append]
        exact Nat.dvd_add hdvd (dvd_refl 3)
      · rw [advance, consumed, consumed, encode_append hdvd,
          encode_bytes (hheld o (by simp)) (hheld p (by simp)) (hheld q (by simp)) hr]
        simp

/-- A character that is neither whitespace nor a pad: refused, or six bits are taken. -/
theorem scan_cons {c : UInt8} (hspace : isAsciiWhitespace c = false) (hpad : c ≠ pad) (n : Nat)
    (text : Text) (s : Decoder) :
    scan n (c :: text) s = .error .invalid ∨
      ∃ r, r.toNat < 64 ∧ enc r = c ∧ scan n (c :: text) s = (put n r s >>= scan n text) := by
  have htable := enc_REVERSE ⟨c.toNat, c.toNat_lt⟩
  dsimp only at htable
  rw [scan, hspace, if_neg Bool.false_ne_true, if_neg hpad]
  dsimp only
  rcases htable with hbad | ⟨hlt, henc⟩
  · rw [if_pos hbad]
    exact .inl rfl
  · have hne : REVERSE.getD c.toNat 255 ≠ 255 := fun h => by
      rw [h] at hlt
      exact absurd hlt (by decide)
    rw [if_neg hne]
    exact .inr ⟨_, hlt, henc.trans (by simp), rfl⟩

theorem scan_sound {out : Text} {held : List UInt8} {s : Decoder} (h : Holding out held s) {n : Nat}
    (hn : s.dst.length = n)
    (hdvd : 3 ∣ out.length)
    (hheld : ∀ q ∈ held, q.toNat < 64) {text : Text}
    (hclean : ∀ c ∈ text, isAsciiWhitespace c = false) :
    scan n text s = .error .invalid ∨ ∃ out' held' s' rest, scan n text s = .ok (s', rest) ∧
    Holding out' held' s' ∧
      s'.dst.length = n ∧ 3 ∣ out'.length ∧ (∀ q ∈ held', q.toNat < 64) ∧
      consumed out held ++ text = consumed out' held' ++ rest.elim [] (List.cons pad) := by
  induction text generalizing out held s with
  | nil => exact .inr ⟨out, held, s, none, rfl, h, hn, hdvd, hheld, rfl⟩
  | cons c text ih =>
      obtain ⟨hspace, hclean⟩ := List.forall_mem_cons.mp hclean
      by_cases hpad : c = pad
      · refine .inr ⟨out, held, s, some text, ?_, h, hn, hdvd, hheld, by rw [hpad]; rfl⟩
        rw [scan, hspace, if_neg Bool.false_ne_true, if_pos hpad]
        rfl
      · rcases scan_cons hspace hpad n text s with hbad | ⟨r, hr, henc, hscan⟩
        · exact .inl hbad
        · rw [hscan]
          rcases put_holding h hn r with ⟨-, s', hput, hn', hnext⟩ | ⟨-, hput⟩
          · obtain ⟨hdvd', hheld', hconsumed⟩ := consumed_advance h hdvd hheld hr
            rw [hput, code_bind]
            rcases ih hnext hn' hdvd' hheld' hclean with
                hbad | ⟨out', held', s'', rest, hok, hholding, hlen, hd, hb, htext⟩
            · exact .inl hbad
            · refine .inr ⟨out', held', s'', rest, hok, hholding, hlen, hd, hb, ?_⟩
              rw [hconsumed, henc, List.append_assoc] at htext
              exact htext
          · rw [hput]
            exact .inl rfl

/-- The end of a text without whitespace is accepted if nothing follows the pads and the bits left
over are zero. -/
theorem tail_clean {front : Text} {rest : Target} {b : UInt8} (hahead : Ahead b rest) {n i k : Nat}
    (hi : i = front.length)
    (hn : i + rest.length = n) {src : Text} (hclean : ∀ c ∈ src, isAsciiWhitespace c = false) :
    (src = [] ∧ b = 0 ∧ tail n src ⟨front.map some ++ rest, i, k⟩ =
      .ok ⟨front.map some ++ rest, i, k⟩) ∨
      (¬ (src = [] ∧ b = 0) ∧ tail n src ⟨front.map some ++ rest, i, k⟩ = .error .invalid) := by
  cases src with
  | cons c src =>
      refine .inr ⟨fun h => (nomatch h.1), ?_⟩
      rw [tail, if_pos (by simp [hclean c List.mem_cons_self])]
      rfl
  | nil =>
      rw [tail, if_neg (by simp)]
      rcases hahead with ⟨rfl, hb⟩ | ⟨rest, rfl⟩
      · refine .inl ⟨rfl, hb, ?_⟩
        rw [List.length_nil] at hn
        rw [if_neg (by dsimp only; omega)]
        rfl
      · rw [List.length_cons] at hn
        rw [if_pos (by dsimp only; omega), cur_append _ b rest (by simp [hi]), code_bind]
        by_cases hb : b = 0
        · exact .inl ⟨rfl, hb, if_neg (not_not_intro hb)⟩
        · exact .inr ⟨fun h => hb h.2, if_pos hb⟩

theorem finish_sound {out : Text} {held : List UInt8} {s : Decoder} (h : Holding out held s)
    {n : Nat} (hn : s.dst.length = n)
    (hdvd : 3 ∣ out.length)
    (hheld : ∀ q ∈ held, q.toNat < 64) {rest : Option Text}
    (hclean : ∀ src ∈ rest, ∀ c ∈ src, isAsciiWhitespace c = false) :
    finish n s rest = .error .invalid ∨ ∃ out', finish n s rest = .ok s ∧ slice s.dst s.tarindex =
      .ok out' ∧
      consumed out held ++ rest.elim [] (List.cons pad) = encode out' := by
  cases rest with
  | none =>
      cases h with
      | zero rest =>
          refine .inr ⟨out, rfl, slice_append out rest, ?_⟩
          rw [consumed, List.map_nil, List.append_nil]
          exact List.append_nil _
      | one o rest => exact .inl rfl
      | two o p rest hahead => exact .inl rfl
      | three o p q rest hahead => exact .inl rfl
  | some src =>
      have hclean := hclean src rfl
      cases h with
      | zero rest => exact .inl rfl
      | one o rest => exact .inl rfl
      | two o p rest hahead =>
          have hsize : out.length + 1 + rest.length = n := by simp at hn; omega
          have hfinish : finish n ⟨(out ++ [o <<< 2 ||| p >>> 4]).map some ++ rest, out.length + 1,
            2⟩ (some src) =
              secondPad src >>= fun src =>
                tail n src ⟨(out ++ [o <<< 2 ||| p >>> 4]).map some ++ rest, out.length + 1, 2⟩ :=
                  rfl
          rw [hfinish]
          cases src with
          | nil => exact .inl rfl
          | cons c src =>
              obtain ⟨hspace, hclean⟩ := List.forall_mem_cons.mp hclean
              rw [secondPad, hspace, if_neg Bool.false_ne_true]
              by_cases hpad : c = pad
              · rw [if_pos hpad]
                change tail n src _ = _ ∨ ∃ out', tail n src _ = _ ∧ _
                rcases tail_clean (k := 2) hahead (show out.length + 1 =
                  (out ++ [o <<< 2 ||| p >>> 4]).length by simp) hsize hclean with
                  ⟨rfl, hb, htail⟩ | ⟨-, htail⟩
                · refine .inr ⟨out ++ [o <<< 2 ||| p >>> 4], htail, ?_, ?_⟩
                  · have hslice := slice_append (out ++ [o <<< 2 ||| p >>> 4]) rest
                    rwa [List.length_append, List.length_singleton] at hslice
                  · rw [encode_append hdvd, encode_one (hheld o (by simp)) (hheld p (by simp)) hb,
                      hpad, consumed]
                    simp
                · exact .inl htail
              · rw [if_neg hpad]
                exact .inl rfl
      | three o p q rest hahead =>
          have hsize : out.length + 2 + rest.length = n := by simp at hn; omega
          rcases tail_clean (k := 3) hahead
              (show out.length + 2 =
                (out ++ [o <<< 2 ||| p >>> 4, (p &&& 15) <<< 4 ||| q >>> 2]).length by
                  simp) hsize hclean with
            ⟨rfl, hb, htail⟩ | ⟨-, htail⟩
          · refine .inr ⟨out ++ [o <<< 2 ||| p >>> 4, (p &&& 15) <<< 4 ||| q >>> 2], htail, ?_, ?_⟩
            · have hslice :=
                slice_append (out ++ [o <<< 2 ||| p >>> 4, (p &&& 15) <<< 4 ||| q >>> 2]) rest
              rwa [List.length_append] at hslice
            · rw [encode_append hdvd, encode_two (hheld o (by simp)) (hheld p (by simp))
                (hheld q (by simp)) hb, consumed]
              simp
          · exact .inl htail

theorem strip_clean (text : Text) : ∀ c ∈ strip text, isAsciiWhitespace c = false := by
  intro c hc
  simpa using (List.mem_filter.mp hc).2

/-- A text is refused, or it is the encoding of the bytes it gives. -/
theorem pton_sound (text : Text) (targsize : Nat) :
    pton text targsize = .error .invalid ∨ ∃ out, pton text targsize = .ok out ∧ strip text =
      encode out := by
  rw [pton, ← ptonInto_strip, ptonInto]
  have hholding := Holding.zero [] (List.replicate targsize none)
  rw [List.map_nil, List.nil_append, List.length_nil] at hholding
  rcases scan_sound hholding List.length_replicate (by simp) (fun _ h => (nomatch h))
    (strip_clean text) with
    hbad | ⟨out, held, s, rest, hscan, hholding', hlen, hdvd, hheld, htext⟩
  · rw [hbad]
    exact .inl rfl
  · change strip text = _ at htext
    have hclean : ∀ src ∈ rest, ∀ c ∈ src, isAsciiWhitespace c = false := by
      rintro src hsrc c hc
      obtain rfl := hsrc
      refine strip_clean text c ?_
      rw [htext]
      exact List.mem_append_right _ (List.mem_cons_of_mem _ hc)
    rw [hscan, code_bind]
    rcases finish_sound hholding' hlen hdvd hheld hclean with
        hbad | ⟨out', hfinish, hslice, hencode⟩
    · dsimp only
      rw [hbad]
      exact .inl rfl
    · dsimp only
      rw [hfinish, code_bind, hslice]
      exact .inr ⟨out', rfl, htext.trans hencode⟩

/-! ### Reading back -/

theorem put_fits {out : Text} {held : List UInt8} {s : Decoder} (h : Holding out held s) {n : Nat}
    (hn : s.dst.length = n) {r : UInt8} (hfit : Fits n out held r) :
    ∃ s', put n r s = .ok s' ∧ s'.dst.length = n ∧
      Holding (advance out held r).1 (advance out held r).2 s' := by
  rcases put_holding h hn r with ⟨-, hput⟩ | ⟨hnot, -⟩
  · exact hput
  · exact absurd hfit hnot

theorem scan_enc (e : UInt8) (n : Nat) (text : Text) (s : Decoder) :
    scan n (enc e :: text) s = (put n (sextet e) s >>= scan n text) := by
  obtain ⟨htable, hspace, hpad⟩ := REVERSE_enc ⟨(sextet e).toNat, toNat_sextet_lt e⟩
  have hvalue : (sextet e).toNat.toUInt8 = sextet e := UInt8.ofNat_toNat
  dsimp only at htable hspace hpad
  rw [hvalue, enc_sextet] at htable hspace hpad
  have hne : sextet e ≠ 255 := fun h => absurd (h ▸ toNat_sextet_lt e) (by decide)
  rw [scan, hspace, if_neg Bool.false_ne_true, if_neg hpad]
  dsimp only
  rw [htable, if_neg hne]

theorem byte_zero (a b : UInt8) : sextet (a >>> 2) <<< 2 ||| sextet (a <<< 4 ||| b >>> 4) >>> 4 =
    a := by
  apply UInt8.toNat.inj
  have hb := b.toNat_lt
  rw [toNat_byte_zero (toNat_sextet_lt _) (toNat_sextet_lt _), toNat_sextet_zero, toNat_sextet_one]
  omega

theorem byte_one (a b c : UInt8) :
    (sextet (a <<< 4 ||| b >>> 4) &&& 15) <<< 4 ||| sextet (b <<< 2 ||| c >>> 6) >>> 2 = b := by
  apply UInt8.toNat.inj
  have hb := b.toNat_lt
  have hc := c.toNat_lt
  rw [toNat_byte_one (toNat_sextet_lt _) (toNat_sextet_lt _), toNat_sextet_one, toNat_sextet_two]
  omega

theorem byte_two (b c : UInt8) : (sextet (b <<< 2 ||| c >>> 6) &&& 3) <<< 6 ||| sextet c = c := by
  apply UInt8.toNat.inj
  have hc := c.toNat_lt
  rw [toNat_byte_two (toNat_sextet_lt _) (toNat_sextet_lt _), toNat_sextet_two, toNat_sextet]
  omega

theorem shiftRight_zero_or (a : UInt8) :
    a <<< 4 ||| (0 : UInt8) >>> 4 = a <<< 4 ∧ a <<< 2 ||| (0 : UInt8) >>> 6 = a <<< 2 := by
  constructor
  · rw [UInt8.zero_shiftRight, UInt8.or_zero]
  · rw [UInt8.zero_shiftRight, UInt8.or_zero]

theorem left_one (a : UInt8) : (sextet (a <<< 4) &&& 15) <<< 4 = 0 := by
  apply UInt8.toNat.inj
  rw [toNat_left_one (toNat_sextet_lt _), toNat_sextet_high, UInt8.toNat_zero]
  omega

theorem left_two (b : UInt8) : (sextet (b <<< 2) &&& 3) <<< 6 = 0 := by
  apply UInt8.toNat.inj
  rw [toNat_left_two (toNat_sextet_lt _), toNat_sextet_middle, UInt8.toNat_zero]
  omega

theorem read_two {out : Text} {o p q : UInt8} {s : Decoder} (h : Holding out [o, p, q] s)
    {n : Nat} (hn : s.dst.length = n) (hleft : (q &&& 3) <<< 6 = 0) :
    (scan n [pad] s >>= fun r => finish n r.1 r.2 >>= fun s => slice s.dst s.tarindex) =
      .ok (out ++ [o <<< 2 ||| p >>> 4, (p &&& 15) <<< 4 ||| q >>> 2]) := by
  cases h with
  | three o p q rest hahead =>
      have hlength : out.length + 2 =
          (out ++ [o <<< 2 ||| p >>> 4, (p &&& 15) <<< 4 ||| q >>> 2]).length := by simp
      have hsize : out.length + 2 + rest.length = n := by simp at hn; omega
      change (tail n [] _ >>= fun s => slice s.dst s.tarindex) = _
      rcases @tail_clean _ rest _ hahead n _ 3 hlength hsize [] (fun _ h => (nomatch h)) with
          ⟨-, -, htail⟩ | ⟨hnot, -⟩
      · rw [htail, code_bind]
        dsimp only
        rw [hlength]
        exact slice_append _ rest
      · exact absurd ⟨rfl, hleft⟩ hnot

theorem read_one {out : Text} {o p : UInt8} {s : Decoder} (h : Holding out [o, p] s)
    {n : Nat} (hn : s.dst.length = n) (hleft : (p &&& 15) <<< 4 = 0) :
    (scan n [pad, pad] s >>= fun r => finish n r.1 r.2 >>= fun s => slice s.dst s.tarindex) =
      .ok (out ++ [o <<< 2 ||| p >>> 4]) := by
  cases h with
  | two o p rest hahead =>
      have hlength : out.length + 1 = (out ++ [o <<< 2 ||| p >>> 4]).length := by simp
      have hsize : out.length + 1 + rest.length = n := by simp at hn; omega
      change (tail n [] _ >>= fun s => slice s.dst s.tarindex) = _
      rcases @tail_clean _ rest _ hahead n _ 2 hlength hsize [] (fun _ h => (nomatch h)) with
          ⟨-, -, htail⟩ | ⟨hnot, -⟩
      · rw [htail, code_bind]
        dsimp only
        rw [hlength]
        exact slice_append _ rest
      · exact absurd ⟨rfl, hleft⟩ hnot

/-- The encoding of some bytes is read back if there is room for the bytes. -/
theorem scan_encode (src : Text) {out : Text} {s : Decoder} (h : Holding out [] s) {n : Nat}
    (hn : s.dst.length = n)
    (hdvd : 3 ∣ out.length) (hroom : out.length + src.length ≤ n) :
    (scan n (encode src) s >>= fun r => finish n r.1 r.2 >>= fun s => slice s.dst s.tarindex) =
      .ok (out ++ src) := by
  fun_induction encode src generalizing out s with
  | case1 a b c src ih =>
      simp only [List.length_cons] at hroom
      obtain ⟨s₁, hput₁, hlen₁, h₁⟩ :=
        put_fits h hn (r := sextet (a >>> 2)) (show out.length < n by omega)
      obtain ⟨s₂, hput₂, hlen₂, h₂⟩ := put_fits h₁ hlen₁ (r := sextet (a <<< 4 ||| b >>> 4))
        (show out.length + 1 < n ∨ _ from .inl (by omega))
      obtain ⟨s₃, hput₃, hlen₃, h₃⟩ := put_fits h₂ hlen₂ (r := sextet (b <<< 2 ||| c >>> 6))
        (show out.length + 1 < n ∧ (out.length + 2 < n ∨ _) from ⟨by omega, .inl (by omega)⟩)
      obtain ⟨s₄, hput₄, hlen₄, h₄⟩ :=
        put_fits h₃ hlen₃ (r := sextet c) (show out.length + 2 < n by omega)
      have hbytes : Holding (out ++ [a, b, c]) [] s₄ := by
        have hnext : Holding (out ++ [sextet (a >>> 2) <<< 2 ||| sextet (a <<< 4 ||| b >>> 4) >>> 4,
          (sextet (a <<< 4 ||| b >>> 4) &&& 15) <<< 4 ||| sextet (b <<< 2 ||| c >>> 6) >>> 2,
          (sextet (b <<< 2 ||| c >>> 6) &&& 3) <<< 6 ||| sextet c]) [] s₄ := h₄
        rwa [byte_zero, byte_one, byte_two] at hnext
      have hrest :=
        ih hbytes hlen₄ (by rw [List.length_append]; exact Nat.dvd_add hdvd (dvd_refl 3))
        (by simp only [List.length_append, List.length_cons, List.length_nil]; omega)
      rw [scan_enc, hput₁, code_bind, scan_enc, hput₂, code_bind, scan_enc, hput₃, code_bind,
        scan_enc, hput₄, code_bind, hrest]
      simp
  | case2 a b =>
      simp only [List.length_cons, List.length_nil] at hroom
      have hzero := byte_zero a b
      have hone := byte_one a b 0
      rw [(shiftRight_zero_or b).2] at hone
      obtain ⟨s₁, hput₁, hlen₁, h₁⟩ :=
        put_fits h hn (r := sextet (a >>> 2)) (show out.length < n by omega)
      obtain ⟨s₂, hput₂, hlen₂, h₂⟩ := put_fits h₁ hlen₁ (r := sextet (a <<< 4 ||| b >>> 4))
        (show out.length + 1 < n ∨ _ from .inl (by omega))
      obtain ⟨s₃, hput₃, hlen₃, h₃⟩ := put_fits h₂ hlen₂ (r := sextet (b <<< 2))
        (show out.length + 1 < n ∧
          (_ ∨ (sextet (b <<< 2) &&& 3) <<< 6 = 0) from ⟨by omega, .inr (left_two b)⟩)
      have hheld : Holding out [sextet (a >>> 2), sextet (a <<< 4 ||| b >>> 4), sextet (b <<< 2)]
          s₃ := h₃
      rw [scan_enc, hput₁, code_bind, scan_enc, hput₂, code_bind, scan_enc, hput₃, code_bind,
        read_two hheld hlen₃ (left_two b), hzero, hone]
  | case3 a =>
      simp only [List.length_cons, List.length_nil] at hroom
      have hzero := byte_zero a 0
      rw [(shiftRight_zero_or a).1] at hzero
      obtain ⟨s₁, hput₁, hlen₁, h₁⟩ :=
        put_fits h hn (r := sextet (a >>> 2)) (show out.length < n by omega)
      obtain ⟨s₂, hput₂, hlen₂, h₂⟩ := put_fits h₁ hlen₁ (r := sextet (a <<< 4))
        (show _ ∨ (sextet (a <<< 4) &&& 15) <<< 4 = 0 from .inr (left_one a))
      have hheld : Holding out [sextet (a >>> 2), sextet (a <<< 4)] s₂ := h₂
      rw [scan_enc, hput₁, code_bind, scan_enc, hput₂, code_bind, read_one hheld hlen₂ (left_one a),
        hzero]
  | case4 =>
      cases h with
      | zero rest =>
          refine (slice_append out rest).trans ?_
          rw [List.append_nil]

theorem pton_encode {src text : Text} {targsize : Nat} (hroom : src.length ≤ targsize)
    (htext : strip text = encode src) :
    pton text targsize = .ok src := by
  have hholding := Holding.zero [] (List.replicate targsize none)
  rw [List.map_nil, List.nil_append, List.length_nil] at hholding
  have hread := scan_encode src hholding List.length_replicate (by simp) (by simpa using hroom)
  rw [pton, ← ptonInto_strip, htext]
  exact hread

/-- What is encoded is decoded again, whatever whitespace is put in; a text that is decoded is,
without its whitespace, the encoding of what it gives; and no byte is touched outside the target or
read before it is written. -/
theorem ntop_pton_exact :
    (∀ (src : Text) (targsize decsize : Nat), divCeil src.length 3 * 4 + 1 ≤ targsize →
      src.length ≤ decsize →
      ∃ encoded, ntop src targsize = .ok encoded ∧ ∀ text, strip text = encoded →
      pton text decsize = .ok src) ∧
    (∀ (text : Text) (targsize : Nat) (out : Text), pton text targsize = .ok out →
      ∀ n, divCeil out.length 3 * 4 + 1 ≤ n → ntop out n = .ok (strip text)) ∧
    ∀ (text : Text) (targsize : Nat), pton text targsize ≠ .error .outside ∧ pton text targsize ≠
      .error .unwritten := by
  refine ⟨fun src targsize decsize htarg hdec =>
    ⟨encode src, ?_, fun text htext => pton_encode hdec htext⟩, fun text targsize out hout n hn =>
      ?_, fun text targsize => ?_⟩
  · rw [ntop_eq, if_neg (by omega)]
  · rcases pton_sound text targsize with hbad | ⟨out', hok, htext⟩
    · rw [hbad] at hout
      cases hout
    · rw [hok] at hout
      obtain rfl := Except.ok.inj hout
      rw [ntop_eq, if_neg (by omega), htext]
  · rcases pton_sound text targsize with hbad | ⟨out, hok, -⟩
    · rw [hbad]
      exact ⟨by simp, by simp⟩
    · rw [hok]
      exact ⟨by simp, by simp⟩

end Ztmux.Base64
