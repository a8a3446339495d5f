import Ztmux.Utf8.Sanitize

/-!
Making the bytes of a string visible.

Complete characters pass as they are, and other bytes are encoded one by one. There are two
encoders: one writes to memory and ends what it has written with a terminator, the other adds to a
vector.
-/

namespace Ztmux.Utf8

/-! ### Model -/

structure VisFlags where
  octal : Bool
  cstyle : Bool
  tab : Bool
  nl : Bool
  safe : Bool
  noslash : Bool
  dq : Bool
  deriving DecidableEq

/-- Where encoded bytes go to. -/
structure Encoder (σ : Type) where
  push : σ → UInt8 → Exec σ
  encodePassthrough : σ → UInt8 → Exec σ
  encodeCstyle : σ → UInt8 → Exec σ
  encodeOctal : σ → UInt8 → Exec σ

def octalDigits (c : UInt8) : List UInt8 :=
  [c / 64 + '0'.toUInt8, c / 8 % 8 + '0'.toUInt8, c % 8 + '0'.toUInt8]

def CSTYLE : List UInt8 := ['a'.toUInt8, 'b'.toUInt8, 0, 0, 'v'.toUInt8, 'f'.toUInt8, 'r'.toUInt8]

def isOctal (c : UInt8) : Prop := '0'.toUInt8 ≤ c ∧ c ≤ '7'.toUInt8

instance (c : UInt8) : Decidable (isOctal c) := inferInstanceAs (Decidable (_ ∧ _))

section

variable {σ : Type} (e : Encoder σ)

def visWith (dst : σ) (c : UInt8) (flag : VisFlags) (nextc : UInt8) : Exec σ :=
  if c = 0 ∧ ¬ isOctal nextc then e.encodeCstyle dst '0'.toUInt8
  else if c = '\t'.toUInt8 ∧ flag.tab = true then e.encodeCstyle dst 't'.toUInt8
  else if c = '\n'.toUInt8 ∧ flag.nl = true then e.encodeCstyle dst 'n'.toUInt8
  else if c = '\\'.toUInt8 ∧ flag.noslash = false then e.encodeCstyle dst '\\'.toUInt8
  else if c = '"'.toUInt8 ∧ flag.dq = true then e.encodeCstyle dst '"'.toUInt8
  else if (c = 7 ∨ c = 8 ∨ c = 13) ∧ flag.safe = true then e.encodePassthrough dst c
  else if 7 ≤ c ∧ c < 9 ∨ 11 ≤ c ∧ c < 14 then e.encodeCstyle dst (CSTYLE.getD (c.toNat - 7) 0)
  else if c < 7 ∨ 14 ≤ c ∧ c < 32 ∨ 127 ≤ c then e.encodeOctal dst c
  else e.encodePassthrough dst c

/-- A letter, an underscore or an opening brace. -/
def beginsName (c : UInt8) : Prop :=
  'a'.toUInt8 ≤ c ∧ c ≤ 'z'.toUInt8 ∨ 'A'.toUInt8 ≤ c ∧ c ≤ 'Z'.toUInt8 ∨ c = '_'.toUInt8 ∨ c = 123

instance (c : UInt8) : Decidable (beginsName c) := inferInstanceAs (Decidable (_ ∨ _))

/-- One byte, with the byte behind it if there is one. -/
def strvisByte (dst : σ) (ch : UInt8) (flag : VisFlags) (next : Option UInt8) : Exec σ :=
  match next with
  | some nextc =>
      if flag.dq = true ∧ ch = '$'.toUInt8 then
        if beginsName nextc then do e.push (← e.push dst '\\'.toUInt8) '$'.toUInt8
        else e.push dst '$'.toUInt8
      else visWith e dst ch flag nextc
  | none => visWith e dst ch flag 0

def strvisLoop (width : Width) (s : List UInt8) (flag : VisFlags) : Nat → Nat → σ → Exec σ
  | 0, _, _ => .error .outOfFuel
  | fuel + 1, src, dst =>
      match s[src]? with
      | none => pure dst
      | some ch => do
          let r ← utf8Decode width s fuel src ch
          if r.2.1 = .done then do
            strvisLoop width s flag fuel r.1 (← r.2.2.initializedSlice.foldlM e.push dst)
          else do
            strvisLoop width s flag fuel (r.1 + 1)
              (← strvisByte e dst (s.getD r.1 0) flag s[r.1 + 1]?)

end

/-- Memory, and a place in it. -/
structure Buffer where
  mem : List UInt8
  dst : Nat

def Buffer.write (buf : Buffer) (c : UInt8) : Exec Buffer :=
  if buf.dst < buf.mem.length then .ok { buf with mem := buf.mem.set buf.dst c }
  else .error .outOfBounds

def Buffer.push (buf : Buffer) (c : UInt8) : Exec Buffer := do
  let buf ← buf.write c
  pure { buf with dst := buf.dst + 1 }

/-- Some bytes and a terminator. -/
def Buffer.emit (buf : Buffer) (bytes : List UInt8) : Exec Buffer := do
  let buf ← bytes.foldlM Buffer.push buf
  buf.write 0

def cEncoder : Encoder Buffer where
  push := Buffer.push
  encodePassthrough dst ch := dst.emit [ch]
  encodeCstyle dst ch := dst.emit ['\\'.toUInt8, ch]
  encodeOctal dst c := dst.emit ('\\'.toUInt8 :: octalDigits c)

def vecEncoder : Encoder (List UInt8) where
  push dst c := .ok (dst ++ [c])
  encodePassthrough dst ch := .ok (dst ++ [ch])
  encodeCstyle dst ch := .ok (dst ++ ['\\'.toUInt8, ch])
  encodeOctal dst c := .ok (dst ++ '\\'.toUInt8 :: octalDigits c)

/-- The encoder of C strings. The length is that of an `int`. -/
def utf8Strvis (width : Width) (dst s : List UInt8) (flag : VisFlags) (fuel : Nat) :
    Exec (List UInt8 × Int) := do
  let buf ← strvisLoop cEncoder width s flag fuel 0 ⟨dst, 0⟩
  let buf ← buf.write 0
  pure (buf.mem, wrapI32 buf.dst)

def utf8StrvisVec (width : Width) (dst s : List UInt8) (flag : VisFlags) (fuel : Nat) :
    Exec (List UInt8) :=
  strvisLoop vecEncoder width s flag fuel 0 dst

/-- A buffer of another size. The size that a negative length is cast to cannot be had. -/
def xrealloc (mem : List UInt8) (size : Int) : Exec (List UInt8) :=
  if 0 < size then .ok (mem.take size.toNat) else .error .fatal

/-- The memory that is asked for holds anything. -/
def utf8Stravis (fresh : Nat → UInt8) (width : Width) (s : List UInt8) (flag : VisFlags)
    (fuel : Nat) :
    Exec (List UInt8 × Int) := do
  let r ← utf8Strvis width ((List.range (4 * (s.length + 1))).map fresh) s flag fuel
  pure (← xrealloc r.1 (r.2 + 1), r.2)

/-! ### Encoded bytes -/

/-- The bytes that a byte becomes. -/
def visBytes (flag : VisFlags) (c nextc : UInt8) : List UInt8 :=
  if c = 0 ∧ ¬ isOctal nextc then ['\\'.toUInt8, '0'.toUInt8]
  else if c = '\t'.toUInt8 ∧ flag.tab = true then ['\\'.toUInt8, 't'.toUInt8]
  else if c = '\n'.toUInt8 ∧ flag.nl = true then ['\\'.toUInt8, 'n'.toUInt8]
  else if c = '\\'.toUInt8 ∧ flag.noslash = false then ['\\'.toUInt8, '\\'.toUInt8]
  else if c = '"'.toUInt8 ∧ flag.dq = true then ['\\'.toUInt8, '"'.toUInt8]
  else if (c = 7 ∨ c = 8 ∨ c = 13) ∧ flag.safe = true then [c]
  else if 7 ≤ c ∧ c < 9 ∨ 11 ≤ c ∧ c < 14 then ['\\'.toUInt8, CSTYLE.getD (c.toNat - 7) 0]
  else if c < 7 ∨ 14 ≤ c ∧ c < 32 ∨ 127 ≤ c then '\\'.toUInt8 :: octalDigits c
  else [c]

def strvisBytes (flag : VisFlags) (ch : UInt8) : Option UInt8 → List UInt8
  | some nextc =>
      if flag.dq = true ∧ ch = '$'.toUInt8 then
        if beginsName nextc then ['\\'.toUInt8, '$'.toUInt8] else ['$'.toUInt8]
      else visBytes flag ch nextc
  | none => visBytes flag ch 0

def Item.bytes : Item → List UInt8
  | .character bytes _ => bytes
  | .byte ch => [ch]

/-- The bytes that the parts of a string become. -/
def encoded (flag : VisFlags) : List Item → List UInt8
  | [] => []
  | .character bytes _ :: items => bytes ++ encoded flag items
  | .byte ch :: items => strvisBytes flag ch (items.flatMap Item.bytes).head? ++ encoded flag items

theorem Splits.bytes {width : Width} {s : List UInt8} {items : List Item}
    (h : Splits width s items) :
    items.flatMap Item.bytes = s := by
  induction h with
  | nil => rfl
  | character hcomplete hrest ih => rw [List.flatMap_cons, ih, Item.bytes]
  | byte hcomplete hrest ih => rw [List.flatMap_cons, ih, Item.bytes, List.singleton_append]

theorem length_visBytes_le (flag : VisFlags) (c nextc : UInt8) :
    (visBytes flag c nextc).length ≤ 4 := by
  rw [visBytes]
  split_ifs <;> simp [octalDigits]

theorem length_strvisBytes_le (flag : VisFlags) (ch : UInt8) (next : Option UInt8) :
    (strvisBytes flag ch next).length ≤ 4 := by
  cases next with
  | none => exact length_visBytes_le flag ch 0
  | some nextc =>
      rw [strvisBytes]
      split_ifs
      · decide
      · exact Nat.le_add_left 1 3
      · exact length_visBytes_le flag ch nextc

theorem zero_notMem_octalDigits (c : UInt8) : 0 ∉ octalDigits c := by
  have hdigit : ∀ n : UInt8, n.toNat < 8 → (0 : UInt8) ≠ n + '0'.toUInt8 := by
    intro n hn heq
    have hnat := congrArg UInt8.toNat heq
    rw [UInt8.toNat_add, show ('0'.toUInt8).toNat = 48 from rfl] at hnat
    change 0 = (n.toNat + 48) % 2 ^ 8 at hnat
    omega
  have hc := c.toNat_lt
  have hhigh : (c / 64).toNat < 8 := by
    rw [UInt8.toNat_div]
    change c.toNat / 64 < 8
    omega
  have hmiddle : (c / 8 % 8).toNat < 8 := by
    rw [UInt8.toNat_mod]
    exact Nat.mod_lt _ (by decide)
  have hlow : (c % 8).toNat < 8 := by
    rw [UInt8.toNat_mod]
    exact Nat.mod_lt _ (by decide)
  simp only [octalDigits, List.mem_cons, List.not_mem_nil, or_false, not_or]
  exact ⟨hdigit _ hhigh, hdigit _ hmiddle, hdigit _ hlow⟩

theorem zero_ne_cstyle {c : UInt8} (h : 7 ≤ c ∧ c < 9 ∨ 11 ≤ c ∧ c < 14) :
    0 ≠ CSTYLE.getD (c.toNat - 7) 0 := by
  have hall : ∀ n : Fin 14, 7 ≤ n.val ∧ n.val < 9 ∨ 11 ≤ n.val → 0 ≠ CSTYLE.getD (n.val - 7) 0 := by
    decide
  simp only [UInt8.le_iff_toNat_le, UInt8.lt_iff_toNat_lt] at h
  change 7 ≤ c.toNat ∧ c.toNat < 9 ∨ 11 ≤ c.toNat ∧ c.toNat < 14 at h
  have hlt : c.toNat < 14 := by omega
  exact hall ⟨c.toNat, hlt⟩ (h.imp_right And.left)

/-- Only a NUL has a NUL in what it becomes, and that one has none either. -/
theorem zero_notMem_visBytes (flag : VisFlags) {c : UInt8} (h0 : c ≠ 0) (nextc : UInt8) :
    0 ∉ visBytes flag c nextc := by
  rw [visBytes, if_neg fun h => h0 h.1]
  split_ifs with _ _ _ _ _ hcstyle
  · decide
  · decide
  · decide
  · decide
  · exact fun hmem => h0 (List.mem_singleton.mp hmem).symm
  · rw [List.mem_cons, List.mem_singleton, not_or]
    exact ⟨by decide, zero_ne_cstyle hcstyle⟩
  · rw [List.mem_cons, not_or]
    exact ⟨by decide, zero_notMem_octalDigits c⟩
  · exact fun hmem => h0 (List.mem_singleton.mp hmem).symm

theorem zero_notMem_strvisBytes (flag : VisFlags) {ch : UInt8} (h0 : ch ≠ 0)
    (next : Option UInt8) : 0 ∉ strvisBytes flag ch next := by
  cases next with
  | none => exact zero_notMem_visBytes flag h0 0
  | some nextc =>
      rw [strvisBytes]
      split_ifs
      · decide
      · decide
      · exact zero_notMem_visBytes flag h0 nextc

theorem zero_notMem_encoded (flag : VisFlags) {width : Width} {s : List UInt8} {items : List Item}
    (hsplits : Splits width s items) (h0 : 0 ∉ s) : 0 ∉ encoded flag items := by
  induction hsplits with
  | nil => exact List.not_mem_nil
  | character hcomplete hrest ih =>
      rw [List.mem_append, not_or] at h0
      rw [encoded, List.mem_append, not_or]
      exact ⟨h0.1, ih h0.2⟩
  | byte hcomplete hrest ih =>
      rw [List.mem_cons, not_or] at h0
      rw [encoded, List.mem_append, not_or]
      exact ⟨zero_notMem_strvisBytes flag (Ne.symm h0.1) _, ih h0.2⟩

theorem strvisBytes_ne_nil (flag : VisFlags) (ch : UInt8) (next : Option UInt8) :
    strvisBytes flag ch next ≠ [] := by
  have hvis : ∀ nextc, visBytes flag ch nextc ≠ [] := by
    intro nextc
    rw [visBytes]
    split_ifs <;> exact List.cons_ne_nil _ _
  cases next with
  | none => exact hvis 0
  | some nextc =>
      rw [strvisBytes]
      split_ifs
      · exact List.cons_ne_nil _ _
      · exact List.cons_ne_nil _ _
      · exact hvis nextc

theorem encoded_eq_nil {flag : VisFlags} {width : Width} {s : List UInt8} {items : List Item}
    (hsplits : Splits width s items) : encoded flag items = [] ↔ s = [] := by
  cases hsplits with
  | nil => exact ⟨fun _ => rfl, fun _ => rfl⟩
  | @character bytes rest w items hcomplete hrest =>
      obtain ⟨-, -, hlong, -⟩ := completeChar_bytes hcomplete
      have hne : bytes ≠ [] := List.ne_nil_of_length_pos (by omega)
      rw [encoded]
      exact ⟨fun h => absurd (List.append_eq_nil_iff.mp h).1 hne,
        fun h => absurd (List.append_eq_nil_iff.mp h).1 hne⟩
  | byte hcomplete hrest =>
      rw [encoded]
      exact ⟨fun h => absurd (List.append_eq_nil_iff.mp h).1 (strvisBytes_ne_nil flag _ _),
        fun h => absurd h (List.cons_ne_nil _ _)⟩

theorem length_encoded_le (flag : VisFlags) (items : List Item) :
    (encoded flag items).length ≤ 4 * (items.flatMap Item.bytes).length := by
  induction items with
  | nil => exact Nat.le_refl 0
  | cons item items ih =>
      cases item with
      | character bytes w =>
          rw [encoded, List.flatMap_cons, Item.bytes, List.length_append, List.length_append]
          omega
      | byte ch =>
          have hone := length_strvisBytes_le flag ch (items.flatMap Item.bytes).head?
          rw [encoded, List.flatMap_cons, Item.bytes, List.length_append, List.length_append,
            List.length_singleton]
          omega

/-! ### Encoding -/

/-- What an encoder has got is what was written, for as long as there is room. -/
structure Encodes {σ : Type} (e : Encoder σ) (total : Nat) (R : List UInt8 → σ → Prop) : Prop where
  push : ∀ (out : List UInt8) (dst : σ) (c : UInt8), R out dst → out.length + 1 < total →
    ∃ dst', e.push dst c = .ok dst' ∧ R (out ++ [c]) dst'
  encodePassthrough : ∀ (out : List UInt8) (dst : σ) (c : UInt8), R out dst →
    out.length + 1 < total →
    ∃ dst', e.encodePassthrough dst c = .ok dst' ∧ R (out ++ [c]) dst'
  encodeCstyle : ∀ (out : List UInt8) (dst : σ) (c : UInt8), R out dst → out.length + 2 < total →
    ∃ dst', e.encodeCstyle dst c = .ok dst' ∧ R (out ++ ['\\'.toUInt8, c]) dst'
  encodeOctal : ∀ (out : List UInt8) (dst : σ) (c : UInt8), R out dst → out.length + 4 < total →
    ∃ dst', e.encodeOctal dst c = .ok dst' ∧ R (out ++ '\\'.toUInt8 :: octalDigits c) dst'

section

variable {σ : Type} {e : Encoder σ} {total : Nat} {R : List UInt8 → σ → Prop} {out : List UInt8}
    {dst : σ}

theorem visWith_ok (he : Encodes e total R) (h : R out dst) (hroom : out.length + 4 < total)
    (flag : VisFlags) (c nextc : UInt8) :
    ∃ dst', visWith e dst c flag nextc = .ok dst' ∧ R (out ++ visBytes flag c nextc) dst' := by
  rw [visWith, visBytes]
  split_ifs
  · exact he.encodeCstyle out dst _ h (by omega)
  · exact he.encodeCstyle out dst _ h (by omega)
  · exact he.encodeCstyle out dst _ h (by omega)
  · exact he.encodeCstyle out dst _ h (by omega)
  · exact he.encodeCstyle out dst _ h (by omega)
  · exact he.encodePassthrough out dst c h (by omega)
  · exact he.encodeCstyle out dst _ h (by omega)
  · exact he.encodeOctal out dst c h hroom
  · exact he.encodePassthrough out dst c h (by omega)

theorem strvisByte_ok (he : Encodes e total R) (h : R out dst) (hroom : out.length + 4 < total)
    (flag : VisFlags) (ch : UInt8) (next : Option UInt8) :
    ∃ dst', strvisByte e dst ch flag next = .ok dst' ∧
    R (out ++ strvisBytes flag ch next) dst' := by
  cases next with
  | none => exact visWith_ok he h hroom flag ch 0
  | some nextc =>
      rw [strvisByte, strvisBytes]
      split_ifs
      · obtain ⟨dst₁, hslash, h₁⟩ := he.push out dst '\\'.toUInt8 h (by omega)
        obtain ⟨dst₂, hdollar, h₂⟩ := he.push _ dst₁ '$'.toUInt8 h₁ (by
          rw [List.length_append, List.length_singleton]
          omega)
        refine ⟨dst₂, ?_, ?_⟩
        · rw [hslash, ok_bind, hdollar]
        · rw [List.append_assoc] at h₂
          exact h₂
      · exact he.push out dst _ h (by omega)
      · exact visWith_ok he h hroom flag ch nextc

theorem push_bytes (he : Encodes e total R) (bytes : List UInt8) (h : R out dst)
    (hroom : out.length + bytes.length < total) :
    ∃ dst', bytes.foldlM e.push dst = .ok dst' ∧ R (out ++ bytes) dst' := by
  induction bytes generalizing out dst with
  | nil => exact ⟨dst, rfl, by rw [List.append_nil]; exact h⟩
  | cons c bytes ih =>
      rw [List.length_cons] at hroom
      obtain ⟨dst₁, hpush, h₁⟩ := he.push out dst c h (by omega)
      obtain ⟨dst₂, hrest, h₂⟩ := ih h₁ (by
        rw [List.length_append, List.length_singleton]
        omega)
      refine ⟨dst₂, ?_, ?_⟩
      · rw [List.foldlM_cons, hpush, ok_bind, hrest]
      · rw [List.append_assoc] at h₂
        exact h₂

variable {width : Width} {s : List UInt8} {items : List Item}

theorem strvisLoop_ok (he : Encodes e total R) (flag : VisFlags) {text : List UInt8}
    (hsplits : Splits width text items) {i : Nat} (hdrop : s.drop i = text) (h : R out dst)
    (hroom : out.length + 4 * text.length < total) :
    ∃ dst', Returns (fun fuel => strvisLoop e width s flag fuel i dst) dst' ∧
    R (out ++ encoded flag items) dst' := by
  induction hsplits generalizing i out dst with
  | nil =>
      refine ⟨dst, .of_succ ⟨0, fun fuel _ => ?_⟩, by rw [encoded, List.append_nil]; exact h⟩
      dsimp only
      rw [strvisLoop, List.getElem?_eq_none (List.drop_eq_nil_iff.mp hdrop)]
      rfl
  | @character bytes rest w items hcomplete _ ih =>
      obtain ⟨-, -, hlong, -⟩ := completeChar_bytes hcomplete
      rw [List.length_append] at hroom
      obtain ⟨dst₁, hpush, h₁⟩ := push_bytes he bytes h (by omega)
      rcases bytes with _ | ⟨ch, bytes⟩
      · simp at hlong
      obtain ⟨r, ⟨n, hn⟩, hsome, -⟩ := utf8Decode_ok width hdrop
      obtain ⟨hplace, hdone, -, hbytes⟩ := hsome _ w hcomplete
      have hget : s[i]? = some ch := by
        rw [← List.head?_drop, hdrop]
        rfl
      have hdrop' : s.drop r.1 = rest := by
        rw [hplace, ← List.drop_drop, hdrop, List.drop_left]
      obtain ⟨dst', ⟨m, hm⟩, h'⟩ := ih hdrop' h₁ (by
        rw [List.length_append]
        omega)
      refine ⟨dst', .of_succ ⟨max m n, fun fuel hfuel => ?_⟩,
        by rw [encoded, ← List.append_assoc]; exact h'⟩
      dsimp only at hm hn ⊢
      rw [strvisLoop, hget]
      dsimp only
      rw [hn fuel (by omega), ok_bind, if_pos hdone, hbytes, hpush, ok_bind, hm fuel (by omega)]
  | @byte ch rest items hcomplete hrest ih =>
      obtain ⟨r, ⟨n, hn⟩, -, hnone⟩ := utf8Decode_ok width hdrop
      obtain ⟨hdone, hplace⟩ := hnone hcomplete
      have hget : s[i]? = some ch := by
        rw [← List.head?_drop, hdrop]
        rfl
      have hdrop' : s.drop (r.1 + 1) = rest := by
        rw [hplace, ← List.tail_drop, hdrop]
        rfl
      have hbyte : s.getD r.1 0 = ch := by
        rw [hplace, List.getD_eq_getElem?_getD, hget]
        rfl
      have hnext : s[r.1 + 1]? = (items.flatMap Item.bytes).head? := by
        rw [← List.head?_drop, hdrop', hrest.bytes]
      rw [List.length_cons] at hroom
      obtain ⟨dst₁, hone, h₁⟩ :=
        strvisByte_ok he h (by omega) flag ch (items.flatMap Item.bytes).head?
      have hlen := length_strvisBytes_le flag ch (items.flatMap Item.bytes).head?
      obtain ⟨dst', ⟨m, hm⟩, h'⟩ := ih hdrop' h₁ (by
        rw [List.length_append]
        omega)
      refine ⟨dst', .of_succ ⟨max m n, fun fuel hfuel => ?_⟩,
        by rw [encoded, ← List.append_assoc]; exact h'⟩
      dsimp only at hm hn ⊢
      rw [strvisLoop, hget]
      dsimp only
      rw [hn fuel (by omega), ok_bind, if_neg hdone, hbyte, hnext, hone, ok_bind,
        hm fuel (by omega)]

end

/-! ### Memory and vectors -/

/-- What was written is before the place in memory. -/
def Buffer.Wrote (total : Nat) (out : List UInt8) (buf : Buffer) : Prop :=
  buf.dst = out.length ∧ buf.mem.length = total ∧ out <+: buf.mem

variable {total : Nat} {out : List UInt8} {buf : Buffer}

theorem Buffer.Wrote.write (h : buf.Wrote total out) (hroom : out.length < total) (c : UInt8) :
    ∃ mem, buf.write c = .ok ⟨mem, buf.dst⟩ ∧ mem.length = total ∧ out ++ [c] <+: mem := by
  obtain ⟨hdst, hlen, back, hback⟩ := h
  rcases back with _ | ⟨b, back⟩
  · rw [List.append_nil] at hback
    rw [← hlen, ← hback] at hroom
    exact absurd hroom (Nat.lt_irrefl _)
  · refine ⟨buf.mem.set buf.dst c, if_pos (by rw [hdst, hlen]; exact hroom), ?_, back, ?_⟩
    · rw [List.length_set, hlen]
    · rw [← hback, hdst, List.set_append_right _ _ (Nat.le_refl _), Nat.sub_self,
        List.set_cons_zero, List.append_assoc, List.singleton_append]

theorem Buffer.Wrote.push (h : buf.Wrote total out) (hroom : out.length < total) (c : UInt8) :
    ∃ buf', buf.push c = .ok buf' ∧ buf'.Wrote total (out ++ [c]) := by
  obtain ⟨mem, hwrite, hlen, hstarts⟩ := h.write hroom c
  refine ⟨⟨mem, buf.dst + 1⟩, ?_, ?_, hlen, hstarts⟩
  · rw [Buffer.push, hwrite]
    rfl
  · rw [List.length_append, List.length_singleton, h.1]

theorem Buffer.Wrote.emit (bytes : List UInt8) (h : buf.Wrote total out)
    (hroom : out.length + bytes.length < total) :
    ∃ buf', buf.emit bytes = .ok buf' ∧ buf'.Wrote total (out ++ bytes) := by
  induction bytes generalizing out buf with
  | nil =>
      obtain ⟨mem, hwrite, hlen, hstarts⟩ := h.write hroom 0
      refine ⟨⟨mem, buf.dst⟩, hwrite, ?_, hlen, ?_⟩
      · rw [List.append_nil]
        exact h.1
      · rw [List.append_nil]
        exact (List.prefix_append _ _).trans hstarts
  | cons c bytes ih =>
      rw [List.length_cons] at hroom
      obtain ⟨buf₁, hpush, h₁⟩ := h.push (by omega) c
      obtain ⟨buf₂, hrest, h₂⟩ := ih h₁ (by
        rw [List.length_append, List.length_singleton]
        omega)
      refine ⟨buf₂, ?_, by rw [List.append_assoc] at h₂; exact h₂⟩
      rw [Buffer.emit, List.foldlM_cons, hpush, ok_bind]
      exact hrest

theorem encodes_cEncoder (total : Nat) : Encodes cEncoder total (Buffer.Wrote total) where
  push _ _ c h hroom := h.push (by omega) c
  encodePassthrough _ _ _ h hroom := h.emit _ (by rw [List.length_singleton]; exact hroom)
  encodeCstyle _ _ _ h hroom := h.emit _ hroom
  encodeOctal _ _ _ h hroom := h.emit _ hroom

theorem encodes_vecEncoder (front : List UInt8) (total : Nat) :
    Encodes vecEncoder total fun out dst => dst = front ++ out where
  push _ _ _ h _ := ⟨_, rfl, by rw [h, List.append_assoc]⟩
  encodePassthrough _ _ _ h _ := ⟨_, rfl, by rw [h, List.append_assoc]⟩
  encodeCstyle _ _ _ h _ := ⟨_, rfl, by rw [h, List.append_assoc]⟩
  encodeOctal _ _ _ h _ := ⟨_, rfl, by rw [h, List.append_assoc]⟩

variable {width : Width} {s : List UInt8} {items : List Item}

theorem utf8StrvisVec_returns (flag : VisFlags) (hsplits : Splits width s items)
    (dst : List UInt8) :
    Returns (utf8StrvisVec width dst s flag) (dst ++ encoded flag items) := by
  obtain ⟨dst', hreturns, h⟩ :=
    strvisLoop_ok (encodes_vecEncoder dst (4 * s.length + 1)) flag hsplits
    List.drop_zero (List.append_nil dst).symm (by rw [List.length_nil]; omega)
  rw [List.nil_append] at h
  rw [h] at hreturns
  exact hreturns

/-- The memory that is asked for is enough. -/
theorem utf8Strvis_returns (flag : VisFlags) (hsplits : Splits width s items) {mem : List UInt8}
    (hmem : mem.length = 4 * (s.length + 1)) : ∃ back,
      Returns (utf8Strvis width mem s flag) (encoded flag items ++ 0 :: back,
        wrapI32 (encoded flag items).length) := by
  have hstart : Buffer.Wrote (4 * (s.length + 1)) [] ⟨mem, 0⟩ := ⟨rfl, hmem, List.nil_prefix⟩
  obtain ⟨buf, ⟨n, hn⟩, h⟩ := strvisLoop_ok (encodes_cEncoder (4 * (s.length + 1))) flag hsplits
    List.drop_zero hstart (by rw [List.length_nil]; omega)
  rw [List.nil_append] at h
  have hle := length_encoded_le flag items
  rw [hsplits.bytes] at hle
  obtain ⟨mem', hwrite, -, back, hback⟩ := h.write (by omega) 0
  refine ⟨back, n, fun fuel hfuel => ?_⟩
  have hloop := hn fuel hfuel
  dsimp only at hloop
  rw [utf8Strvis, hloop, ok_bind, hwrite, ok_bind, ← hback, h.1, List.append_assoc]
  rfl

end Ztmux.Utf8
