import Ztmux.Commands.Lexer

/-!
Argument vectors in messages.

A client packs its arguments into a message one behind the other, each with its terminator, and the
server takes them out again. How many there are is said apart from the bytes, by a number that the
client chooses.
-/

namespace Ztmux.Commands

/-! ### Model -/

def usizeMax : Nat := 2 ^ 64

/-- The value of a `usize` whose exact value is `x`. -/
def wrapUsize (x : Int) : Nat := (x % usizeMax).toNat

def xcalloc (nmemb size : Nat) : Exec Unit :=
  if nmemb * size < usizeMax then .ok () else .error .fatal

/-- Write some bytes to a place of a buffer. -/
def store (mem : List UInt8) (off : Nat) (bytes : List UInt8) : Exec (List UInt8) :=
  if off + bytes.length ≤ mem.length then
    .ok (mem.take off ++ bytes ++ mem.drop (off + bytes.length))
  else .error .outOfBounds

/-- Read the string at a place of a buffer. -/
def readString (mem : List UInt8) (off : Nat) : Exec (List UInt8) :=
  if 0 ∈ mem.drop off then .ok (cString (mem.drop off)) else .error .outOfBounds

/-- Copy a string, and return how long the copy is. The terminator is written behind `siz` bytes
when the string is longer. -/
def strlcpy (mem : List UInt8) (dst : Nat) (src : List UInt8) (siz : Nat) :
    Exec (List UInt8 × Nat) := do
  let len := min src.length siz
  pure (← store mem dst (src.take len ++ [0]), len)

def packLoop : List (List UInt8) → List UInt8 → Nat → Nat → Exec (Int × List UInt8)
  | [], mem, _, _ => pure (0, mem)
  | arg :: argv, mem, buf, len => do
      let r ← strlcpy mem buf arg len
      if len ≤ r.2 then pure (-1, r.1)
      else
        let arglen := arg.length + 1
        packLoop argv r.1 (buf + arglen) (wrapUsize (len - arglen))

/-- Pack an argument vector into a buffer. -/
def cmdPackArgv (argv : List (List UInt8)) (mem : List UInt8) : Exec (Int × List UInt8) :=
  if argv.length = 0 then pure (0, mem)
  else do packLoop argv (← store mem 0 [0]) 0 mem.length

def unpackLoop (mem : List UInt8) :
    Nat → Nat → Nat → List (List UInt8) → Exec (Int × List (List UInt8))
  | 0, _, _, argv => pure (0, argv)
  | n + 1, buf, len, argv =>
      if len = 0 then pure (-1, [])
      else do
        let arg ← readString mem buf
        let arglen := arg.length + 1
        unpackLoop mem n (buf + arglen) (wrapUsize (len - arglen)) (argv ++ [arg])

/-- Unpack an argument vector from a buffer. The vector is not touched when there is nothing to
unpack. -/
def cmdUnpackArgv (mem : List UInt8) (argc : Int) : Exec (Int × List (List UInt8) × List UInt8) :=
  if argc = 0 then pure (0, [], mem)
  else do
    xcalloc (wrapUsize argc) 8
    let mem ← store mem (wrapUsize (mem.length - 1)) [0]
    let r ← unpackLoop mem argc.toNat 0 mem.length []
    pure (r.1, r.2, mem)

/-! ### Strings in a buffer -/

variable {mem body : List UInt8} {off n : Nat} {s : List UInt8} {argv : List (List UInt8)}

theorem wrapUsize_of_lt {x : Int} (h0 : 0 ≤ x) (h : x < usizeMax) : wrapUsize x = x.toNat := by
  rw [wrapUsize, Int.emod_eq_of_lt h0 h]

theorem unpackLoop_string (hdrop : mem.drop off = s ++ 0 :: body) (hs : 0 ∉ s)
    (hlt : (s ++ 0 :: body).length < usizeMax) :
    unpackLoop mem (n + 1) off (s ++ 0 :: body).length argv =
      unpackLoop mem n (off + (s.length + 1)) body.length (argv ++ [s]) ∧
    mem.drop (off + (s.length + 1)) = body := by
  have hstring : cString (s ++ 0 :: body) = s := by
    have hpos : ∀ c ∈ s, decide (c ≠ 0) = true :=
      fun c hc => decide_eq_true fun heq => hs (heq ▸ hc)
    rw [cString, List.takeWhile_append_of_pos hpos, List.takeWhile_cons_of_neg (by decide),
      List.append_nil]
  have hlen : (s ++ 0 :: body).length = s.length + 1 + body.length := by
    rw [List.length_append, List.length_cons]
    omega
  constructor
  · have hwrap : wrapUsize (((s ++ 0 :: body).length : Int) - (s.length + 1 : Nat)) =
        body.length := by
      rw [wrapUsize_of_lt (by omega) (by omega)]
      omega
    rw [unpackLoop, if_neg (by rw [hlen]; omega), readString, hdrop, if_pos (by simp), hstring,
      ok_bind]
    dsimp only
    rw [hwrap]
  · rw [← List.drop_drop, hdrop, ← List.drop_drop, List.drop_left]
    rfl

/-- The strings of a buffer, whose last byte is taken as a terminator. -/
def strings (mem : List UInt8) : List (List UInt8) := mem.dropLast.splitOn 0

theorem unpackLoop_ok (mem : List UInt8) (n : Nat) {off : Nat} {text : List UInt8}
    (argv : List (List UInt8))
    (hdrop : mem.drop off = text ++ [0]) (hlt : (text ++ [0]).length < usizeMax) :
    unpackLoop mem n off (text ++ [0]).length argv = .ok (if n ≤ (text.splitOn 0).length
      then (0, argv ++ (text.splitOn 0).take n) else (-1, [])) := by
  induction n generalizing off text argv with
  | zero => simp [unpackLoop, pure, Except.pure]
  | succ n ih =>
      by_cases hzero : 0 ∈ text
      · obtain ⟨s, rest, rfl, hs⟩ := List.eq_append_cons_of_mem hzero
        rw [List.append_assoc, List.cons_append] at hdrop hlt ⊢
        obtain ⟨hstep, hrest⟩ := @unpackLoop_string _ _ _ n _ argv hdrop hs hlt
        rw [List.length_append, List.length_cons] at hlt
        rw [hstep, ih _ hrest (by omega), List.splitOn_append_cons_self_of_not_mem hs]
        simp
      · obtain ⟨hstep, hrest⟩ := @unpackLoop_string _ [] _ n _ argv hdrop hzero hlt
        rw [hstep, List.splitOn_eq_singleton hzero]
        cases n with
        | zero => simp [unpackLoop, pure, Except.pure]
        | succ n => simp [unpackLoop, pure, Except.pure]

/-! ### Packing -/

/-- What an argument vector is packed into. -/
def packed (argv : List (List UInt8)) : List UInt8 := argv.flatMap fun arg => arg ++ [0]

theorem store_ok {front back bytes new : List UInt8} (hlen : new.length = bytes.length) :
    store (front ++ bytes ++ back) front.length new = .ok (front ++ new ++ back) := by
  have hdrop : (front ++ bytes ++ back).drop (front.length + new.length) = back := by
    rw [hlen, ← List.length_append, List.drop_left]
  rw [store, if_pos, hdrop, List.append_assoc front, List.take_left]
  simp only [List.length_append]
  omega

theorem packLoop_ok {front rest mem' : List UInt8} (hlt : rest.length < usizeMax)
    (h : packLoop argv (front ++ rest) front.length rest.length = .ok (0, mem')) :
    ∃ back, mem' = front ++ packed argv ++ back ∧ mem'.length = (front ++ rest).length := by
  induction argv generalizing front rest with
  | nil =>
      obtain ⟨-, rfl⟩ := Prod.mk.inj (Except.ok.inj h)
      exact ⟨rest, by simp [packed], rfl⟩
  | cons arg argv ih =>
      rw [packLoop] at h
      obtain ⟨⟨mem₁, len⟩, hcopy, h⟩ := bind_eq_ok.mp h
      rw [strlcpy] at hcopy
      obtain ⟨mem₂, hstore, hpure⟩ := bind_eq_ok.mp hcopy
      obtain ⟨rfl, rfl⟩ := Prod.mk.inj (Except.ok.inj hpure)
      dsimp only at h
      split_ifs at h with hfull
      · cases h
      · have harg : arg.length < rest.length := by omega
        obtain ⟨room, back, rfl, hroom⟩ : ∃ room back, rest = room ++ back ∧
            room.length = arg.length + 1 :=
          ⟨rest.take (arg.length + 1), rest.drop (arg.length + 1), (List.take_append_drop _ _).symm,
            List.length_take_of_le harg⟩
        rw [List.length_append, hroom] at hlt
        have hlen : (arg ++ [0]).length = room.length := by
          rw [hroom, List.length_append, List.length_singleton]
        rw [List.take_of_length_le (Nat.le_of_eq (min_eq_left harg.le).symm), ← List.append_assoc,
          store_ok hlen] at hstore
        obtain rfl := Except.ok.inj hstore
        have hwrap : wrapUsize (((room ++ back).length : Int) - (arg.length + 1 : Nat)) =
            back.length := by
          rw [List.length_append, hroom, wrapUsize_of_lt (by omega) (by omega)]
          omega
        rw [hwrap, ← hroom, ← hlen, ← List.length_append] at h
        obtain ⟨back', hmem', hlength⟩ := ih (by omega) h
        refine ⟨back', ?_, ?_⟩
        · rw [hmem']
          simp [packed]
        · rw [hlength]
          simp only [List.length_append] at hlen ⊢
          omega

theorem unpackLoop_packed {front back : List UInt8} {acc : List (List UInt8)}
    (hargv : ∀ arg ∈ argv, 0 ∉ arg) (hlt : (packed argv ++ back).length < usizeMax) :
    unpackLoop (front ++ (packed argv ++ back)) argv.length front.length
      (packed argv ++ back).length acc =
      .ok (0, acc ++ argv) := by
  induction argv generalizing front acc with
  | nil => simp [unpackLoop, pure, Except.pure]
  | cons arg argv ih =>
      obtain ⟨harg, hargv⟩ := List.forall_mem_cons.mp hargv
      have hsplit : packed (arg :: argv) ++ back = arg ++ 0 :: (packed argv ++ back) := by
        simp [packed]
      rw [hsplit] at hlt ⊢
      obtain ⟨hstep, -⟩ := @unpackLoop_string (front ++ (arg ++ 0 :: (packed argv ++ back)))
        (packed argv ++ back) front.length argv.length arg acc List.drop_left harg hlt
      have hfront : front ++ (arg ++ 0 :: (packed argv ++ back)) =
          (front ++ arg ++ [0]) ++ (packed argv ++ back) := by simp
      have hlen : front.length + (arg.length + 1) = (front ++ arg ++ [0]).length := by
        simp only [List.length_append, List.length_singleton]
        omega
      rw [List.length_cons, hstep, hfront, hlen, ih hargv (by
        rw [List.length_append, List.length_cons] at hlt
        omega)]
      simp

/-! ### Unpacking -/

theorem xcalloc_argc {argc : Int} (hmin : -2 ^ 31 ≤ argc) (hmax : argc < 2 ^ 31) :
    xcalloc (wrapUsize argc) 8 = if 0 ≤ argc then .ok () else .error .fatal := by
  rw [xcalloc]
  have husize : (usizeMax : Int) = 2 ^ 64 := rfl
  have hmod : argc % usizeMax = if 0 ≤ argc then argc else argc + 2 ^ 64 := by
    rw [husize]
    split_ifs <;> omega
  have hwrap : (wrapUsize argc : Int) = if 0 ≤ argc then argc else argc + 2 ^ 64 := by
    rw [← hmod, wrapUsize, Int.toNat_of_nonneg (Int.emod_nonneg _ (by decide))]
  split_ifs at hwrap ⊢ with hsmall hneg hneg
  · rfl
  · change _ < (2 : Nat) ^ 64 at hsmall
    omega
  · change ¬ _ < (2 : Nat) ^ 64 at hsmall
    omega
  · rfl

theorem store_last (hmem : mem ≠ []) (hlt : mem.length < usizeMax) :
    store mem (wrapUsize (mem.length - 1)) [0] = .ok (mem.dropLast ++ [0]) := by
  have hpos := List.length_pos_iff.mpr hmem
  obtain ⟨text, c, rfl⟩ : ∃ text c, mem = text ++ [c] :=
    ⟨mem.dropLast, mem.getLast hmem, (List.dropLast_append_getLast hmem).symm⟩
  have hwrap : wrapUsize (((text ++ [c]).length : Int) - 1) = text.length := by
    rw [wrapUsize_of_lt (by omega) (by omega), List.length_append, List.length_singleton]
    omega
  have hstore := @store_ok text [] [c] [0] rfl
  rw [List.append_nil, List.append_nil] at hstore
  rw [hwrap, hstore, List.dropLast_concat]

theorem cmdUnpackArgv_ok (hmem : mem ≠ []) (hlt : mem.length < usizeMax) {argc : Int}
    (hpos : 0 < argc)
    (hmax : argc < 2 ^ 31) : cmdUnpackArgv mem argc = .ok (if argc ≤ (strings mem).length
      then (0, (strings mem).take argc.toNat, mem.dropLast ++ [0])
        else (-1, [], mem.dropLast ++ [0])) := by
  have hlen : mem.length = (mem.dropLast ++ [0]).length := by
    rw [List.length_append, List.length_dropLast, List.length_singleton]
    have := List.length_pos_iff.mpr hmem
    omega
  have hloop := @unpackLoop_ok (mem.dropLast ++ [0]) argc.toNat 0 mem.dropLast [] rfl (hlen ▸ hlt)
  rw [cmdUnpackArgv, if_neg hpos.ne', xcalloc_argc (by omega) hmax, if_pos hpos.le, ok_bind,
    store_last hmem hlt, ok_bind, hloop, ok_bind, strings]
  have hle : argc.toNat ≤ (mem.dropLast.splitOn 0).length ↔
      argc ≤ (mem.dropLast.splitOn 0).length := by omega
  simp only [hle, List.nil_append]
  split_ifs <;> rfl

/-! ### A message and back -/

/-- Arguments that were packed are the ones that are unpacked. -/
def RoundTrips (argv : List (List UInt8)) (mem : List UInt8) : Prop :=
  ∀ mem', cmdPackArgv argv mem = .ok (0, mem') →
    ∃ mem'', cmdUnpackArgv mem' argv.length = .ok (0, argv, mem'')

theorem roundTrips (hargv : ∀ arg ∈ argv, 0 ∉ arg) (hcount : argv.length < 2 ^ 31)
    (hlt : mem.length < usizeMax) : RoundTrips argv mem := by
  intro mem' hpack
  rw [cmdPackArgv] at hpack
  split_ifs at hpack with hnil
  · obtain rfl := List.length_eq_zero_iff.mp hnil
    exact ⟨mem', rfl⟩
  · obtain ⟨mem₁, hstore, hpack⟩ := bind_eq_ok.mp hpack
    have hlen₁ : mem₁.length = mem.length := by
      rw [store] at hstore
      split_ifs at hstore with hroom
      rw [← Except.ok.inj hstore]
      simp only [List.length_append, List.length_take, List.length_drop,
        List.length_singleton] at hroom ⊢
      omega
    obtain ⟨back, rfl, hlen⟩ := @packLoop_ok argv [] mem₁ mem' (hlen₁ ▸ hlt) (by
      rw [hlen₁]
      exact hpack)
    rw [List.nil_append] at hlen ⊢
    have hne : packed argv ≠ [] := by
      obtain ⟨arg, argv, rfl⟩ := List.exists_cons_of_length_pos (Nat.pos_of_ne_zero hnil)
      simp [packed]
    have hmem : packed argv ++ back ≠ [] := List.append_ne_nil_of_left_ne_nil hne _
    have hlt' : (packed argv ++ back).length < usizeMax := by
      rw [hlen, List.nil_append, hlen₁]
      exact hlt
    -- The last byte is a terminator already, or is behind what was packed.
    obtain ⟨back', hback⟩ : ∃ back', (packed argv ++ back).dropLast ++ [0] =
        packed argv ++ back' := by
      rcases List.eq_nil_or_concat back with rfl | ⟨back, c, rfl⟩
      · obtain ⟨front, arg, rfl⟩ : ∃ front arg, argv = front ++ [arg] := by
          rcases List.eq_nil_or_concat argv with rfl | ⟨front, arg, rfl⟩
          · exact absurd rfl hnil
          · exact ⟨front, arg, by simp⟩
        refine ⟨[], ?_⟩
        have hlast : packed (front ++ [arg]) = packed front ++ arg ++ [0] := by simp [packed]
        rw [List.append_nil, hlast, List.dropLast_concat]
      · refine ⟨back ++ [0], ?_⟩
        rw [List.concat_eq_append, ← List.append_assoc, List.dropLast_concat, List.append_assoc]
    have hsame : (packed argv ++ back).length = (packed argv ++ back').length := by
      have hcount := congrArg List.length hback
      have hpos := List.length_pos_iff.mpr hmem
      rw [List.length_append, List.length_dropLast, List.length_singleton] at hcount
      omega
    have hloop := @unpackLoop_packed argv [] back' [] hargv (hsame ▸ hlt')
    refine ⟨packed argv ++ back', ?_⟩
    rw [cmdUnpackArgv, if_neg (by omega), xcalloc_argc (by omega) (by omega), if_pos (by omega),
      ok_bind, store_last hmem hlt', ok_bind, hback, Int.toNat_natCast]
    rw [List.nil_append, List.length_nil, List.nil_append] at hloop
    rw [hloop]
    rfl

/-- Nothing outside of the buffer is read or written, and what is returned are the first strings of
the buffer. -/
def Unpacks (mem : List UInt8) (argc : Int) : Prop :=
  ∃ r argv mem', cmdUnpackArgv mem argc = .ok (r, argv, mem') ∧ mem'.length = mem.length ∧
    (r = -1 ∨ r = 0 ∧ argc ≤ (strings mem).length ∧ argv = (strings mem).take argc.toNat)

/-- Messages are unpacked unless the number of arguments is negative. -/
theorem unpacks_iff (hargv : ∀ arg ∈ argv, 0 ∉ arg) (hcount : argv.length < 2 ^ 31)
    (hlt : mem.length < usizeMax) (hmem : mem ≠ []) {argc : Int} (hmin : -2 ^ 31 ≤ argc)
    (hmax : argc < 2 ^ 31) : RoundTrips argv mem ∧ Unpacks mem argc ↔ 0 ≤ argc := by
  constructor
  · rintro ⟨-, r, args, mem', hunpack, -⟩
    by_contra hneg
    rw [cmdUnpackArgv, if_neg (by omega), xcalloc_argc hmin hmax, if_neg hneg] at hunpack
    cases hunpack
  · intro h0
    refine ⟨roundTrips hargv hcount hlt, ?_⟩
    rcases h0.eq_or_lt with rfl | hpos
    · exact ⟨0, [], mem, rfl, rfl, .inr ⟨rfl, by omega, by simp⟩⟩
    · have hlen : (mem.dropLast ++ [0]).length = mem.length := by
        rw [List.length_append, List.length_dropLast, List.length_singleton]
        have := List.length_pos_iff.mpr hmem
        omega
      by_cases hle : argc ≤ (strings mem).length
      · refine ⟨0, _, _, ?_, hlen, .inr ⟨rfl, hle, rfl⟩⟩
        rw [cmdUnpackArgv_ok hmem hlt hpos hmax, if_pos hle]
      · refine ⟨-1, [], _, ?_, hlen, .inl rfl⟩
        rw [cmdUnpackArgv_ok hmem hlt hpos hmax, if_neg hle]

/-- A message of three strings, and the command `ls -a`, which has room in it. -/
theorem message_unpacks :
    RoundTrips [bytes ['l', 's'], bytes ['-', 'a']] (bytes ['a', '\x00', 'b', 'c', '\x00', 'd']) ∧
      Unpacks (bytes ['a', '\x00', 'b', 'c', '\x00', 'd']) 2 :=
  (unpacks_iff (by decide) (by decide) (by decide) (by decide) (by decide) (by decide)).mpr
    (by decide)

/-- A message that says that it has -1 arguments. -/
theorem unpacks_negative : cmdUnpackArgv (bytes ['l', 's'] ++ [0]) (-1) = .error .fatal ∧
    ¬ Unpacks (bytes ['l', 's'] ++ [0]) (-1) := by
  have hfatal : cmdUnpackArgv (bytes ['l', 's'] ++ [0]) (-1) = .error .fatal := by decide +kernel
  refine ⟨hfatal, ?_⟩
  rintro ⟨r, args, mem', hunpack, -⟩
  rw [hfatal] at hunpack
  cases hunpack

end Ztmux.Commands
