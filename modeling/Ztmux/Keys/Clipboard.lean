import Ztmux.Compat.Room

/-!
The reply of the terminal to a question for its clipboard.

The reply names the clipboard and holds its content in base64, and it ends with BEL or ST. The
content is decoded into three bytes for each four characters, and the decoder is told the length of
the whole sequence instead: a content that is no whole number of groups asks for no bytes at all, or
is written past the end.
-/

namespace Ztmux.Keys.Clipboard

open Base64

/-! ### Model -/

def BEL : UInt8 := 0x07

def ESC : UInt8 := 0x1b

def backslash : UInt8 := 0x5c

def semicolon : UInt8 := 0x3b

/-- First five bytes are always `ESC ] 5 2 ;`. -/
def header : Text := [ESC, 0x5d, 0x35, 0x32, semicolon]

/-- Whether the terminal has been asked. -/
structure Tty where
  query : Bool
  deriving DecidableEq, Repr

/-- What the requester is given. -/
structure ClipboardData where
  buf : Text
  clip : UInt8
  deriving DecidableEq, Repr

/-- 0 for a reply, -1 for something else and 1 for a part of one, what is passed on and what is put
into a paste buffer. -/
structure Answer where
  ret : Int
  size : Nat
  tty : Tty
  replies : List ClipboardData
  pasted : List Text
  deriving DecidableEq, Repr

/-- Read a byte of the sequence. -/
def byteAt (buf : Text) (i : Nat) : Code UInt8 :=
  match buf[i]? with
  | none => throw .outside
  | some b => pure b

/-- Compare with the bytes of the header one by one: the answer if there is one already. -/
def checkHeader (buf : Text) : Nat → Text → Code (Option Int)
  | _, [] => pure none
  | k, h :: hs => do
      let b ← byteAt buf k
      if b ≠ h then pure (some (-1))
      else if buf.length = k + 1 then pure (some 1)
      else checkHeader buf (k + 1) hs

def endsSt (buf : Text) (stop : Nat) : Code Bool :=
  if 5 < stop then do
    let prev ← byteAt buf (stop - 1)
    let b ← byteAt buf stop
    pure (decide (prev = ESC ∧ b = backslash))
  else pure false

/-- Find the terminator if any: its last byte and its length. The number is that of the bytes that
are left. -/
def findTerminator (buf : Text) : Nat → Nat → Code (Nat × Nat)
  | 0, stop => pure (stop, 0)
  | n + 1, stop => do
      let b ← byteAt buf stop
      if b = BEL then pure (stop, 1)
      else do
        let st ← endsSt buf stop
        if st then pure (stop, 2) else findTerminator buf n (stop + 1)

/-- Save which clipboard was used from the second argument. -/
def saveClip (buf : Text) (start stop : Nat) : Code UInt8 :=
  if 2 ≤ stop then do
    let b ← byteAt buf start
    if b ≠ semicolon then do
      let next ← byteAt buf (start + 1)
      pure (if next = semicolon then b else 0)
    else pure 0
  else pure 0

/-- Skip the second argument: where it ends and how much is left. -/
def skipArgument (buf : Text) : Nat → Nat → Code (Nat × Nat)
  | start, 0 => pure (start, 0)
  | start, n + 1 => do
      let b ← byteAt buf start
      if b ≠ semicolon then skipArgument buf (start + 1) n else pure (start, n + 1)

/-- Copy a part of the sequence. -/
def copyBytes (buf : Text) (start n : Nat) : Code Text :=
  if start + n ≤ buf.length then pure ((buf.drop start).take n) else throw .outside

/-- Memory for so many bytes. -/
def xmalloc (size : Nat) : Code Nat := if size = 0 then throw .zeroSize else pure size

/-- Decode a string, which ends at a NUL, into a target that is told to be `targsize` bytes long. -/
def b64Pton (copy : Text) (room targsize : Nat) : Code (Option Text) :=
  match ptonInto targsize room (copy.takeWhile (· ≠ 0)) with
  | .error .invalid => pure none
  | .error fault => throw fault
  | .ok out => pure (some out)

/-- Pass on the content. -/
def reply (tty : Tty) (buf : Text) (start stop size : Nat) (clip : UInt8) : Code Answer :=
  -- If we did not request this, ignore it.
  if !tty.query then pure ⟨0, size, tty, [], []⟩
  else do
    let tty := { tty with query := false }
    let copy ← copyBytes buf start stop
    -- Convert from base64. The decoder is given the length of the sequence.
    let needed ← xmalloc (stop / 4 * 3)
    let out ← b64Pton copy needed buf.length
    match out with
    | none => pure ⟨0, size, tty, [], []⟩
    | some out =>
        -- The question has been taken back already, so nothing is put into a paste buffer.
        if tty.query then pure ⟨0, size, { tty with query := false }, [⟨out, clip⟩], [out]⟩
        else pure ⟨0, size, tty, [⟨out, clip⟩], []⟩

/-- What is done with a reply that has ended. -/
def finishReply (tty : Tty) (buf : Text) (stop terminator : Nat) : Code Answer := do
  let size := stop + 1
  -- Adjust end so that it points to the start of the terminator.
  let stop := stop - 5 - (terminator - 1)
  let clip ← saveClip buf 5 stop
  let (start, stop) ← skipArgument buf 5 stop
  if stop = 0 ∨ stop = 1 then pure ⟨0, size, tty, [], []⟩
  else reply tty buf (start + 1) (stop - 1) size clip

/-- Handle OSC 52 clipboard input. -/
def ttyKeysClipboard (tty : Tty) (buf : Text) : Code Answer := do
  let checked ← checkHeader buf 0 header
  match checked with
  | some ret => pure ⟨ret, 0, tty, [], []⟩
  | none => do
      let (stop, terminator) ← findTerminator buf (buf.length - 5) 5
      if stop = buf.length then pure ⟨1, 0, tty, [], []⟩ else finishReply tty buf stop terminator

example :
    (ttyKeysClipboard ⟨true⟩ (header ++ [0x63, semicolon, 84, 87, 69, 61, BEL])).map (·.replies) =
    .ok [⟨[77, 97], 0x63⟩] := by decide +kernel

/-! ### Reading -/

theorem byteAt_append (front : Text) (b : UInt8) (back : Text) {i : Nat} (hi : i = front.length) :
    byteAt (front ++ b :: back) i = .ok b := by
  subst hi
  rw [byteAt, List.getElem?_append_right le_rfl, Nat.sub_self]
  rfl

theorem length_header_append (front : Text) : (header ++ front).length = 5 + front.length := by
  rw [List.length_append]
  rfl

theorem copyBytes_append (front p back : Text) {i : Nat} (hi : i = front.length) :
    copyBytes (front ++ (p ++ back)) i p.length = .ok p := by
  subst hi
  rw [copyBytes, if_pos (by simp only [List.length_append]; omega), List.drop_left, List.take_left]
  rfl

/-- The header is read as far as it agrees: the sequence goes on after it, ends within it or differs
from it. -/
theorem checkHeader_spec (front : Text) (hs : Text) {rest : Text} (hne : rest ≠ []) :
    (∃ body, body ≠ [] ∧ rest = hs ++ body ∧ checkHeader (front ++ rest) front.length hs =
      .ok none) ∨
    (rest <+: hs ∧ checkHeader (front ++ rest) front.length hs = .ok (some 1)) ∨
    (¬ rest <+: hs ∧ ¬ hs <+: rest ∧ checkHeader (front ++ rest) front.length hs =
      .ok (some (-1))) := by
  induction hs generalizing front rest with
  | nil => exact .inl ⟨rest, hne, rfl, rfl⟩
  | cons h hs ih =>
      obtain ⟨b, rest, rfl⟩ := List.exists_cons_of_ne_nil hne
      rw [checkHeader, byteAt_append front b rest rfl, code_bind]
      by_cases hb : b = h
      · subst hb
        rw [if_neg (not_not_intro rfl)]
        by_cases hrest : rest = []
        · subst hrest
          rw [if_pos (by simp)]
          exact .inr (.inl ⟨by simp, rfl⟩)
        · have hlength : (front ++ b :: rest).length ≠ front.length + 1 := by
            have hpos := List.length_pos_iff.mpr hrest
            simp only [List.length_append, List.length_cons]
            omega
          rw [if_neg hlength]
          have hnext := ih (front ++ [b]) hrest
          rw [List.length_append, List.length_singleton, List.append_assoc] at hnext
          rcases hnext with ⟨body, hbody, rfl, hok⟩ | ⟨hstarts, hok⟩ | ⟨hnot, hnot', hok⟩
          · exact .inl ⟨body, hbody, rfl, hok⟩
          · exact .inr (.inl ⟨List.cons_prefix_cons.mpr ⟨rfl, hstarts⟩, hok⟩)
          · refine .inr (.inr ⟨fun h => hnot ?_, fun h => hnot' ?_, hok⟩)
            · exact (List.cons_prefix_cons.mp h).2
            · exact (List.cons_prefix_cons.mp h).2
      · rw [if_pos hb]
        refine .inr (.inr ⟨fun h => hb ?_, fun h => hb ?_, rfl⟩)
        · exact (List.cons_prefix_cons.mp h).1
        · exact (List.cons_prefix_cons.mp h).1.symm

/-! ### The terminator -/

/-- BEL or ST. -/
def IsTerminator (t : Text) : Prop := t = [BEL] ∨ t = [ESC, backslash]

/-- What is before the first terminator, and the terminator. -/
structure Terminated (body region t : Text) : Prop where
  terminator : IsTerminator t
  starts : region ++ t <+: body
  first : ∀ region' t', IsTerminator t' → region' ++ t' <+: body →
    (region ++ t).length ≤ (region' ++ t').length

theorem IsTerminator.eq {region t region' t' : Text} (ht : IsTerminator t) (ht' : IsTerminator t')
    (heq : region ++ t = region' ++ t') : region = region' ∧ t = t' := by
  have hlast : BEL ≠ backslash := by decide
  rcases ht with rfl | rfl <;> rcases ht' with rfl | rfl
  · exact ⟨List.append_cancel_right heq, rfl⟩
  · have hbyte := congrArg List.getLast? heq
    rw [List.getLast?_append, List.getLast?_append] at hbyte
    exact absurd (Option.some.inj hbyte) hlast
  · have hbyte := congrArg List.getLast? heq
    rw [List.getLast?_append, List.getLast?_append] at hbyte
    exact absurd (Option.some.inj hbyte).symm hlast
  · exact ⟨List.append_cancel_right heq, rfl⟩

theorem IsTerminator.pos {t : Text} (ht : IsTerminator t) (region : Text) :
    0 < (region ++ t).length := by
  rcases ht with rfl | rfl <;> simp

theorem Terminated.not_prefix {body region t : Text} (h : Terminated body region t) :
    ¬ header ++ body <+: header := by
  intro hstarts
  have hpos := (h.terminator.pos region).trans_le h.starts.length_le
  have hle := hstarts.length_le
  rw [length_header_append] at hle
  exact absurd hle (show ¬ 5 + body.length ≤ 5 by omega)

theorem Terminated.unique {body region t region' t' : Text} (h : Terminated body region t)
    (h' : Terminated body region' t') :
    region = region' ∧ t = t' := by
  have hle := h.first region' t' h'.terminator h'.starts
  have hge := h'.first region t h.terminator h.starts
  exact h.terminator.eq h'.terminator
    ((List.prefix_of_prefix_length_le h.starts h'.starts hle).eq_of_length (by omega))

/-- What the last byte of the front of a body is when a terminator ends there. -/
theorem endsSt_spec (front : Text) (b : UInt8) (back : Text) :
    (∃ region, front = region ++ [ESC] ∧ b = backslash ∧
      endsSt (header ++ (front ++ b :: back)) (5 + front.length) = .ok true) ∨
    ((∀ region, ¬ (front = region ++ [ESC] ∧ b = backslash)) ∧
      endsSt (header ++ (front ++ b :: back)) (5 + front.length) = .ok false) := by
  rcases List.eq_nil_or_concat' front with rfl | ⟨front, c, rfl⟩
  · exact .inr ⟨fun region h => by simpa using congrArg List.length h.1, rfl⟩
  · have hbyte : byteAt (header ++ (front ++ [c] ++ b :: back)) (5 + (front ++ [c]).length) =
        .ok b := by
      rw [← List.append_assoc]
      exact byteAt_append _ b back (length_header_append _).symm
    have hprev : byteAt (header ++ (front ++ [c] ++ b :: back)) (5 + (front ++ [c]).length - 1) =
        .ok c := by
      rw [List.append_assoc, ← List.append_assoc]
      refine byteAt_append _ c (b :: back) ?_
      simp only [List.length_append, List.length_singleton]
      rfl
    rw [endsSt, if_pos (by simp only [List.length_append, List.length_singleton]; omega), hprev,
      code_bind, hbyte, code_bind]
    by_cases hst : c = ESC ∧ b = backslash
    · rw [decide_eq_true hst]
      exact .inl ⟨front, by rw [hst.1], hst.2, rfl⟩
    · rw [decide_eq_false hst]
      refine .inr ⟨fun region h => hst ⟨?_, h.2⟩, rfl⟩
      exact (List.append_inj' h.1 rfl).2 |> List.cons.inj |>.1

/-- The loop finds the first terminator, or comes to the end if there is none. -/
theorem findTerminator_spec (front rest : Text)
    (hlater : ∀ region t, IsTerminator t → region ++ t <+: front ++ rest →
      front.length < (region ++ t).length) :
    (findTerminator (header ++ (front ++ rest)) rest.length (5 + front.length) =
        .ok ((header ++ (front ++ rest)).length, 0) ∧
      ∀ region t, IsTerminator t → ¬ region ++ t <+: front ++ rest) ∨
    ∃ region t, Terminated (front ++ rest) region t ∧
      findTerminator (header ++ (front ++ rest)) rest.length (5 + front.length) =
        .ok (5 + (region ++ t).length - 1, t.length) := by
  induction rest generalizing front with
  | nil =>
      refine .inl ⟨?_, fun region t ht hstarts => ?_⟩
      · rw [List.append_nil, List.length_append]
        rfl
      · have hlt := hlater region t ht hstarts
        have hle := hstarts.length_le
        rw [List.append_nil] at hle
        omega
  | cons b rest ih =>
      have hbyte : byteAt (header ++ (front ++ b :: rest)) (5 + front.length) = .ok b := by
        rw [← List.append_assoc]
        exact byteAt_append _ b rest (length_header_append _).symm
      have hfirst : ∀ region t, IsTerminator t → region ++ t = front ++ [b] →
          Terminated (front ++ b :: rest) region t :=
        fun region t ht heq => by
          refine ⟨ht, ⟨rest, by rw [heq, List.append_assoc]; rfl⟩, fun region' t' ht' hstarts => ?_⟩
          have hlt := hlater region' t' ht' hstarts
          rw [heq, List.length_append, List.length_singleton]
          exact hlt
      rw [List.length_cons, findTerminator, hbyte, code_bind]
      by_cases hbel : b = BEL
      · subst hbel
        rw [if_pos rfl]
        refine .inr ⟨front, [BEL], hfirst _ _ (.inl rfl) rfl, ?_⟩
        rw [List.length_append, List.length_singleton]
        rfl
      · rw [if_neg hbel]
        rcases endsSt_spec front b rest with ⟨region, rfl, rfl, hst⟩ | ⟨hnot, hst⟩
        · rw [hst, code_bind, if_pos rfl]
          refine .inr ⟨region, [ESC, backslash], hfirst _ _ (.inr rfl) (by simp), ?_⟩
          simp only [List.length_append, List.length_cons, List.length_nil]
          rfl
        · rw [hst, code_bind, if_neg Bool.false_ne_true]
          have hnext := ih (front ++ [b])
          rw [List.append_assoc, List.length_append,
            List.length_singleton, ← Nat.add_assoc] at hnext
          refine hnext fun region t ht hstarts => ?_
          refine lt_of_le_of_ne (hlater region t ht hstarts) fun hlength => ?_
          have heq : region ++ t = front ++ [b] := by
            have hwhole : front ++ [b] <+: front ++ b :: rest :=
              ⟨rest, by rw [List.append_assoc]; rfl⟩
            refine (List.prefix_of_prefix_length_le hstarts hwhole ?_).eq_of_length ?_
            · rw [← hlength, List.length_append, List.length_singleton]
            · rw [← hlength, List.length_append, List.length_singleton]
          rcases ht with rfl | rfl
          · exact hbel (List.cons.inj (List.append_inj' heq rfl).2).1.symm
          · have hsplit : (region ++ [ESC]) ++ [backslash] = front ++ [b] := by
              rw [List.append_assoc]; exact heq
            obtain ⟨hfront, hlast⟩ := List.append_inj' hsplit rfl
            exact hnot region ⟨hfront.symm, (List.cons.inj hlast).1.symm⟩

/-! ### The content -/

/-- The content of a reply: what follows the second argument, up to the terminator. -/
def Payload (buf p : Text) : Prop :=
  ∃ body region t argument, buf = header ++ body ∧ Terminated body region t ∧
  region = argument ++ semicolon :: p ∧
    semicolon ∉ argument

theorem append_cons_inj {front front' p p' : Text} {c : UInt8} (h : c ∉ front) (h' : c ∉ front')
    (heq : front ++ c :: p = front' ++ c :: p') : p = p' := by
  induction front generalizing front' with
  | nil =>
      cases front' with
      | nil => exact (List.cons.inj heq).2
      | cons d front' => exact absurd ((List.cons.inj heq).1 ▸ List.mem_cons_self) h'
  | cons d front ih =>
      cases front' with
      | nil => exact absurd ((List.cons.inj heq).1 ▸ List.mem_cons_self) h
      | cons d' front' =>
          exact ih (fun hmem => h (List.mem_cons_of_mem _ hmem))
            (fun hmem => h' (List.mem_cons_of_mem _ hmem)) (List.cons.inj heq).2

/-- A reply has one content. -/
theorem Payload.unique {buf p p' : Text} (h : Payload buf p) (h' : Payload buf p') : p = p' := by
  obtain ⟨body, region, t, argument, rfl, hterm, hregion, hmem⟩ := h
  obtain ⟨body', region', t', argument', hbuf, hterm', hregion', hmem'⟩ := h'
  obtain rfl := List.append_cancel_left hbuf
  obtain ⟨rfl, rfl⟩ := hterm.unique hterm'
  exact append_cons_inj hmem hmem' (hregion.symm.trans hregion')

/-- The second argument is skipped up to its end, or to the end of everything if there is no end of
it. -/
theorem skipArgument_spec (front region back : Text) :
    (semicolon ∉ region ∧ skipArgument (front ++ (region ++ back)) front.length region.length =
      .ok (front.length + region.length, 0)) ∨
    ∃ argument p, region = argument ++ semicolon :: p ∧ semicolon ∉ argument ∧
      skipArgument (front ++ (region ++ back)) front.length region.length =
        .ok (front.length + argument.length, p.length + 1) := by
  induction region generalizing front with
  | nil => exact .inl ⟨List.not_mem_nil, rfl⟩
  | cons c region ih =>
      rw [List.length_cons, skipArgument, List.cons_append, byteAt_append front c _ rfl, code_bind]
      by_cases hc : c = semicolon
      · subst hc
        rw [if_neg (not_not_intro rfl)]
        exact .inr ⟨[], region, rfl, List.not_mem_nil, rfl⟩
      · rw [if_pos hc]
        have hnext := ih (front ++ [c])
        rw [List.append_assoc, List.length_append, List.length_singleton] at hnext
        rcases hnext with ⟨hmem, hok⟩ | ⟨argument, p, rfl, hmem, hok⟩
        · refine .inl ⟨fun h => (List.mem_cons.mp h).elim (fun h => hc h.symm) hmem, hok.trans ?_⟩
          rw [Nat.add_assoc, Nat.add_comm 1]
        · refine .inr ⟨c :: argument, p, rfl,
            fun h => (List.mem_cons.mp h).elim (fun h => hc h.symm) hmem, hok.trans ?_⟩
          rw [Nat.add_assoc, Nat.add_comm 1, List.length_cons]

theorem saveClip_ok (region back : Text) :
    ∃ clip, saveClip (header ++ (region ++ back)) 5 region.length = .ok clip := by
  rw [saveClip]
  split_ifs with hlength
  · match region, hlength with
    | b :: next :: region, _ =>
        have hfirst : byteAt (header ++ (b :: next :: region ++ back)) 5 = .ok b :=
          byteAt_append header b _ rfl
        have hnext : byteAt (header ++ [b] ++ (next :: region ++ back)) (5 + 1) = .ok next :=
          byteAt_append _ next _ rfl
        rw [List.append_assoc] at hnext
        rw [hfirst, code_bind]
        split_ifs with hb
        · exact ⟨_, congrArg (· >>= _) hnext⟩
        · exact ⟨0, rfl⟩
  · exact ⟨0, rfl⟩

/-- The content is whole groups, and they are all that is decoded of it: it asks for memory and has
room in it. -/
def Fitting (p : Text) : Prop := 4 ≤ p.length ∧ characters (p.takeWhile (· ≠ 0)) ≤ p.length / 4 * 4

theorem b64Pton_ok (p : Text) (n : Nat) : ∃ out, b64Pton p n n = .ok out ∧
    ∀ s, pton (p.takeWhile (· ≠ 0)) n = .ok s → out = some s := by
  rw [b64Pton]
  change ∃ out, (match pton (p.takeWhile (· ≠ 0)) n with
    | .error .invalid => pure none
    | .error fault => throw fault
    | .ok out => pure (some out) : Code (Option Text)) = .ok out ∧ _
  rcases pton_sound (p.takeWhile (· ≠ 0)) n with hbad | ⟨out, hok, -⟩
  · rw [hbad]
    exact ⟨none, rfl, fun s hs => (nomatch hs)⟩
  · rw [hok]
    exact ⟨some out, rfl, fun s hs => congrArg some (Except.ok.inj hs)⟩

/-- A content that fits is decoded as in a target of its own size; another one stops the program. -/
theorem decode_spec (p : Text) {n : Nat} (hn : p.length < n) :
    (Fitting p ∧ ∃ out, (xmalloc (p.length / 4 * 3) >>= fun needed => b64Pton p needed n) =
      .ok out ∧
      ∀ s, pton (p.takeWhile (· ≠ 0)) (p.length / 4 * 3) = .ok s → out = some s) ∨
    (¬ Fitting p ∧ ∃ fault, (xmalloc (p.length / 4 * 3) >>= fun needed => b64Pton p needed n) =
      .error fault) := by
  by_cases hlength : 4 ≤ p.length
  · have hroom : p.length / 4 * 3 = 3 * (p.length / 4) := Nat.mul_comm _ _
    rw [xmalloc, if_neg (by omega), hroom]
    change (_ ∧ ∃ out, b64Pton p _ n = _ ∧ _) ∨ (_ ∧ ∃ fault, b64Pton p _ n = _)
    have hsize := ptonInto_room (p.takeWhile (· ≠ 0)) (show 3 * (p.length / 4) < n by omega)
    by_cases hfit : characters (p.takeWhile (· ≠ 0)) ≤ 4 * (p.length / 4)
    · rw [if_pos hfit] at hsize
      refine .inl ⟨⟨hlength, by omega⟩, ?_⟩
      rw [b64Pton, hsize]
      exact b64Pton_ok p (3 * (p.length / 4))
    · rw [if_neg hfit] at hsize
      refine .inr ⟨fun h => hfit ?_, .outside, by rw [b64Pton, hsize]; rfl⟩
      exact h.2.trans (Nat.mul_comm _ _).le
  · rw [xmalloc, if_pos (by omega)]
    exact .inr ⟨fun h => hlength h.1, .zeroSize, rfl⟩

/-- The encoding of a string fits and is decoded. -/
theorem pton_payload {s : Text} (hs : s ≠ []) :
    encode s ≠ [] ∧ pton ((encode s).takeWhile (· ≠ 0)) ((encode s).length / 4 * 3) = .ok s := by
  have hpos := List.length_pos_iff.mpr hs
  have hlength := length_encode s
  rw [divCeil] at hlength
  have hclean : ∀ c ∈ encode s, c ≠ 0 ∧ isAsciiWhitespace c = false := encode_clean s
  have hstrip : strip (encode s) = encode s := List.filter_eq_self.mpr fun c hc => by
    simp [(hclean c hc).2]
  have hstring : (encode s).takeWhile (· ≠ 0) = encode s :=
    List.takeWhile_eq_self_iff.mpr fun c hc => by simpa using (hclean c hc).1
  refine ⟨fun hnil => ?_, ?_⟩
  · rw [hnil, List.length_nil] at hlength
    omega
  · rw [hstring]
    exact pton_encode (by omega) hstrip

/-! ### Replies -/

/-- A beginning of a reply, with no end to it. -/
def Unfinished (buf : Text) : Prop :=
  buf ≠ [] ∧ (buf <+: header ∨ ∃ body, buf = header ++ body ∧ ∀ region t, IsTerminator t →
    ¬ region ++ t <+: body)

/-- The right answer: 1 for a beginning, the size up to the first terminator, and the string that
has been encoded for the requester. -/
structure Handled (tty : Tty) (buf : Text) (answer : Answer) : Prop where
  unfinished : answer.ret = 1 ↔ Unfinished buf
  size : ∀ body region t, buf = header ++ body → Terminated body region t →
    answer.ret = 0 ∧ answer.size = 5 + (region ++ t).length
  other : ¬ buf <+: header → ¬ header <+: buf → answer.ret = -1
  replies : tty.query = true → ∀ s, s ≠ [] → Payload buf (encode s) → answer.replies.map (·.buf) =
    [s]

section

variable {tty : Tty} {body region t : Text}

theorem Handled.of_terminated (hterm : Terminated body region t) {answer : Answer}
    (hret : answer.ret = 0)
    (hsize : answer.size = 5 + (region ++ t).length)
    (hreplies : tty.query = true → ∀ s, s ≠ [] → Payload (header ++ body) (encode s) →
      answer.replies.map (·.buf) = [s]) :
    Handled tty (header ++ body) answer := by
  refine ⟨⟨fun h => ?_, fun h => ?_⟩, fun body' region' t' hbuf hterm' => ?_, fun _ hnot => ?_,
    hreplies⟩
  · rw [hret] at h
    cases h
  · rcases h.2 with hstarts | ⟨body', hbuf, hnone⟩
    · exact absurd hstarts hterm.not_prefix
    · obtain rfl := List.append_cancel_left hbuf
      exact absurd hterm.starts (hnone region t hterm.terminator)
  · obtain rfl := List.append_cancel_left hbuf
    obtain ⟨rfl, rfl⟩ := hterm.unique hterm'
    exact ⟨hret, hsize⟩
  · exact absurd (List.prefix_append header body) hnot

/-- Without a terminator nothing is passed on. -/
theorem handled_unterminated {buf : Text} {run : Code Answer} {answer : Answer}
    (hnone : ∀ body region t, buf = header ++ body → ¬ Terminated body region t)
    (hrun : run = .ok answer)
    (hunfinished : answer.ret = 1 ↔ Unfinished buf)
    (hother : ¬ buf <+: header → ¬ header <+: buf → answer.ret = -1) :
    (∃ answer, run = .ok answer ∧ Handled tty buf answer) ↔
      (tty.query = true → ∀ p, p ≠ [] → Payload buf p → Fitting p) := by
  have hpayload : ∀ p, ¬ Payload buf p := by
    rintro p ⟨body, region, t, argument, hbuf, hterm, -⟩
    exact hnone body region t hbuf hterm
  refine ⟨fun _ _ p _ h => absurd h (hpayload p),
    fun _ => ⟨answer, hrun, hunfinished, ?_, hother, ?_⟩⟩
  · exact fun body region t hbuf hterm => absurd hterm (hnone body region t hbuf)
  · exact fun _ s _ h => absurd h (hpayload _)

/-- A reply that has ended is handled right if its content fits, or nobody asked. -/
theorem finishReply_spec (hterm : Terminated body region t) :
    (∃ answer, finishReply tty (header ++ body) (5 + (region ++ t).length - 1) t.length =
      .ok answer ∧
      Handled tty (header ++ body) answer) ↔
    (tty.query = true → ∀ p, p ≠ [] → Payload (header ++ body) p → Fitting p) := by
  obtain ⟨back, hbody⟩ := hterm.starts
  have hlength : 1 ≤ t.length ∧ (region ++ t).length = region.length + t.length := by
    refine ⟨?_, List.length_append⟩
    rcases hterm.terminator with rfl | rfl
    · exact le_refl 1
    · exact Nat.le_succ 1
  have hstop : 5 + (region ++ t).length - 1 - 5 - (t.length - 1) = region.length := by omega
  have hsize : 5 + (region ++ t).length - 1 + 1 = 5 + (region ++ t).length := by omega
  obtain ⟨clip, hclip⟩ := saveClip_ok region (t ++ back)
  rw [← List.append_assoc region, hbody] at hclip
  have hskip := skipArgument_spec header region (t ++ back)
  rw [← List.append_assoc region, hbody] at hskip
  rw [finishReply, hstop, hsize, hclip, code_bind]
  change (∃ answer, (skipArgument (header ++ body) header.length region.length >>= _) = _ ∧ _) ↔ _
  -- Without a content there is nothing to pass on.
  have hnothing : (∀ p, p ≠ [] → ¬ Payload (header ++ body) p) →
      Handled tty (header ++ body) ⟨0, 5 + (region ++ t).length, tty, [], []⟩ := fun hnone =>
    .of_terminated hterm rfl rfl fun _ s hs hp => absurd hp (hnone _ (pton_payload hs).1)
  rcases hskip with ⟨hmem, hskip⟩ | ⟨argument, p, hregion, hmem, hskip⟩
  · have hnone : ∀ p, p ≠ [] → ¬ Payload (header ++ body) p := by
      rintro p - ⟨body', region', t', argument, hbuf, hterm', hregion, -⟩
      obtain rfl := List.append_cancel_left hbuf
      obtain ⟨rfl, rfl⟩ := hterm.unique hterm'
      rw [hregion] at hmem
      exact hmem (List.mem_append_right _ List.mem_cons_self)
    rw [hskip, code_bind]
    exact ⟨fun _ _ p hp hpayload => absurd hpayload (hnone p hp), fun _ => ⟨_, rfl, hnothing hnone⟩⟩
  · have hpayload : Payload (header ++ body) p :=
      ⟨body, region, t, argument, rfl, hterm, hregion, hmem⟩
    rw [hskip, code_bind]
    dsimp only
    by_cases hp : p = []
    · subst hp
      have hnone : ∀ p, p ≠ [] → ¬ Payload (header ++ body) p :=
        fun p hp hp' => hp (hp'.unique hpayload)
      rw [if_pos (.inr rfl)]
      exact ⟨fun _ _ p hp hpayload => absurd hpayload (hnone p hp),
        fun _ => ⟨_, rfl, hnothing hnone⟩⟩
    · have hpos := List.length_pos_iff.mpr hp
      rw [if_neg (by omega), Nat.add_sub_cancel, reply]
      cases hquery : tty.query with
      | false =>
          refine ⟨fun _ h => absurd h Bool.false_ne_true,
            fun _ => ⟨_, rfl, .of_terminated hterm rfl rfl fun h => ?_⟩⟩
          exact absurd (hquery.symm.trans h) Bool.false_ne_true
      | true =>
          have hcopy := copyBytes_append (header ++ argument ++ [semicolon]) p (t ++ back) rfl
          have hbuf : header ++ argument ++ [semicolon] ++ (p ++ (t ++ back)) = header ++ body := by
            rw [← hbody, hregion]
            simp
          have hat : (header ++ argument ++ [semicolon]).length = header.length + argument.length +
              1 := by
            simp only [List.length_append, List.length_singleton]
          rw [hbuf, hat] at hcopy
          rw [Bool.not_true, if_neg Bool.false_ne_true, hcopy, code_bind]
          have hlt : p.length < (header ++ body).length := by
            rw [← hbody, hregion]
            simp only [List.length_append, List.length_cons]
            omega
          rcases decode_spec p hlt with ⟨hfit, out, hok, hout⟩ | ⟨hnot, fault, hbad⟩
          · refine ⟨fun _ _ p' _ hp' => hp'.unique hpayload ▸ hfit, fun _ => ?_⟩
            rw [← bind_assoc, hok, code_bind]
            cases out with
            | none =>
                refine ⟨_, rfl, .of_terminated hterm rfl rfl fun _ s hs hp' => ?_⟩
                obtain rfl := hp'.unique hpayload
                cases hout s (pton_payload hs).2
            | some out =>
                refine ⟨_, rfl, .of_terminated hterm rfl rfl fun _ s hs hp' => ?_⟩
                obtain rfl := hp'.unique hpayload
                obtain rfl := Option.some.inj (hout s (pton_payload hs).2)
                rfl
          · refine ⟨fun ⟨answer, hanswer, _⟩ => ?_, fun h => absurd (h rfl p hp hpayload) hnot⟩
            rw [← bind_assoc, hbad] at hanswer
            cases hanswer

end

/-- Every sequence that is not empty is handled right, inside its bounds and those of what is
decoded, exactly when nobody asked or the content fits. -/
theorem ttyKeysClipboard_handled (tty : Tty) (buf : Text) :
    (∃ answer, ttyKeysClipboard tty buf = .ok answer ∧ Handled tty buf answer) ↔
      buf ≠ [] ∧ (tty.query = true → ∀ p, p ≠ [] → Payload buf p → Fitting p) := by
  by_cases hne : buf = []
  · subst hne
    refine ⟨fun ⟨answer, hanswer, _⟩ => ?_, fun h => absurd rfl h.1⟩
    cases hanswer
  · rw [and_iff_right hne, ttyKeysClipboard]
    rcases checkHeader_spec [] header hne with
        ⟨body, hbody, rfl, hok⟩ | ⟨hstarts, hok⟩ | ⟨hnot, hnot', hok⟩
    · have hlast : (header ++ body).length - 5 = body.length := by
        rw [length_header_append]
        omega
      change checkHeader (header ++ body) 0 header = _ at hok
      rw [hok, code_bind, hlast]
      dsimp only
      rcases findTerminator_spec [] body fun region t ht _ => ht.pos region with
          ⟨hfound, hnone⟩ | ⟨region, t, hterm, hfound⟩
      · change findTerminator (header ++ body) body.length 5 = _ at hfound
        rw [hfound, code_bind]
        refine handled_unterminated (fun body' region t hbuf hterm => ?_) (if_pos rfl) ?_
          fun _ h => absurd (List.prefix_append header body) h
        · obtain rfl := List.append_cancel_left hbuf
          exact hnone region t hterm.terminator hterm.starts
        · exact ⟨fun _ => ⟨hne, .inr ⟨body, rfl, hnone⟩⟩, fun _ => rfl⟩
      · change findTerminator (header ++ body) body.length 5 = _ at hfound
        have hshort : 5 + (region ++ t).length - 1 ≠ (header ++ body).length := by
          have hle := hterm.starts.length_le
          rw [List.nil_append] at hle
          rw [length_header_append]
          omega
        rw [hfound, code_bind]
        dsimp only
        rw [if_neg hshort]
        exact finishReply_spec hterm
    · change checkHeader buf 0 header = _ at hok
      rw [hok, code_bind]
      refine handled_unterminated (fun body region t hbuf hterm => ?_) rfl
        ⟨fun _ => ⟨hne, .inl hstarts⟩, fun _ => rfl⟩
        fun h => absurd hstarts h
      rw [hbuf] at hstarts
      exact hterm.not_prefix hstarts
    · change checkHeader buf 0 header = _ at hok
      rw [hok, code_bind]
      refine handled_unterminated (fun body region t hbuf _ => ?_) rfl ⟨fun h => ?_, fun h => ?_⟩
        fun _ _ => rfl
      · rw [hbuf] at hnot'
        exact hnot' (List.prefix_append header body)
      · exact absurd (show (-1 : Int) = 1 from h) (by decide)
      · rcases h.2 with hstarts | ⟨body, rfl, -⟩
        · exact absurd hstarts hnot
        · exact absurd (List.prefix_append header body) hnot'

/-- Without its padding a reply asks for no memory, or is written after the end of it. -/
theorem unpadded_outside :
    ttyKeysClipboard ⟨true⟩ (header ++ [0x63, semicolon, 84, 87, 69, BEL]) = .error .zeroSize ∧
      ttyKeysClipboard ⟨true⟩ (header ++
        [0x63, semicolon, 84, 87, 70, 117, 84, 87, ESC, backslash]) = .error .outside := by
  decide +kernel

end Ztmux.Keys.Clipboard
