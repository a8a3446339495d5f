import Ztmux.Utf8.Table

/-!
Decoding the bytes of a string.

A character is opened with its first byte, which says how many there are, and the others are
appended as they come. A byte that does not belong there is only noticed after the last; until then
it is counted like the others. The width of a character is given by the locale and the options.
-/

namespace Ztmux.Utf8

/-! ### Model -/

/-- The width that `utf8_width` finds for the bytes of a character, if they are one. -/
abbrev Width := List UInt8 → Option UInt8

/-- Append a byte to a character. -/
def utf8Append (width : Width) (ud : Utf8Data) (ch : UInt8) : Exec (Utf8State × Utf8Data) :=
  if ud.size ≤ ud.have_ then .error .fatal
  else if utf8Size < ud.size.toNat then .error .fatal
  else
    let ud := if ud.have_ ≠ 0 ∧ ch &&& 0xc0 ≠ 0x80 then { ud with width := 0xff } else ud
    let ud := { ud with
      data := Function.update ud.data (Fin.ofNat utf8Size ud.have_.toNat) ch
      have_ := ud.have_ + 1 }
    if ud.have_ ≠ ud.size then .ok (.more, ud)
    else if ud.width = 0xff then .ok (.error, ud)
    else match width ud.initializedSlice with
      | none => .ok (.error, ud)
      | some w => .ok (.done, { ud with width := w })

/-- How many bytes a character has that begins with this one. -/
def leadSize (ch : UInt8) : Option UInt8 :=
  if 0xc2 ≤ ch ∧ ch ≤ 0xdf then some 2
  else if 0xe0 ≤ ch ∧ ch ≤ 0xef then some 3
  else if 0xf0 ≤ ch ∧ ch ≤ 0xf4 then some 4
  else none

def Utf8Data.zeroed : Utf8Data := ⟨fun _ => 0, 0, 0, 0⟩

def utf8Open (width : Width) (ch : UInt8) : Exec (Utf8State × Utf8Data) :=
  match leadSize ch with
  | none => .ok (.error, .zeroed)
  | some size => do
      let r ← utf8Append width { Utf8Data.zeroed with size := size } ch
      pure (.more, r.2)

/-- The loop that appends the bytes of a string from the next place on. It returns the place where
it stops. -/
def appendMore (width : Width) (s : List UInt8) : Nat → Nat → Utf8State → Utf8Data →
    Exec (Nat × Utf8State × Utf8Data)
  | 0, _, _, _ => .error .outOfFuel
  | fuel + 1, i, state, ud =>
      match s[i + 1]? with
      | none => .ok (i + 1, state, ud)
      | some ch =>
          if state = .more then do
            let r ← utf8Append width ud ch
            appendMore width s fuel (i + 1) r.1 r.2
          else .ok (i + 1, state, ud)

/-- Decode from a place of a string: the place behind a character that is done, and otherwise the
same place again. -/
def utf8Decode (width : Width) (s : List UInt8) (fuel i : Nat) (ch : UInt8) :
    Exec (Nat × Utf8State × Utf8Data) := do
  let opened ← utf8Open width ch
  if opened.1 = .more then
    let r ← appendMore width s fuel i opened.1 opened.2
    if r.2.1 = .done then pure r else pure (r.1 - r.2.2.have_.toNat, r.2)
  else pure (i, opened)

/-! ### Characters -/

def isContinuation (ch : UInt8) : Bool := ch &&& 0xc0 = 0x80

/-- The width of the bytes of a character, if all but the first continue it. -/
def completeWidth (width : Width) (bytes : List UInt8) : Option UInt8 :=
  if bytes.tail.all isContinuation then width bytes else none

/-- The complete character that some text begins with, and its width. -/
def completeChar (width : Width) (text : List UInt8) : Option (List UInt8 × UInt8) :=
  match (text.head?).bind leadSize with
  | none => none
  | some size =>
      if size.toNat ≤ text.length then
        (completeWidth width (text.take size.toNat)).map fun w => (text.take size.toNat, w)
      else none

theorem leadSize_le {ch size : UInt8} (h : leadSize ch = some size) :
    2 ≤ size.toNat ∧ size.toNat ≤ 4 := by
  rw [leadSize] at h
  split_ifs at h <;> obtain rfl := Option.some.inj h <;> decide

variable {width : Width} {s : List UInt8}

theorem completeChar_bytes {text bytes : List UInt8} {w : UInt8}
    (h : completeChar width text = some (bytes, w)) :
    ∃ rest, text = bytes ++ rest ∧ 2 ≤ bytes.length ∧ completeWidth width bytes = some w := by
  rw [completeChar] at h
  cases hsize : text.head?.bind leadSize with
  | none => simp [hsize] at h
  | some size =>
      simp only [hsize] at h
      split_ifs at h with hlen
      obtain ⟨w', hw, heq⟩ := Option.map_eq_some_iff.mp h
      obtain ⟨rfl, rfl⟩ := Prod.mk.inj heq
      obtain ⟨ch, -, hlead⟩ := Option.bind_eq_some_iff.mp hsize
      refine ⟨text.drop size.toNat, (List.take_append_drop _ _).symm, ?_, hw⟩
      rw [List.length_take_of_le hlen]
      exact (leadSize_le hlead).1

/-! ### Appending -/

/-- A character of `size` bytes that has got these. -/
structure Opened (size : Nat) (bytes : List UInt8) (ud : Utf8Data) : Prop where
  have_ : ud.have_.toNat = bytes.length
  size : ud.size.toNat = size
  data : (List.ofFn ud.data).take bytes.length = bytes
  width : ud.width = if bytes.tail.all isContinuation then 0 else 0xff

variable {size : Nat} {bytes : List UInt8} {ud : Utf8Data}

theorem Opened.initializedSlice (h : Opened size bytes ud) (hlen : bytes.length = size) :
    ud.initializedSlice = bytes := by
  rw [Utf8Data.initializedSlice, h.size, ← hlen, h.data]

theorem take_succ_ofFn_update {n : Nat} (data : Fin n → UInt8) {k : Nat} (hk : k < n) (ch : UInt8) :
    (List.ofFn (Function.update data ⟨k, hk⟩ ch)).take (k + 1) = (List.ofFn data).take k ++
      [ch] := by
  apply List.ext_getElem
  · simp only [List.length_take, List.length_ofFn, List.length_append, List.length_singleton]
    omega
  · intro i hi _
    rw [List.length_take, List.length_ofFn] at hi
    rw [List.getElem_take, List.getElem_ofFn]
    rcases Nat.lt_or_ge i k with hlt | hge
    · rw [List.getElem_append_left (by rw [List.length_take, List.length_ofFn]; omega),
        List.getElem_take, List.getElem_ofFn, Function.update_of_ne fun heq =>
          absurd (congrArg Fin.val heq) hlt.ne]
    · obtain rfl : i = k := by omega
      rw [Function.update_self, List.getElem_append_right (by rw [List.length_take]; omega)]
      simp

theorem all_tail_snoc (hne : bytes ≠ []) (ch : UInt8) :
    (bytes ++ [ch]).tail.all isContinuation =
      (bytes.tail.all isContinuation && isContinuation ch) := by
  rw [List.tail_append_of_ne_nil hne, List.all_append]
  simp

theorem utf8Append_ok (h : Opened size bytes ud) (hlt : bytes.length < size) (hsize : size ≤ 4)
    (ch : UInt8) : ∃ ud', Opened size (bytes ++ [ch]) ud' ∧
      (bytes.length + 1 < size → utf8Append width ud ch = .ok (.more, ud')) ∧
      (bytes.length + 1 = size → completeWidth width (bytes ++ [ch]) = none →
        utf8Append width ud ch = .ok (.error, ud')) ∧
      ∀ w, bytes.length + 1 = size → completeWidth width (bytes ++ [ch]) = some w →
        utf8Append width ud ch = .ok (.done, { ud' with width := w }) := by
  obtain ⟨hhave, hsz, hdata, hwidth⟩ := h
  have hmax : utf8Size = 21 := rfl
  set ud₁ : Utf8Data := if ud.have_ ≠ 0 ∧ ch &&& 0xc0 ≠ 0x80 then { ud with width := 0xff } else ud
    with hud₁
  have hsame : ud₁.have_ = ud.have_ ∧ ud₁.size = ud.size ∧ ud₁.data = ud.data := by
    rw [hud₁]
    split_ifs <;> exact ⟨rfl, rfl, rfl⟩
  obtain ⟨hhave₁, hsize₁, hdata₁⟩ := hsame
  set ud₂ : Utf8Data := { ud₁ with
    data := Function.update ud₁.data (Fin.ofNat utf8Size ud₁.have_.toNat) ch
    have_ := ud₁.have_ + 1 } with hud₂
  have hnat : ud₂.have_.toNat = bytes.length + 1 := by
    change (ud₁.have_ + 1).toNat = _
    rw [UInt8.toNat_add, hhave₁, hhave]
    exact Nat.mod_eq_of_lt (by change bytes.length + 1 < 256; omega)
  have hopened : Opened size (bytes ++ [ch]) ud₂ := by
    refine ⟨?_, ?_, ?_, ?_⟩
    · rw [hnat, List.length_append, List.length_singleton]
    · change ud₁.size.toNat = size
      rw [hsize₁, hsz]
    · have hplace : Fin.ofNat utf8Size ud₁.have_.toNat = ⟨bytes.length, by omega⟩ := by
        apply Fin.ext
        change ud₁.have_.toNat % utf8Size = bytes.length
        rw [hhave₁, hhave]
        exact Nat.mod_eq_of_lt (by omega)
      change (List.ofFn (Function.update ud₁.data _ ch)).take _ = _
      rw [hplace, List.length_append, List.length_singleton, take_succ_ofFn_update, hdata₁, hdata]
    · change ud₁.width = _
      rcases List.eq_nil_or_concat bytes with rfl | ⟨front, b, hb⟩
      · have hzero : ud.have_ = 0 := UInt8.toNat.inj hhave
        rw [hud₁, if_neg (fun hne => hne.1 hzero), hwidth]
        rfl
      · have hne : bytes ≠ [] := by simp [hb]
        have hpos : ud.have_ ≠ 0 := fun heq => by
          rw [heq] at hhave
          exact hne (List.length_eq_zero_iff.mp hhave.symm)
        rw [all_tail_snoc hne]
        by_cases hcont : ch &&& 0xc0 = 0x80
        · have htrue : isContinuation ch = true := decide_eq_true hcont
          rw [hud₁, if_neg (fun hne => hne.2 hcont), hwidth, htrue, Bool.and_true]
        · have hfalse : isContinuation ch = false := decide_eq_false hcont
          rw [hud₁, if_pos ⟨hpos, hcont⟩, hfalse, Bool.and_false]
          rfl
  refine ⟨ud₂, hopened, ?_⟩
  have happend : utf8Append width ud ch =
      if ud₂.have_ ≠ ud₂.size then .ok (.more, ud₂)
      else if ud₂.width = 0xff then .ok (.error, ud₂)
      else match width ud₂.initializedSlice with
        | none => .ok (.error, ud₂)
        | some w => .ok (.done, { ud₂ with width := w }) := by
    rw [utf8Append, if_neg, if_neg]
    · rw [hsz]
      exact Nat.not_lt.mpr (by omega)
    · rw [UInt8.le_iff_toNat_le, hhave, hsz]
      omega
  have hlen : (bytes ++ [ch]).length = bytes.length + 1 := by
    rw [List.length_append, List.length_singleton]
  rw [happend]
  refine ⟨fun hmore => ?_, fun hlast hnone => ?_, fun w hlast hw => ?_⟩
  · rw [if_pos]
    intro heq
    have := congrArg UInt8.toNat heq
    rw [hnat, hopened.size] at this
    omega
  all_goals
    have hfull : ud₂.have_ = ud₂.size := UInt8.toNat.inj (by rw [hnat, hopened.size, hlast])
    have hslice := hopened.initializedSlice (hlen.trans hlast)
    rw [if_neg (not_not.mpr hfull), hopened.width, hslice]
  · rw [completeWidth] at hnone
    split_ifs at hnone ⊢ with hcont hbad
    · rfl
    · rw [hnone]
    · rfl
    · exact absurd rfl ‹_›
  · rw [completeWidth] at hw
    split_ifs at hw ⊢ with hcont hbad
    · exact absurd hbad (by decide)
    · rw [hw]

theorem utf8Open_ok (width : Width) {ch size : UInt8} (hlead : leadSize ch = some size) :
    ∃ ud, utf8Open width ch = .ok (.more, ud) ∧ Opened size.toNat [ch] ud := by
  obtain ⟨hge, hle⟩ := leadSize_le hlead
  have hstart : Opened size.toNat [] { Utf8Data.zeroed with size := size } := ⟨rfl, rfl, rfl, rfl⟩
  obtain ⟨ud, hopened, hmore, -⟩ :=
    @utf8Append_ok width _ _ _ hstart (by rw [List.length_nil]; omega) hle ch
  refine ⟨ud, ?_, hopened⟩
  rw [utf8Open, hlead]
  dsimp only
  rw [hmore (by rw [List.length_nil]; omega)]
  rfl

/-! ### Decoding -/

/-- How appending the bytes of a text ends: behind the complete character that the text begins with,
or after as many bytes as were counted. -/
def Decodes (width : Width) (text : List UInt8) (start : Nat) (r : Nat × Utf8State × Utf8Data) :
    Prop :=
  (∀ bytes w, completeChar width text = some (bytes, w) →
    r.1 = start + bytes.length ∧ r.2.1 = .done ∧ r.2.2.width = w ∧ r.2.2.initializedSlice = bytes) ∧
  (completeChar width text = none → r.2.1 ≠ .done ∧ r.1 = start + r.2.2.have_.toNat)

/-- The loop stops when a character is done or wrong. -/
theorem appendMore_stops (width : Width) (s : List UInt8) (fuel i : Nat) {state : Utf8State}
    (hstate : state ≠ .more) (ud : Utf8Data) :
    appendMore width s (fuel + 1) i state ud = .ok (i + 1, state, ud) := by
  rw [appendMore]
  cases s[i + 1]? with
  | none => rfl
  | some ch => exact if_neg hstate

theorem appendMore_ok {text rest : List UInt8} {start : Nat} (hsize : size ≤ 4)
    (hlead : (text.head?).bind leadSize = some (UInt8.ofNat size)) (hdrop : s.drop start = text)
    (htext : text = bytes ++ rest) (hne : bytes ≠ []) (hlt : bytes.length < size)
    (h : Opened size bytes ud) :
    ∃ r, Returns (fun fuel => appendMore width s fuel (start + (bytes.length - 1)) .more ud) r ∧
      Decodes width text start r := by
  have hpos := List.length_pos_iff.mpr hne
  have hsz : (UInt8.ofNat size).toNat = size := by
    rw [UInt8.toNat_ofNat']
    exact Nat.mod_eq_of_lt (by omega)
  induction rest generalizing bytes ud with
  | nil =>
      -- The text ends before the character.
      rw [List.append_nil] at htext
      have hnone : completeChar width text = none := by
        rw [completeChar, hlead]
        dsimp only
        rw [hsz, if_neg (by rw [htext]; omega)]
      refine ⟨(start + bytes.length, .more, ud), Returns.of_succ ⟨0, fun fuel _ => ?_⟩,
        fun b w hsome => ?_, fun _ => ⟨fun heq => (nomatch heq), by rw [h.have_]⟩⟩
      · have hend : s[start + (bytes.length - 1) + 1]? = none := by
          rw [(by
            omega : start + (bytes.length - 1) + 1 = start + bytes.length), ← List.getElem?_drop,
            hdrop, htext]
          exact List.getElem?_eq_none (Nat.le_refl _)
        dsimp only
        rw [appendMore, hend, (by omega : start + (bytes.length - 1) + 1 = start + bytes.length)]
      · rw [hnone] at hsome
        cases hsome
  | cons ch rest ih =>
      obtain ⟨ud', hopened, hmore, herror, hdone⟩ :=
        @utf8Append_ok width size bytes ud h hlt hsize ch
      have hlen : (bytes ++ [ch]).length = bytes.length + 1 := by
        rw [List.length_append, List.length_singleton]
      have hget : s[start + (bytes.length - 1) + 1]? = some ch := by
        rw [(by
          omega : start + (bytes.length - 1) + 1 = start + bytes.length), ← List.getElem?_drop,
          hdrop, htext, List.getElem?_append_right (Nat.le_refl _), Nat.sub_self]
        rfl
      have hstep : ∀ fuel, appendMore width s (fuel + 1) (start + (bytes.length - 1)) .more ud =
          (utf8Append width ud ch >>= fun r =>
            appendMore width s fuel (start + (bytes.length - 1) + 1) r.1 r.2) := by
        intro fuel
        rw [appendMore, hget]
        exact if_pos rfl
      have hplace : start + (bytes.length - 1) + 1 = start + ((bytes ++ [ch]).length - 1) := by
        rw [hlen]
        omega
      rcases Nat.lt_or_ge (bytes.length + 1) size with hlt' | hge
      · obtain ⟨r, hreturns, hdecodes⟩ := ih (by rw [htext, List.append_assoc]; rfl)
          (List.append_ne_nil_of_right_ne_nil _ (List.cons_ne_nil _ _)) (by omega) hopened
            (by omega)
        refine ⟨r, Returns.of_succ ?_, hdecodes⟩
        simp only [hstep, hmore hlt', ok_bind, hplace]
        exact hreturns
      · have hlast : bytes.length + 1 = size := by omega
        have htake : text.take size = bytes ++ [ch] := by
          rw [htext, ← List.singleton_append, ← List.append_assoc, ← hlast, ← hlen, List.take_left]
        have hcomplete : completeChar width text =
            (completeWidth width (bytes ++ [ch])).map fun w => (bytes ++ [ch], w) := by
          rw [completeChar, hlead]
          dsimp only
          rw [hsz, htake, if_pos]
          rw [htext, List.length_append, List.length_cons]
          omega
        have hstop : ∀ fuel (state : Utf8State) ud₂, state ≠ .more →
            utf8Append width ud ch = .ok (state, ud₂) →
            appendMore width s (fuel + 2) (start + (bytes.length - 1)) .more ud =
              .ok (start + size, state, ud₂) := by
          intro fuel state ud₂ hstate happend
          rw [hstep, happend, ok_bind]
          dsimp only
          rw [appendMore_stops width s fuel _ hstate,
            (by omega : start + (bytes.length - 1) + 1 + 1 = start + size)]
        cases hwidth : completeWidth width (bytes ++ [ch]) with
        | none =>
            rw [hwidth] at hcomplete
            refine ⟨(start + size, .error, ud'), Returns.of_succ (Returns.of_succ ⟨0, fun fuel _ =>
              hstop fuel .error ud' (fun heq => (nomatch heq)) (herror hlast hwidth)⟩),
              fun b w hsome => ?_, fun _ => ⟨fun heq => (nomatch heq), ?_⟩⟩
            · rw [hcomplete] at hsome
              cases hsome
            · rw [hopened.have_, hlen, hlast]
        | some w =>
            rw [hwidth] at hcomplete
            refine ⟨(start + size, .done, { ud' with width := w }),
              Returns.of_succ (Returns.of_succ ⟨0, fun fuel _ =>
                hstop fuel .done _ (fun heq => (nomatch heq)) (hdone w hlast hwidth)⟩),
              fun b w' hsome => ?_, fun hnone => ?_⟩
            · rw [hcomplete] at hsome
              obtain ⟨rfl, rfl⟩ := Prod.mk.inj (Option.some.inj hsome)
              exact ⟨by rw [hlen, hlast], rfl, rfl, hopened.initializedSlice (hlen.trans hlast)⟩
            · rw [hcomplete] at hnone
              cases hnone

/-- Decoding finds the complete character that the text begins with, if there is one, and is back
where it began otherwise. -/
theorem utf8Decode_ok (width : Width) {i : Nat} {ch : UInt8} {rest : List UInt8}
    (hdrop : s.drop i = ch :: rest) :
    ∃ r, Returns (fun fuel => utf8Decode width s fuel i ch) r ∧
      (∀ bytes w, completeChar width (ch :: rest) = some (bytes, w) →
        r.1 = i + bytes.length ∧ r.2.1 = .done ∧ r.2.2.width = w ∧ r.2.2.initializedSlice = bytes) ∧
      (completeChar width (ch :: rest) = none → r.2.1 ≠ .done ∧ r.1 = i) := by
  cases hlead : leadSize ch with
  | none =>
      refine ⟨(i, .error, .zeroed), ⟨0, fun fuel _ => ?_⟩, fun b w hsome => ?_, fun _ =>
        ⟨fun heq => (nomatch heq), rfl⟩⟩
      · simp only [utf8Decode, utf8Open, hlead, ok_bind, reduceCtorEq, if_false]
        rfl
      · simp [completeChar, hlead] at hsome
  | some size =>
      obtain ⟨hge, hle⟩ := leadSize_le hlead
      obtain ⟨ud, hopen, hopened⟩ := utf8Open_ok width hlead
      obtain ⟨r, hreturns, hsome, hnone⟩ := @appendMore_ok width s size.toNat [ch] ud (ch :: rest)
        rest i hle (by rw [UInt8.ofNat_toNat]; exact hlead) hdrop rfl (List.cons_ne_nil _ _)
        (by rw [List.length_singleton]; omega) hopened
      have hdecode : ∀ fuel, utf8Decode width s fuel i ch = (appendMore width s fuel i .more ud >>=
          fun r => if r.2.1 = .done then pure r else pure (r.1 - r.2.2.have_.toNat, r.2)) := by
        intro fuel
        rw [utf8Decode, hopen, ok_bind]
        exact if_pos rfl
      obtain ⟨n, hn⟩ := hreturns
      cases hcomplete : completeChar width (ch :: rest) with
      | some p =>
          obtain ⟨hplace, hdone, hw, hbytes⟩ := hsome p.1 p.2 hcomplete
          refine ⟨r, ⟨n, fun fuel hfuel => ?_⟩, fun b w heq => ?_, fun h => (nomatch h)⟩
          · dsimp only
            rw [hdecode, (show appendMore width s fuel i .more ud = .ok r from hn fuel hfuel),
              ok_bind, if_pos hdone]
            rfl
          · obtain rfl := Option.some.inj heq
            exact ⟨hplace, hdone, hw, hbytes⟩
      | none =>
          obtain ⟨hstate, hplace⟩ := hnone hcomplete
          refine ⟨(r.1 - r.2.2.have_.toNat, r.2), ⟨n, fun fuel hfuel => ?_⟩,
            fun b w h => (nomatch h), fun _ => ⟨hstate, ?_⟩⟩
          · dsimp only
            rw [hdecode, (show appendMore width s fuel i .more ud = .ok r from hn fuel hfuel),
              ok_bind, if_neg hstate]
            rfl
          · dsimp only
            omega

end Ztmux.Utf8
