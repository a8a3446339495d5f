import Ztmux.ScreenWrite.Cell
import Ztmux.Utf8.Decode

/-!
Strings that are written, and how long they are.

Two loops decode the bytes of a string. One writes a cell for each character, the other counts the
columns that are needed. The counter is of the type of the width of one character.
-/

namespace Ztmux.ScreenWrite

open Utf8

/-! ### Model -/

/-- The C string in some bytes. -/
def untilNul (ptr : List UInt8) : List UInt8 := ptr.takeWhile fun ch => ch ≠ 0

def cStrlen (ptr : List UInt8) : Nat := (untilNul ptr).length

/-- Open a character if there is one. The data are not touched by a byte below 0x80. -/
def opensAbove (width : Width) (ud : Utf8Data) (ch : UInt8) : Exec (Utf8State × Utf8Data) :=
  if 0x7f < ch then utf8Open width ch else pure (.error, ud)

/-- Append bytes for as long as a character is not complete. -/
def appendWhile (width : Width) : List UInt8 → Utf8Data → Exec (Utf8State × Utf8Data × List UInt8)
  | [], _ => .error .outOfBounds
  | ch :: ptr, ud => do
      let r ← Utf8.utf8Append width ud ch
      if r.1 = .more then appendWhile width ptr r.2 else pure (r.1, r.2, ptr)

def printable (ch : UInt8) : Prop := 0x1f < ch ∧ ch < 0x7f

instance (ch : UInt8) : Decidable (printable ch) := by
  unfold printable
  infer_instance

def strlenLoop (width : Width) : Nat → List UInt8 → Utf8Data → UInt8 → Exec UInt8
  | 0, _, _, _ => .error .outOfFuel
  | _ + 1, [], _, _ => .error .outOfBounds
  | fuel + 1, ch :: ptr, ud, size =>
      if ch = 0 then pure size
      else do
        let opened ← opensAbove width ud ch
        if opened.1 = .more then
          if cStrlen ptr < opened.2.size.toNat - 1 then pure size
          else do
            let r ← appendWhile width ptr opened.2
            strlenLoop width fuel r.2.2 r.2.1 (if r.1 = .done then size + r.2.1.width else size)
        else strlenLoop width fuel ptr opened.2 (if printable ch then size + 1 else size)

/-- The columns of a message, whose end is marked. -/
def strlen (width : Width) (msg : List UInt8) (fuel : Nat) : Exec Nat := do
  let size ← strlenLoop width fuel (msg ++ [0]) .zeroed 0
  pure size.toNat

/-- What is asked of the screen for a string. -/
inductive Put
  | cell (gc : GridCell)
  | putc (gc : GridCell) (ch : UInt8)
  | linefeed (wrapped : Bool) (bg : Nat)
  | carriagereturn

/-- What is written before what the rest of a string asks for. -/
def puts (before : List Put) (rest : Exec (List Put)) : Exec (List Put) := do
  pure (before ++ (← rest))

def vnputsLoop (width : Width) (maxlen : Int) : Nat → List UInt8 → GridCell → Nat → Exec (List Put)
  | 0, _, _, _ => .error .outOfFuel
  | _ + 1, [], _, _ => .error .outOfBounds
  | fuel + 1, ch :: ptr, gc, size =>
      if ch = 0 then pure []
      else do
        let opened ← opensAbove width gc.data ch
        if opened.1 = .more then
          if cStrlen ptr < opened.2.size.toNat - 1 then pure []
          else do
            let r ← appendWhile width ptr opened.2
            let gc := { gc with data := r.2.1 }
            if r.1 ≠ .done then vnputsLoop width maxlen fuel r.2.2 gc size
            else if 0 < maxlen ∧ maxlen < size + gc.data.width.toNat then
              pure (List.replicate (maxlen.toNat - size) (.putc gc ' '.toUInt8))
            else
              puts [.cell gc]
                (vnputsLoop width maxlen fuel r.2.2 gc (size + gc.data.width.toNat))
        else
          let gc := { gc with data := opened.2 }
          if 0 < maxlen ∧ maxlen < size + 1 then pure []
          else if ch = 1 then
            vnputsLoop width maxlen fuel ptr { gc with attr := gc.attr ^^^ GRID_ATTR_CHARSET } size
          else if ch = '\n'.toUInt8 then
            puts [.linefeed false 8, .carriagereturn] (vnputsLoop width maxlen fuel ptr gc size)
          else if printable ch then
            puts [.putc gc ch] (vnputsLoop width maxlen fuel ptr gc (size + 1))
          else vnputsLoop width maxlen fuel ptr gc size

def vnputs (width : Width) (maxlen : Int) (gc : GridCell) (msg : List UInt8) (fuel : Nat) :
    Exec (List Put) := vnputsLoop width maxlen fuel (msg ++ [0]) gc 0

/-! ### Columns -/

/-- The widths of the cells that are handed over. -/
def Put.columns : Put → Nat
  | .cell gc => gc.data.width.toNat
  | .putc _ _ => 1
  | .linefeed _ _ => 0
  | .carriagereturn => 0

/-- The columns of the characters of a text, up to a character that the text ends in. -/
def textColumns (width : Width) : List UInt8 → Nat
  | [] => 0
  | ch :: text => match leadSize ch with
      | none => (if printable ch then 1 else 0) + textColumns width text
      | some size =>
          if text.length < size.toNat - 1 then 0
          else ((completeWidth width (ch :: text.take (size.toNat - 1))).elim 0 UInt8.toNat) +
            textColumns width (text.drop (size.toNat - 1))
termination_by text => text.length
decreasing_by
  · simp
  · simp only [List.length_drop, List.length_cons]
    omega

variable {width : Width} {ch size : UInt8} {text rest : List UInt8} {ud : Utf8Data}

theorem textColumns_none (hlead : leadSize ch = none) :
    textColumns width (ch :: text) = (if printable ch then 1 else 0) + textColumns width text := by
  rw [textColumns, hlead]

theorem textColumns_short (hlead : leadSize ch = some size)
    (hshort : text.length < size.toNat - 1) :
    textColumns width (ch :: text) = 0 := by
  rw [textColumns, hlead]
  exact if_pos hshort

theorem textColumns_some (hlead : leadSize ch = some size)
    (hlong : ¬ text.length < size.toNat - 1) :
    textColumns width (ch :: text) =
      ((completeWidth width (ch :: text.take (size.toNat - 1))).elim 0 UInt8.toNat) +
        textColumns width (text.drop (size.toNat - 1)) := by
  rw [textColumns, hlead]
  exact if_neg hlong

/-! ### One character -/

theorem untilNul_text (h0 : 0 ∉ text) (rest : List UInt8) :
    untilNul (text ++ 0 :: rest) = text := by
  have hpos : ∀ ch ∈ text, decide (ch ≠ 0) = true :=
    fun ch hch => decide_eq_true fun heq => h0 (heq ▸ hch)
  rw [untilNul, List.takeWhile_append_of_pos hpos, List.takeWhile_cons_of_neg (by decide),
    List.append_nil]

theorem cStrlen_text (h0 : 0 ∉ text) (rest : List UInt8) :
    cStrlen (text ++ 0 :: rest) = text.length := by
  rw [cStrlen, untilNul_text h0]

theorem opensAbove_none (hlead : leadSize ch = none) (ud : Utf8Data) :
    ∃ ud', opensAbove width ud ch = .ok (.error, ud') := by
  rw [opensAbove]
  split_ifs with habove
  · refine ⟨.zeroed, ?_⟩
    rw [utf8Open, hlead]
  · exact ⟨ud, rfl⟩

theorem opensAbove_some (hlead : leadSize ch = some size) (ud : Utf8Data) :
    ∃ ud', opensAbove width ud ch = .ok (.more, ud') ∧ Opened size.toNat [ch] ud' := by
  have habove : 0x7f < ch := by
    rw [leadSize] at hlead
    rw [UInt8.lt_iff_toNat_lt]
    split_ifs at hlead with h₂ h₃ h₄
    · exact Nat.lt_of_lt_of_le (by decide) (UInt8.le_iff_toNat_le.mp h₂.1)
    · exact Nat.lt_of_lt_of_le (by decide) (UInt8.le_iff_toNat_le.mp h₃.1)
    · exact Nat.lt_of_lt_of_le (by decide) (UInt8.le_iff_toNat_le.mp h₄.1)
  rw [opensAbove, if_pos habove]
  exact utf8Open_ok width hlead

/-- The bytes that are counted are there, and the last of them says whether they are a character. -/
theorem appendWhile_ok {n : Nat} {bytes more : List UInt8} (h : Opened n bytes ud) (hn : n ≤ 4)
    (hlen : bytes.length + more.length = n) (hne : more ≠ []) (rest : List UInt8) :
    ∃ state ud', appendWhile width (more ++ rest) ud = .ok (state, ud', rest) ∧
      (completeWidth width (bytes ++ more) = none → state = .error) ∧
      ∀ w, completeWidth width (bytes ++ more) = some w → state = .done ∧ ud'.width = w := by
  induction more generalizing bytes ud with
  | nil => exact absurd rfl hne
  | cons ch more ih =>
      rw [List.length_cons] at hlen
      obtain ⟨ud', hopened, hmore, herror, hdone⟩ :=
        @utf8Append_ok width n bytes ud h (by omega) hn ch
      rcases List.eq_nil_or_concat more with rfl | ⟨front, last, hlast⟩
      · rw [List.length_nil] at hlen
        cases hwidth : completeWidth width (bytes ++ [ch]) with
        | none =>
            refine ⟨.error, ud', ?_, fun _ => rfl, fun w hw => (nomatch hw)⟩
            rw [List.cons_append, appendWhile, herror hlen hwidth]
            rfl
        | some w =>
            refine ⟨.done, { ud' with width := w }, ?_, fun hnone => (nomatch hnone),
              fun w' hw => ⟨rfl, Option.some.inj hw⟩⟩
            rw [List.cons_append, appendWhile, hdone w hlen hwidth]
            rfl
      · have hmore' : more ≠ [] := by simp [hlast]
        have hpos := List.length_pos_iff.mpr hmore'
        obtain ⟨state, ud'', hwhile, hstate⟩ := ih hopened (by
          rw [List.length_append, List.length_singleton]
          omega) hmore'
        rw [List.append_assoc, List.singleton_append] at hstate
        refine ⟨state, ud'', ?_, hstate⟩
        rw [List.cons_append, appendWhile, hmore (by omega), ok_bind]
        exact hwhile

/-- The bytes of a character are taken from a text that has as many. -/
theorem appendWhile_text (hlead : leadSize ch = some size) (hlong : ¬ text.length < size.toNat - 1)
    (h : Opened size.toNat [ch] ud) (rest : List UInt8) :
    ∃ state ud', appendWhile width (text ++ rest) ud =
      .ok (state, ud', text.drop (size.toNat - 1) ++ rest) ∧
      (completeWidth width (ch :: text.take (size.toNat - 1)) = none → state = .error) ∧
      ∀ w, completeWidth width (ch :: text.take (size.toNat - 1)) = some w → state = .done ∧
      ud'.width = w := by
  obtain ⟨hge, hle⟩ := leadSize_le hlead
  have hlen : (text.take (size.toNat - 1)).length = size.toNat - 1 :=
    List.length_take_of_le (by omega)
  have hne : text.take (size.toNat - 1) ≠ [] := by
    intro heq
    rw [heq, List.length_nil] at hlen
    omega
  have hok := @appendWhile_ok width ud size.toNat [ch] (text.take (size.toNat - 1)) h hle (by
    rw [hlen, List.length_singleton]
    omega) hne (text.drop (size.toNat - 1) ++ rest)
  rw [← List.append_assoc, List.take_append_drop, List.singleton_append] at hok
  exact hok

/-! ### Strings -/

/-- The counter has the columns of a text, but for how often it wraps. -/
theorem strlenLoop_returns (width : Width) (h0 : 0 ∉ text) (rest : List UInt8) (ud : Utf8Data)
    (size : UInt8) :
    Returns (fun fuel => strlenLoop width fuel (text ++ 0 :: rest) ud size)
      (size + UInt8.ofNat (textColumns width text)) := by
  induction text using textColumns.induct generalizing ud size with
  | case1 =>
      refine .of_succ ⟨0, fun fuel _ => ?_⟩
      simp [strlenLoop, textColumns, pure, Except.pure]
  | case2 ch text hlead ih =>
      rw [List.mem_cons, not_or] at h0
      obtain ⟨ud', hopen⟩ := @opensAbove_none width ch hlead ud
      have hstep := ih h0.2 ud' (if printable ch then size + 1 else size)
      have hsum : (if printable ch then size + 1 else size) + UInt8.ofNat (textColumns width text) =
          size + UInt8.ofNat (textColumns width (ch :: text)) := by
        rw [textColumns_none hlead, UInt8.ofNat_add, ← UInt8.add_assoc]
        split_ifs
        · rfl
        · change _ = size + 0 + _
          rw [UInt8.add_zero]
      rw [hsum] at hstep
      refine .of_succ ?_
      simp only [List.cons_append, strlenLoop, if_neg (Ne.symm h0.1), hopen, ok_bind, reduceCtorEq,
        if_false]
      exact hstep
  | case3 ch text n hlead hshort =>
      rw [List.mem_cons, not_or] at h0
      obtain ⟨ud', hopen, hopened⟩ := @opensAbove_some width ch n hlead ud
      refine .of_succ ⟨0, fun fuel _ => ?_⟩
      simp only [List.cons_append, strlenLoop, if_neg (Ne.symm h0.1), hopen, ok_bind, if_true,
        cStrlen_text h0.2, hopened.size, if_pos hshort, textColumns_short hlead hshort]
      exact congrArg Except.ok (UInt8.add_zero size).symm
  | case4 ch text n hlead hlong ih =>
      rw [List.mem_cons, not_or] at h0
      obtain ⟨ud', hopen, hopened⟩ := @opensAbove_some width ch n hlead ud
      obtain ⟨state, ud'', hwhile, hnone, hsome⟩ :=
        @appendWhile_text width ch n text ud' hlead hlong hopened (0 :: rest)
      have hstep :=
        ih (fun h => h0.2 (List.mem_of_mem_drop h)) ud'' (if state = .done then size + ud''.width
          else size)
      have hsum : (if state = .done then size + ud''.width else size) +
          UInt8.ofNat (textColumns width (text.drop (n.toNat - 1))) =
          size + UInt8.ofNat (textColumns width (ch :: text)) := by
        rw [textColumns_some hlead hlong, UInt8.ofNat_add, ← UInt8.add_assoc]
        cases hwidth : completeWidth width (ch :: text.take (n.toNat - 1)) with
        | none =>
            rw [hnone hwidth]
            simp
        | some w =>
            obtain ⟨hdone, hw⟩ := hsome w hwidth
            rw [hdone, hw]
            simp
      rw [hsum] at hstep
      refine .of_succ ?_
      simp only [List.cons_append, strlenLoop, if_neg (Ne.symm h0.1), hopen, ok_bind, if_true,
        cStrlen_text h0.2, hopened.size, if_neg hlong, hwhile]
      exact hstep

def columns (puts : List Put) : Nat := (puts.map Put.columns).sum

theorem puts_returns {f : Nat → Exec (List Put)} {before after : List Put} {n : Nat}
    (h : Returns f after)
    (hafter : columns after = n) :
    Returns (fun fuel => puts before (f fuel)) (before ++ after) ∧
      columns (before ++ after) = columns before + n := by
  constructor
  · obtain ⟨fuels, hfuels⟩ := h
    refine ⟨fuels, fun fuel hfuel => ?_⟩
    dsimp only
    rw [puts, hfuels fuel hfuel]
    rfl
  · rw [columns, List.map_append, List.sum_append, ← hafter]
    rfl

/-- A string without a limit asks for the columns of its characters. -/
theorem vnputsLoop_returns (width : Width) (h0 : 0 ∉ text) (rest : List UInt8) (gc : GridCell)
    (size : Nat) :
    ∃ out, Returns (fun fuel => vnputsLoop width (-1) fuel (text ++ 0 :: rest) gc size) out ∧
      columns out = textColumns width text := by
  induction text using textColumns.induct generalizing gc size with
  | case1 =>
      refine ⟨[], .of_succ ⟨0, fun fuel _ => ?_⟩, ?_⟩
      · simp [vnputsLoop, pure, Except.pure]
      · simp [columns, textColumns]
  | case2 ch text hlead ih =>
      rw [List.mem_cons, not_or] at h0
      obtain ⟨ud', hopen⟩ := @opensAbove_none width ch hlead gc.data
      have hunlimited : ¬ ((0 : Int) < -1 ∧ (-1 : Int) < size + 1) := by omega
      suffices h : ∃ out, Returns
          (fun fuel => vnputsLoop width (-1) (fuel + 1) (ch :: text ++ 0 :: rest) gc size) out ∧
          columns out = textColumns width (ch :: text) by
        obtain ⟨out, hreturns, hcolumns⟩ := h
        exact ⟨out, .of_succ hreturns, hcolumns⟩
      simp only [List.cons_append, vnputsLoop, if_neg (Ne.symm h0.1), hopen, ok_bind, reduceCtorEq,
        if_false, if_neg hunlimited, textColumns_none hlead]
      have hcontrol : ¬ printable ch → ∀ gc, ∃ out,
          Returns (fun fuel => vnputsLoop width (-1) fuel (text ++ 0 :: rest) gc size) out ∧
            columns out = (if printable ch then 1 else 0) + textColumns width text := by
        intro hprint gc
        obtain ⟨out, hreturns, hcolumns⟩ := ih h0.2 gc size
        exact ⟨out, hreturns, by rw [if_neg hprint, hcolumns, Nat.zero_add]⟩
      by_cases hcharset : ch = 1
      · simp only [if_pos hcharset]
        exact hcontrol (by rw [hcharset]; decide) _
      by_cases hline : ch = '\n'.toUInt8
      · obtain ⟨out, hreturns, hcolumns⟩ := ih h0.2 { gc with data := ud' } size
        obtain ⟨hputs, hsum⟩ :=
          @puts_returns _ [.linefeed false 8, .carriagereturn] _ _ hreturns hcolumns
        have hprint : ¬ printable ch := by
          rw [hline]
          decide
        simp only [if_neg hcharset, if_pos hline, if_neg hprint]
        exact ⟨_, hputs, hsum⟩
      by_cases hprint : printable ch
      · obtain ⟨out, hreturns, hcolumns⟩ := ih h0.2 { gc with data := ud' } (size + 1)
        obtain ⟨hputs, hsum⟩ :=
          @puts_returns _ [.putc { gc with data := ud' } ch] _ _ hreturns hcolumns
        simp only [if_neg hcharset, if_neg hline, if_pos hprint]
        exact ⟨_, hputs, hsum⟩
      · have hskip := hcontrol hprint { gc with data := ud' }
        simp only [if_neg hcharset, if_neg hline, if_neg hprint] at hskip ⊢
        exact hskip
  | case3 ch text n hlead hshort =>
      rw [List.mem_cons, not_or] at h0
      obtain ⟨ud', hopen, hopened⟩ := @opensAbove_some width ch n hlead gc.data
      refine ⟨[], .of_succ ⟨0, fun fuel _ => ?_⟩, ?_⟩
      · simp only [List.cons_append, vnputsLoop, if_neg (Ne.symm h0.1), hopen, ok_bind, if_true,
          cStrlen_text h0.2, hopened.size, if_pos hshort]
        rfl
      · rw [textColumns_short hlead hshort]
        rfl
  | case4 ch text n hlead hlong ih =>
      rw [List.mem_cons, not_or] at h0
      obtain ⟨ud', hopen, hopened⟩ := @opensAbove_some width ch n hlead gc.data
      obtain ⟨state, ud'', hwhile, hnone, hsome⟩ :=
        @appendWhile_text width ch n text ud' hlead hlong hopened (0 :: rest)
      have htext : 0 ∉ text.drop (n.toNat - 1) := fun h => h0.2 (List.mem_of_mem_drop h)
      have hunlimited : ¬ ((0 : Int) < -1 ∧ (-1 : Int) < size + ud''.width.toNat) := by omega
      suffices h : ∃ out, Returns
          (fun fuel => vnputsLoop width (-1) (fuel + 1) (ch :: text ++ 0 :: rest) gc size) out ∧
          columns out = textColumns width (ch :: text) by
        obtain ⟨out, hreturns, hcolumns⟩ := h
        exact ⟨out, .of_succ hreturns, hcolumns⟩
      simp only [List.cons_append, vnputsLoop, if_neg (Ne.symm h0.1), hopen, ok_bind, if_true,
        cStrlen_text h0.2, hopened.size, if_neg hlong, hwhile, if_neg hunlimited,
        textColumns_some hlead hlong]
      cases hwidth : completeWidth width (ch :: text.take (n.toNat - 1)) with
      | none =>
          obtain ⟨out, hreturns, hcolumns⟩ := ih htext { gc with data := ud'' } size
          refine ⟨out, ?_, by rw [hcolumns]; exact (Nat.zero_add _).symm⟩
          simp only [hnone hwidth, ne_eq, reduceCtorEq, not_false_eq_true, if_true]
          exact hreturns
      | some w =>
          obtain ⟨hdone, hw⟩ := hsome w hwidth
          obtain ⟨out, hreturns, hcolumns⟩ :=
            ih htext { gc with data := ud'' } (size + ud''.width.toNat)
          obtain ⟨hputs, hsum⟩ :=
            @puts_returns _ [.cell { gc with data := ud'' }] _ _ hreturns hcolumns
          have hcell : columns ([.cell { gc with data := ud'' }] ++ out) =
              (some w).elim 0 UInt8.toNat +
              textColumns width (text.drop (n.toNat - 1)) := by
            rw [hsum, Option.elim_some, ← hw]
            rfl
          simp only [hdone, ne_eq, not_true_eq_false, if_false]
          exact ⟨_, hputs, hcell⟩

/-- The columns that a string is said to need are those that it is written to. -/
def Measured (width : Width) (gc : GridCell) (msg : List UInt8) : Prop :=
  ∃ n out, Returns (strlen width msg) n ∧ Returns (vnputs width (-1) gc msg) out ∧ n = columns out

theorem untilNul_split (msg : List UInt8) :
    0 ∉ untilNul msg ∧ ∃ rest, msg ++ [0] = untilNul msg ++ 0 :: rest := by
  by_cases hzero : 0 ∈ msg
  · obtain ⟨text, rest, rfl, h0⟩ := List.eq_append_cons_of_mem hzero
    rw [untilNul_text h0]
    exact ⟨h0, rest ++ [0], by simp⟩
  · have hall : untilNul msg = msg :=
      List.takeWhile_eq_self_iff.mpr fun ch hch => decide_eq_true fun heq => hzero (heq ▸ hch)
    rw [hall]
    exact ⟨hzero, [], rfl⟩

theorem strlen_returns (width : Width) (msg : List UInt8) :
    Returns (strlen width msg) (textColumns width (untilNul msg) % 256) := by
  obtain ⟨h0, rest, hmsg⟩ := untilNul_split msg
  obtain ⟨fuels, hfuels⟩ := strlenLoop_returns width h0 rest .zeroed 0
  refine ⟨fuels, fun fuel hfuel => ?_⟩
  have hloop := hfuels fuel hfuel
  dsimp only at hloop
  rw [UInt8.zero_add] at hloop
  rw [strlen, hmsg, hloop, ok_bind, UInt8.toNat_ofNat']
  rfl

theorem vnputs_returns (width : Width) (gc : GridCell) (msg : List UInt8) :
    ∃ out, Returns (vnputs width (-1) gc msg) out ∧ columns out =
      textColumns width (untilNul msg) := by
  obtain ⟨h0, rest, hmsg⟩ := untilNul_split msg
  obtain ⟨out, hout, hcolumns⟩ := vnputsLoop_returns width h0 rest gc 0
  rw [← hmsg] at hout
  exact ⟨out, hout, hcolumns⟩

theorem textColumns_lt_of_measured {gc : GridCell} {msg : List UInt8} (h : Measured width gc msg) :
    textColumns width (untilNul msg) < 256 := by
  obtain ⟨n, out, hn, hout, hsame⟩ := h
  obtain ⟨out', hout', hcolumns⟩ := vnputs_returns width gc msg
  rw [hn.unique (strlen_returns width msg), hout.unique hout', hcolumns] at hsame
  rw [← hsame]
  exact Nat.mod_lt _ (by decide)

/-- A string is measured when its columns are fewer than the counter can hold. -/
theorem measured_iff (width : Width) (gc : GridCell) (msg : List UInt8) :
    Measured width gc msg ↔ textColumns width (untilNul msg) < 256 := by
  constructor
  · exact textColumns_lt_of_measured
  · intro hlt
    obtain ⟨out, hout, hcolumns⟩ := vnputs_returns width gc msg
    exact ⟨_, out, strlen_returns width msg, hout, by rw [hcolumns, Nat.mod_eq_of_lt hlt]⟩

theorem textColumns_letters (width : Width) (n : Nat) :
    textColumns width (List.replicate n 'a'.toUInt8) = n := by
  induction n with
  | zero => rw [List.replicate_zero, textColumns]
  | succ n ih =>
      rw [List.replicate_succ, textColumns_none (by decide), ih, if_pos (by decide), Nat.add_comm]

/-- A string of 256 letters is said to need no column. -/
theorem not_measured_letters :
    Returns (strlen (fun _ => none) (List.replicate 256 'a'.toUInt8)) 0 ∧
    ¬ Measured (fun _ => none) GRID_DEFAULT_CELL (List.replicate 256 'a'.toUInt8) := by
  have hletters : untilNul (List.replicate 256 'a'.toUInt8) = List.replicate 256 'a'.toUInt8 := by
    refine List.takeWhile_eq_self_iff.mpr fun ch hch => ?_
    rw [List.eq_of_mem_replicate hch]
    decide
  constructor
  · have hlen := strlen_returns (fun _ => none) (List.replicate 256 'a'.toUInt8)
    rw [hletters, textColumns_letters] at hlen
    exact hlen
  · intro h
    have hlt := textColumns_lt_of_measured h
    rw [hletters, textColumns_letters] at hlt
    exact absurd hlt (by decide)

end Ztmux.ScreenWrite
