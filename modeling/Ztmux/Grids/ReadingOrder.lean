import Ztmux.Grids.Jump
import Ztmux.Grids.Words
import Ztmux.Library.Runs
import Ztmux.Utf8.Vis

/-!
The order of reading.

A line that is wrapped goes on in the next one, and another one ends with a blank. The places of a
grid are numbered in this order, and each of them is blank or has a letter or a separator.
-/

namespace Ztmux.Grids

open Utf8 ScreenWrite Runs

instance (gd : Grid) (y : Nat) : Decidable (Wraps gd y) :=
  decidable_of_iff ((gd.linedata[y]?).any (·.flags.wrapped) = true) (Option.any_eq_true _ _)

/-! ### Places -/

section

variable (table : Utf8Table) (gd : Grid)

/-- The column that a line ends with: the last one, or that of the blank behind its last character.
-/
def endColumn (y : Nat) : Nat := (lineLimit table gd y).toOption.getD 0

def placesAbove (y : Nat) : List (Nat × Nat) :=
  (List.range y).flatMap fun y => (List.range (endColumn table gd y + 1)).map fun x => (x, y)

/-- The number of the first place of a line. -/
def lineStart (y : Nat) : Nat := (placesAbove table gd y).length

/-- The number of places. -/
def placeCount : Nat := lineStart table gd (gd.hsize + gd.sy)

def placeAt (p : Nat) : Option (Nat × Nat) := (placesAbove table gd (gd.hsize + gd.sy))[p]?

/-- What there is in a cell: nothing for a blank, and otherwise whether it is a letter. The
separators are the characters of their string. -/
def cellKind (separators : List Utf8.Item) (gc : GridCell) : Option Bool :=
  if gc.flags.tab ∨ gc.data.initializedSlice = [0x09] ∨ gc.data.initializedSlice = [0x20] then none
  else some (decide (gc.data.initializedSlice ∉ separators.map Utf8.Item.bytes))

def readKind (separators : List Utf8.Item) (x y : Nat) : Option Bool :=
  (gridGetCell table gd x y).toOption.bind (cellKind separators)

/-- What there is here: behind a line that is not wrapped, a blank. -/
def placeKind (separators : List Utf8.Item) (x y : Nat) : Option Bool :=
  if ¬ Wraps gd y ∧ endColumn table gd y ≤ x then none else readKind table gd separators x y

/-- What there is at the place with this number. -/
def kindAt (separators : List Utf8.Item) (p : Nat) : Option Bool :=
  (placeAt table gd p).bind fun q => placeKind table gd separators q.1 q.2

end

section

variable {table : Utf8Table} {gd : Grid} {x y p : Nat}

theorem lineStart_succ (table : Utf8Table) (gd : Grid) (y : Nat) :
    lineStart table gd (y + 1) = lineStart table gd y + (endColumn table gd y + 1) := by
  rw [lineStart, placesAbove, List.range_succ, List.flatMap_append, List.length_append,
    List.flatMap_singleton, List.length_map, List.length_range]
  rfl

theorem lineStart_mono (table : Utf8Table) (gd : Grid) {y y' : Nat} (h : y ≤ y') :
    lineStart table gd y ≤ lineStart table gd y' := by
  induction y', h using Nat.le_induction with
  | base => exact Nat.le_refl _
  | succ y' _ ih => exact ih.trans (by rw [lineStart_succ]; exact Nat.le_add_right _ _)

theorem placesAbove_get (table : Utf8Table) (gd : Grid) {n : Nat} (hy : y < n)
    (hx : x ≤ endColumn table gd y) :
    (placesAbove table gd n)[lineStart table gd y + x]? = some (x, y) := by
  induction n with
  | zero => exact absurd hy (Nat.not_lt_zero y)
  | succ n ih =>
      have hsucc : placesAbove table gd (n + 1) =
          placesAbove table gd n ++ (List.range (endColumn table gd n + 1)).map fun x =>
            (x, n) := by
        rw [placesAbove, List.range_succ, List.flatMap_append, List.flatMap_singleton]
        rfl
      rw [hsucc]
      rcases Nat.eq_or_lt_of_le (Nat.le_of_lt_succ hy) with rfl | hlt
      · rw [lineStart, List.getElem?_append_right (Nat.le_add_right _ _), Nat.add_sub_cancel_left,
          List.getElem?_map, List.getElem?_range (Nat.lt_succ_of_le hx)]
        rfl
      · have hin := ih hlt
        rwa [List.getElem?_append_left (List.getElem?_eq_some_iff.mp hin).1]

theorem placesAbove_place (table : Utf8Table) (gd : Grid) {n : Nat}
    (hp : p < lineStart table gd n) :
    ∃ x y, y < n ∧ x ≤ endColumn table gd y ∧ p = lineStart table gd y + x := by
  induction n with
  | zero => exact absurd hp (Nat.not_lt_zero p)
  | succ n ih =>
      by_cases hlt : p < lineStart table gd n
      · obtain ⟨x, y, hy, hx, heq⟩ := ih hlt
        exact ⟨x, y, Nat.lt_succ_of_lt hy, hx, heq⟩
      · rw [lineStart_succ] at hp
        exact ⟨p - lineStart table gd n, n, Nat.lt_succ_self n, by omega, by omega⟩

theorem placeAt_of_line (hy : y < gd.hsize + gd.sy) (hx : x ≤ endColumn table gd y) :
    placeAt table gd (lineStart table gd y + x) = some (x, y) := placesAbove_get table gd hy hx

theorem placeAt_eq_some (h : placeAt table gd p = some (x, y)) :
    y < gd.hsize + gd.sy ∧ x ≤ endColumn table gd y ∧ p = lineStart table gd y + x := by
  obtain ⟨hlt, -⟩ := List.getElem?_eq_some_iff.mp h
  obtain ⟨x', y', hy, hx, rfl⟩ := placesAbove_place table gd hlt
  obtain ⟨rfl, rfl⟩ := Prod.mk.inj (Option.some.inj ((placeAt_of_line hy hx).symm.trans h))
  exact ⟨hy, hx, rfl⟩

theorem placeAt_of_lt (h : p < placeCount table gd) : ∃ x y, placeAt table gd p = some (x, y) := by
  obtain ⟨x, y, hy, hx, rfl⟩ := placesAbove_place table gd h
  exact ⟨x, y, placeAt_of_line hy hx⟩

theorem lineStart_add_lt (hy : y < gd.hsize + gd.sy) (hx : x ≤ endColumn table gd y) :
    lineStart table gd y + x < placeCount table gd :=
  (List.getElem?_eq_some_iff.mp (placeAt_of_line hy hx)).1

theorem kindAt_of_line {separators : List Utf8.Item} (hy : y < gd.hsize + gd.sy)
    (hx : x ≤ endColumn table gd y) :
    kindAt table gd separators (lineStart table gd y + x) = placeKind table gd separators x y := by
  rw [kindAt, placeAt_of_line hy hx]
  rfl

theorem kindAt_of_le {separators : List Utf8.Item} (hp : placeCount table gd ≤ p) :
    kindAt table gd separators p = none := by
  rw [kindAt, placeAt, List.getElem?_eq_none hp]
  rfl

end

/-! ### Lines -/

section

variable {table : Utf8Table} {gd : Grid} {x y : Nat}

theorem lineLimit_ok (h : GridWellFormed table gd) (hy : y < gd.hsize + gd.sy) :
    lineLimit table gd y = .ok (endColumn table gd y) ∧
    (Wraps gd y → endColumn table gd y = gd.sx - 1) ∧
      (¬ Wraps gd y → gridLineLength table gd y = .ok (endColumn table gd y)) := by
  obtain ⟨gl, hgl, hwraps⟩ := gridGetLine_ok h hy
  obtain ⟨n, hn, -⟩ := gridLineLength_ok h hy
  by_cases hwrapped : gl.flags.wrapped = true
  · have hlimit : lineLimit table gd y = .ok (gd.sx - 1) := by
      rw [lineLimit, hgl, ok_bind, if_pos hwrapped]
      rfl
    have hend : endColumn table gd y = gd.sx - 1 := by
      rw [endColumn, hlimit]
      rfl
    exact ⟨hlimit.trans (congrArg _ hend.symm), fun _ => hend,
      fun hnot => absurd (hwraps.mp hwrapped) hnot⟩
  · have hlimit : lineLimit table gd y = .ok n := by
      rw [lineLimit, hgl, ok_bind, if_neg hwrapped, hn]
    have hend : endColumn table gd y = n := by
      rw [endColumn, hlimit]
      rfl
    exact ⟨hlimit.trans (congrArg _ hend.symm), fun hw => absurd (hwraps.mpr hw) hwrapped,
      fun _ => by rw [hn, hend]⟩

theorem endColumn_le (h : GridWellFormed table gd) (hy : y < gd.hsize + gd.sy) :
    endColumn table gd y ≤ gd.sx := by
  obtain ⟨-, hwrapped, hlength⟩ := lineLimit_ok h hy
  by_cases hw : Wraps gd y
  · rw [hwrapped hw]
    exact Nat.sub_le _ _
  · obtain ⟨n, hn, hle, -⟩ := gridLineLength_ok h hy
    obtain rfl := Except.ok.inj (hn.symm.trans (hlength hw))
    exact hle

theorem initializedSlice_of_isBlank {gc : GridCell} (h : isBlank gc = true) :
    gc.data.initializedSlice = [0x20] := by
  simp only [isBlank, Bool.and_eq_true, beq_iff_eq] at h
  rw [Utf8Data.initializedSlice, h.1.2]
  change (List.ofFn gc.data.data).take 1 = [0x20]
  rw [← h.2]
  exact List.ofFn_succ ▸ rfl

/-- Behind the length of a line, within the width, blanks are read. -/
theorem readKind_behind (h : GridWellFormed table gd) (separators : List Utf8.Item)
    (hy : y < gd.hsize + gd.sy) {n : Nat}
    (hn : gridLineLength table gd y = .ok n) (hnx : n ≤ x) (hx : x < gd.sx) :
    readKind table gd separators x y = none := by
  obtain ⟨n', hn', -, hafter, -⟩ := gridLineLength_ok h hy
  obtain rfl := Except.ok.inj (hn'.symm.trans hn)
  obtain ⟨gc, hgc, hblank⟩ := hafter x hnx hx
  rw [readKind, hgc]
  exact if_pos (.inr (.inr (initializedSlice_of_isBlank hblank)))

/-- Within the width, what is read is what there is. -/
theorem placeKind_eq (h : GridWellFormed table gd) (separators : List Utf8.Item)
    (hy : y < gd.hsize + gd.sy) (hx : x < gd.sx) :
    placeKind table gd separators x y = readKind table gd separators x y := by
  rw [placeKind]
  split_ifs with hend
  · exact (readKind_behind h separators hy ((lineLimit_ok h hy).2.2 hend.1) hend.2 hx).symm
  · rfl

end

/-! ### What the sets tell -/

section

variable {width : Width} {s : List UInt8} {items : List Utf8.Item}

theorem completeChar_length {text bytes : List UInt8} {w : UInt8}
    (h : completeChar width text = some (bytes, w)) :
    bytes.length ≤ 4 := by
  rw [completeChar] at h
  cases hsize : text.head?.bind leadSize with
  | none => simp [hsize] at h
  | some size =>
      simp only [hsize] at h
      split_ifs at h
      obtain ⟨w', -, heq⟩ := Option.map_eq_some_iff.mp h
      obtain ⟨rfl, rfl⟩ := Prod.mk.inj heq
      obtain ⟨ch, -, hlead⟩ := Option.bind_eq_some_iff.mp hsize
      rw [List.length_take]
      exact (Nat.min_le_left _ _).trans (leadSize_le hlead).2

/-- A character of a set has as many bytes as its size says. -/
def Sized (ud : Utf8Data) : Prop := ud.size ≠ 0 ∧ ud.size.toNat ≤ 4

theorem sized_of_slice {ud : Utf8Data} {bytes : List UInt8} (h : ud.initializedSlice = bytes)
    (hpos : 0 < bytes.length)
    (hle : bytes.length ≤ 4) : Sized ud := by
  rw [← h, Utf8Data.initializedSlice, List.length_take, List.length_ofFn] at hpos hle
  refine ⟨fun heq => ?_, ?_⟩
  · rw [heq] at hpos
    exact absurd hpos (by decide)
  · change min ud.size.toNat 21 ≤ 4 at hle
    omega

theorem fromcstrLoop_ok {text : List UInt8} (hsplits : Splits width text items) {i : Nat}
    (hdrop : s.drop i = text) :
    ∃ dst, Returns (fun fuel => fromcstrLoop width s fuel i) dst ∧
      dst.map Utf8Data.initializedSlice = items.map Utf8.Item.bytes ∧ ∀ c ∈ dst, Sized c := by
  induction hsplits generalizing i with
  | nil =>
      refine ⟨[], .of_succ ⟨0, fun fuel _ => ?_⟩, rfl, fun c hc => absurd hc List.not_mem_nil⟩
      dsimp only
      rw [fromcstrLoop, List.getElem?_eq_none (List.drop_eq_nil_iff.mp hdrop)]
      rfl
  | @character bytes rest w items hcomplete _ ih =>
      have hfour := completeChar_length hcomplete
      obtain ⟨-, -, hlong, -⟩ := completeChar_bytes hcomplete
      rcases bytes with _ | ⟨ch, bytes⟩
      · simp at hlong
      obtain ⟨r, ⟨n, hn⟩, hsome, -⟩ := utf8Decode_ok width hdrop
      obtain ⟨hplace, hdone, -, hbytes⟩ := hsome _ w hcomplete
      have hget : s[i]? = some ch := by
        rw [← List.head?_drop, hdrop]
        rfl
      obtain ⟨dst, ⟨m, hm⟩, hmap, hsized⟩ :=
        @ih r.1 (by rw [hplace, ← List.drop_drop, hdrop, List.drop_left])
      refine ⟨r.2.2 :: dst, .of_succ ⟨max m n, fun fuel hfuel => ?_⟩, ?_,
        List.forall_mem_cons.mpr ⟨?_, hsized⟩⟩
      · dsimp only at hm hn ⊢
        rw [fromcstrLoop, hget]
        dsimp only
        rw [hn fuel (by omega), ok_bind, if_pos hdone, hm fuel (by omega), ok_bind]
        rfl
      · rw [List.map_cons, List.map_cons, hmap, hbytes, Utf8.Item.bytes]
      · exact sized_of_slice hbytes (Nat.succ_pos _) hfour
  | @byte ch rest items hcomplete _ ih =>
      obtain ⟨r, ⟨n, hn⟩, -, hnone⟩ := utf8Decode_ok width hdrop
      obtain ⟨hdone, hplace⟩ := hnone hcomplete
      have hget : s[i]? = some ch := by
        rw [← List.head?_drop, hdrop]
        rfl
      have hbyte : s.getD r.1 0 = ch := by
        rw [hplace, List.getD_eq_getElem?_getD, hget]
        rfl
      obtain ⟨dst, ⟨m, hm⟩, hmap, hsized⟩ :=
        @ih (r.1 + 1) (by rw [hplace, ← List.tail_drop, hdrop]; rfl)
      refine ⟨utf8Set ch :: dst, .of_succ ⟨max m n, fun fuel hfuel => ?_⟩, ?_,
        List.forall_mem_cons.mpr ⟨?_, hsized⟩⟩
      · dsimp only at hm hn ⊢
        rw [fromcstrLoop, hget]
        dsimp only
        rw [hn fuel (by omega), ok_bind, if_neg hdone, hbyte, hm fuel (by omega), ok_bind]
        rfl
      · rw [List.map_cons, List.map_cons, hmap]
        rfl
      · exact ⟨(by decide : (1 : UInt8) ≠ 0), (by decide : (1 : UInt8).toNat ≤ 4)⟩

/-- A character is in a set when its bytes are one of its parts. -/
theorem utf8Cstrhas_ok (hsplits : Splits width s items) :
    ∃ n, ∀ fuel, n ≤ fuel → ∀ ud, utf8Cstrhas width s fuel ud =
      .ok (decide (ud.initializedSlice ∈ items.map Utf8.Item.bytes)) := by
  obtain ⟨dst, ⟨n, hn⟩, hmap, hsized⟩ := @fromcstrLoop_ok width s items s hsplits 0 rfl
  refine ⟨n, fun fuel hfuel ud => ?_⟩
  have hall : (dst.takeWhile fun c => decide (c.size ≠ 0)) = dst :=
    List.takeWhile_eq_self_iff.mpr fun c hc => decide_eq_true (hsized c hc).1
  rw [utf8Cstrhas, utf8Fromcstr, (show fromcstrLoop width s fuel 0 = .ok dst from hn fuel hfuel),
    ok_bind, hall, ← hmap]
  refine congrArg Except.ok (Bool.eq_iff_iff.mpr ?_)
  simp only [List.any_eq_true, Bool.and_eq_true, beq_iff_eq, decide_eq_true_eq, List.mem_map]
  refine ⟨fun ⟨c, hc, _, heq⟩ => ⟨c, hc, heq⟩, fun ⟨c, hc, heq⟩ => ⟨c, hc, ?_, heq⟩⟩
  -- The sizes agree because the bytes do.
  have hlen := congrArg List.length heq
  rw [Utf8Data.initializedSlice, Utf8Data.initializedSlice, List.length_take, List.length_take,
    List.length_ofFn, List.length_ofFn] at hlen
  have hfour := (hsized c hc).2
  change min c.size.toNat 21 = min ud.size.toNat 21 at hlen
  exact UInt8.toNat.inj (by omega)

end

section

variable {table : Utf8Table} {gd : Grid} {width : Width}

/-- Every cell has one column, and none is padding. -/
def SingleWidth (table : Utf8Table) (gd : Grid) : Prop :=
  ∀ x y gc, gridGetCell table gd x y = .ok gc → gc.flags.padding = false ∧ gc.data.width = 1

/-- A cell is in a set when its character is, or when it is a tab and the set has one. -/
theorem gridReaderInSet_ok (h : GridWellFormed table gd) (hsingle : SingleWidth table gd)
    {set : List UInt8} {items : List Utf8.Item}
    (hsplits : Splits width set items) :
    ∃ n, ∀ fuel, n ≤ fuel → ∀ gr, ∃ gc, gridGetCell table gd gr.cx gr.cy = .ok gc ∧
      gridReaderInSet table gd width set fuel gr =
        .ok (decide ((0x09 ∈ set ∧ gc.flags.tab) ∨ gc.data.initializedSlice ∈
          items.map Utf8.Item.bytes)) := by
  obtain ⟨n, hn⟩ := utf8Cstrhas_ok hsplits
  refine ⟨n, fun fuel hfuel gr => ?_⟩
  obtain ⟨gc, hgc, -⟩ := h.read gr.cx gr.cy
  obtain ⟨hpadding, hwidth⟩ := hsingle gr.cx gr.cy gc hgc
  refine ⟨gc, hgc, ?_⟩
  rw [gridReaderInSet, gridInSet, hgc, ok_bind]
  by_cases htab : 0x09 ∈ set ∧ gc.flags.tab = true
  · rw [if_pos htab, hwidth]
    exact congrArg Except.ok (decide_eq_true (.inl htab)).symm
  · rw [if_neg htab, hpadding, if_neg fun hp => Bool.false_ne_true hp.2]
    change (utf8Cstrhas width set fuel gc.data >>= fun has => pure has.toNat) >>= _ = _
    rw [hn fuel hfuel gc.data, ok_bind]
    by_cases hin : gc.data.initializedSlice ∈ items.map Utf8.Item.bytes
    · rw [decide_eq_true hin, decide_eq_true (.inr hin)]
      rfl
    · rw [decide_eq_false hin, decide_eq_false fun hor => hor.elim htab hin]
      rfl

/-- What the two tests of the reader say of every place. -/
structure Tells (whitespace separators : GridReader → Exec Bool) (kind : Nat → Nat → Option Bool) :
    Prop where
  whitespace : ∀ gr, whitespace gr = .ok (kind gr.cx gr.cy).isNone
  separators : ∀ gr, ∃ b, separators gr = .ok b ∧ ∀ l, kind gr.cx gr.cy = some l → b = !l

theorem whitespace_splits (width : Width) : Splits width WHITESPACE [.byte 0x09, .byte 0x20] :=
  .byte rfl (.byte rfl .nil)

theorem gridReaderInSet_tells (h : GridWellFormed table gd) (hsingle : SingleWidth table gd)
    {separators : List UInt8}
    {items : List Utf8.Item} (hsplits : Splits width separators items) :
    ∃ n, ∀ fuel, n ≤ fuel → Tells (gridReaderInSet table gd width WHITESPACE fuel)
      (gridReaderInSet table gd width separators fuel) (readKind table gd items) := by
  obtain ⟨m, hm⟩ := gridReaderInSet_ok h hsingle (whitespace_splits width)
  obtain ⟨n, hn⟩ := gridReaderInSet_ok h hsingle hsplits
  refine ⟨max m n, fun fuel hfuel => ⟨fun gr => ?_, fun gr => ?_⟩⟩
  · obtain ⟨gc, hgc, hblank⟩ := hm fuel (by omega) gr
    rw [hblank, readKind, hgc]
    change Except.ok _ = Except.ok (cellKind items gc).isNone
    rw [cellKind]
    refine congrArg Except.ok ?_
    split_ifs with hcases
    · refine decide_eq_true ?_
      rcases hcases with htab | hbyte | hbyte
      · exact .inl ⟨by decide, htab⟩
      · exact .inr (by rw [hbyte]; decide)
      · exact .inr (by rw [hbyte]; decide)
    · refine decide_eq_false fun hor => hcases ?_
      rcases hor with ⟨-, htab⟩ | hin
      · exact .inl htab
      · simp only [List.map_cons, List.map_nil, Utf8.Item.bytes, List.mem_cons, List.not_mem_nil,
          or_false] at hin
        exact .inr hin
  · obtain ⟨gc, hgc, hset⟩ := hn fuel (by omega) gr
    refine ⟨_, hset, fun l hl => ?_⟩
    rw [readKind, hgc] at hl
    change cellKind items gc = some l at hl
    rw [cellKind] at hl
    split_ifs at hl with hcases
    obtain rfl := Option.some.inj hl
    rw [← decide_not, decide_eq_decide, not_not]
    exact or_iff_right fun htab => hcases (.inl htab.2)

end

end Ztmux.Grids
