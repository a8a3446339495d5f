import Ztmux.Utf8.Handles

/-!
What a word is read as while the table grows.

A word that is in use has its bytes in itself or in the table. The table only ever gains bytes, so
such a word is read as the same character for good. A character may have bytes behind the
ones in use, and these are of no account.
-/

namespace Ztmux.Utf8

open Ztmux

/-- No more bytes and no more columns than a character can have. -/
structure Utf8Data.Bounded (ud : Utf8Data) : Prop where
  size : ud.size.toNat ≤ utf8Size
  width : ud.width.toNat ≤ 2

/-- The bytes in use are the same, and so are size and width. -/
structure Utf8Data.Shows (ud ud' : Utf8Data) : Prop where
  size : ud.size = ud'.size
  width : ud.width = ud'.width
  bytes : ud.initializedSlice = ud'.initializedSlice

theorem Utf8Data.Shows.bounded {ud ud' : Utf8Data} (h : ud.Shows ud') (hud' : ud'.Bounded) :
    ud.Bounded :=
  ⟨h.size ▸ hud'.size, h.width ▸ hud'.width⟩

theorem Utf8Data.Shows.refl (ud : Utf8Data) : ud.Shows ud := ⟨rfl, rfl, rfl⟩

theorem Utf8Data.Shows.trans {ud ud' ud'' : Utf8Data} (h : ud.Shows ud') (h' : ud'.Shows ud'') :
    ud.Shows ud'' :=
  ⟨h.size.trans h'.size, h.width.trans h'.width, h.bytes.trans h'.bytes⟩

/-- Bytes in use that agree. -/
theorem Utf8Data.shows_of_data {ud ud' : Utf8Data} (hsize : ud.size = ud'.size)
    (hwidth : ud.width = ud'.width)
    (hdata : ∀ i : Fin utf8Size, i.val < ud.size.toNat → ud.data i = ud'.data i) :
    ud.Shows ud' := by
  refine ⟨hsize, hwidth, ?_⟩
  apply List.ext_getElem?
  intro i
  rw [Utf8Data.initializedSlice, Utf8Data.initializedSlice, ← hsize]
  rcases Nat.lt_or_ge i ud.size.toNat with hi | hi
  · rw [List.getElem?_take_of_lt hi, List.getElem?_take_of_lt hi, List.getElem?_ofFn,
      List.getElem?_ofFn]
    split_ifs with h
    · rw [hdata ⟨i, h⟩ hi]
    · rfl
  · rw [List.getElem?_take_eq_none hi, List.getElem?_take_eq_none hi]

/-! ### Words in use -/

/-- What has been given an index keeps it. -/
def Utf8Table.Grows (table table' : Utf8Table) : Prop :=
  ∀ index bytes, table.indexTree index = some bytes → table'.indexTree index = some bytes

theorem Utf8Table.Grows.refl (table : Utf8Table) : table.Grows table := fun _ _ h => h

theorem Utf8Table.Grows.trans {table table' table'' : Utf8Table} (h : table.Grows table')
    (h' : table'.Grows table'') : table.Grows table'' :=
  fun index bytes hi => h' index bytes (h index bytes hi)

theorem Utf8Table.Linked.grows_add {table : Utf8Table} (h : table.Linked) (bytes : List UInt8) :
    table.Grows (table.add bytes) := by
  intro index bytes' hindex
  have hused := (h.used index).mp (by rw [hindex]; rfl)
  have hne : index ≠ table.nextIndex := fun heq => UInt32.lt_irrefl _ (heq ▸ hused)
  exact (Function.update_of_ne hne _ _).trans hindex

/-- The bytes of the word are in it or in the table. -/
def Known (table : Utf8Table) (uc : Utf8Char) : Prop :=
  utf8GetSize uc ≤ 3 ∨
    (utf8GetSize uc).toNat ≤ utf8Size ∧ ∃ bytes, table.indexTree (uc &&& 0xffffff) = some bytes ∧
      bytes.length = (utf8GetSize uc).toNat

theorem Known.grows {table table' : Utf8Table} {uc : Utf8Char} (h : Known table uc)
    (hgrows : table.Grows table') : Known table' uc := by
  rcases h with hshort | ⟨hsize, bytes, hindex, hlen⟩
  · exact .inl hshort
  · exact .inr ⟨hsize, bytes, hgrows _ _ hindex, hlen⟩

/-- What a word has in itself. -/
def shortData (uc : Utf8Char) : Utf8Data where
  data i :=
    if i = 2 then (uc >>> 16).toUInt8
    else if i = 1 then ((uc >>> 8) &&& 0xff).toUInt8
    else if i = 0 then (uc &&& 0xff).toUInt8
    else 0
  have_ := utf8GetSize uc
  size := utf8GetSize uc
  width := utf8GetWidth uc

theorem utf8ToData_eq_shortData (table : Utf8Table) {uc : Utf8Char} (h : utf8GetSize uc ≤ 3) :
    Utf8.utf8ToData table uc = .ok (shortData uc) := if_pos h

theorem Known.utf8ToData {table : Utf8Table} {uc : Utf8Char} (h : Known table uc) :
    ∃ ud, Utf8.utf8ToData table uc = .ok ud ∧ ud.size = utf8GetSize uc ∧
      ud.width = utf8GetWidth uc ∧
      ∀ table', table.Grows table' → Utf8.utf8ToData table' uc = .ok ud := by
  by_cases hshort : utf8GetSize uc ≤ 3
  · exact ⟨shortData uc, utf8ToData_eq_shortData table hshort, rfl, rfl,
      fun table' _ => utf8ToData_eq_shortData table' hshort⟩
  · rcases h with h | ⟨hsize, bytes, hindex, hlen⟩
    · exact absurd h hshort
    · have hread : ∀ table' : Utf8Table, table.Grows table' → Utf8.utf8ToData table' uc =
          .ok ⟨fun i => bytes.getD i 0, utf8GetSize uc, utf8GetSize uc, utf8GetWidth uc⟩ := by
        intro table' hgrows
        have hfound : utf8ItemByIndex table' (uc &&& 0xffffff) = some bytes :=
          hgrows _ _ hindex
        rw [Utf8.utf8ToData]
        simp only [if_neg hshort, if_neg (Nat.not_lt.mpr hsize), hfound, if_pos hlen]
        rfl
      exact ⟨_, hread table (.refl table), rfl, rfl, hread⟩

/-! ### Words that are handed out -/

/-- A character with its bytes in the table, or short enough to need none. -/
def Utf8Table.HasRoom (table : Utf8Table) (ud : Utf8Data) : Prop :=
  ud.size ≤ 3 ∨ table.dataTree ud.initializedSlice ≠ none ∨ table.nextIndex.toNat ≠ 2 ^ 24

/-- The character without the bytes behind the ones in use. -/
def Utf8Data.trimmed (ud : Utf8Data) : Utf8Data :=
  { ud with data := fun i => if i.val < ud.size.toNat then ud.data i else 0 }

theorem Utf8Data.trimmed_shows (ud : Utf8Data) : ud.trimmed.Shows ud :=
  shows_of_data rfl rfl fun _ hi => if_pos hi

theorem Utf8Data.Bounded.trimmed {ud : Utf8Data} (h : ud.Bounded) : ud.trimmed.Valid :=
  ⟨h.size, h.width, fun _ hi => if_neg (Nat.not_lt.mpr hi)⟩

/-- A long character is told by the bytes in use. -/
theorem utf8FromData_trimmed (table : Utf8Table) {ud : Utf8Data} (hlong : ¬ ud.size ≤ 3) :
    utf8FromData table ud.trimmed = utf8FromData table ud := by
  have hbytes := ud.trimmed_shows.bytes
  simp only [utf8FromData, hbytes]
  change (if 2 < ud.width then _ else if utf8Size < ud.size.toNat then _ else
    if ud.size ≤ 3 then _ else _) = _
  rw [if_neg hlong, if_neg hlong]
  rfl

/-- The word for a character that has its bytes in it, or in the table. -/
def wordOf (ud : Utf8Data) (index : UInt32) : Utf8Char :=
  utf8SetSize ud.size ||| utf8SetWidth ud.width ||| index

theorem shortData_shows {ud : Utf8Data} (hwidth : ud.width.toNat ≤ 2) (hshort : ud.size ≤ 3) :
    utf8GetSize (wordOf ud (shortIndex ud.data)) ≤ 3 ∧
      (shortData (wordOf ud (shortIndex ud.data))).Shows ud := by
  have hnat : ud.size.toNat ≤ 3 := hshort
  have hsize : ud.size.toNat < 32 := by omega
  -- three bytes are all that the word has
  let three : Utf8Data := ⟨fun i => if i.val < 3 then ud.data i else 0, 3, 3, ud.width⟩
  have hthree : three.Valid :=
    ⟨(by decide : (3 : UInt8).toNat ≤ 21), hwidth, fun i hi => if_neg (Nat.not_lt.mpr hi)⟩
  have hindex : shortIndex three.data = shortIndex ud.data := rfl
  have hbound : (shortIndex ud.data).toNat < 2 ^ 24 := by
    rw [toNat_shortIndex]
    have h2 := (ud.data 2).toNat_lt
    have h1 := (ud.data 1).toNat_lt
    have h0 := (ud.data 0).toNat_lt
    omega
  have hword := toNat_word hsize hwidth hbound
  have hget := utf8GetSize_word hsize hwidth hbound
  refine ⟨by rw [wordOf, hget]; exact hshort, ?_⟩
  refine Utf8Data.shows_of_data hget (utf8GetWidth_word hsize hwidth hbound) fun i hi => ?_
  have hi : i.val < 3 := by
    change i.val < (utf8GetSize _).toNat at hi
    rw [wordOf, hget] at hi
    omega
  have hdata := bytes_shortIndex hthree (by decide : (3 : UInt8) ≤ 3)
    (by rw [wordOf, hword, hindex]; omega : (wordOf ud (shortIndex ud.data)).toNat % 2 ^ 24 = _) i
  exact hdata.trans (if_pos hi)

/-- The word for a long character that is in the table. -/
theorem Stands.known {table : Utf8Table} (h : table.Linked) {ud : Utf8Data} (hud : ud.Valid)
    (hlong : ¬ ud.size ≤ 3) {uc : Utf8Char} (hstands : Stands table ud uc) : Known table uc := by
  obtain ⟨index, hindex, rfl⟩ := hstands
  have hsize : ud.size.toNat < 32 := lt_of_le_of_lt hud.size (by decide)
  have hbound := h.index_bound hindex
  rw [Utf8Table.index, if_neg hlong] at hindex
  rw [Known, utf8GetSize_word hsize hud.width hbound, index_word hsize hud.width hbound]
  exact .inr ⟨hud.size, _, (h.inverse _ _).mp hindex, hud.length_initializedSlice⟩

/-- What stands for a character that there was no room for is no wider. -/
theorem utf8GetWidth_errorChar_le (width : UInt8) : utf8GetWidth (errorChar width) ≤ width := by
  rw [errorChar]
  split_ifs with hzero hone
  · rw [hzero]
    decide
  · rw [hone]
    decide
  · have hget : utf8GetWidth (utf8SetSize 1 ||| utf8SetWidth 1 ||| 0x2020) = 1 := by decide
    rw [hget, UInt8.le_iff_toNat_le]
    have hne : width.toNat ≠ 0 := fun h => hzero (UInt8.toNat_inj.mp h)
    exact Nat.one_le_iff_ne_zero.mpr hne

/-- What is handed out is read as the character that it was handed out for, if there was room. -/
theorem utf8FromData_reads {table : Utf8Table} (h : table.Linked) {ud : Utf8Data}
    (hud : ud.Bounded) :
    ∃ table' state uc ud', utf8FromData table ud = .ok (table', state, uc) ∧ table'.Linked ∧
      table.Grows table' ∧ Known table' uc ∧ Utf8.utf8ToData table' uc = .ok ud' ∧
      ud'.Bounded ∧ (ud'.Shows ud ↔ table.HasRoom ud) ∧ ud'.width ≤ ud.width := by
  by_cases hshort : ud.size ≤ 3
  · have hwidth : ¬ 2 < ud.width := fun hlt => absurd hud.width (Nat.not_le.mpr hlt)
    have hsize : ¬ utf8Size < ud.size.toNat := Nat.not_lt.mpr hud.size
    obtain ⟨hget, hshows⟩ := shortData_shows hud.width hshort
    refine ⟨table, .done, _, _, ?_, h, .refl table, .inl hget,
      utf8ToData_eq_shortData table hget, hshows.bounded hud, iff_of_true hshows (.inl hshort),
      hshows.width ▸ UInt8.le_refl _⟩
    rw [utf8FromData, if_neg hwidth, if_neg hsize, if_pos hshort]
    rfl
  · have hlong : ¬ ud.trimmed.size ≤ 3 := hshort
    have hbytes := ud.trimmed_shows.bytes
    rw [← utf8FromData_trimmed table hshort]
    have hread : ∀ {table' : Utf8Table} {uc : Utf8Char}, table'.Linked →
        Stands table' ud.trimmed uc →
        Utf8.utf8ToData table' uc = .ok { ud.trimmed with have_ := ud.trimmed.size } :=
      fun hlinked hstands => hstands.utf8ToData hlinked hud.trimmed
    have hshows : Utf8Data.Shows { ud.trimmed with have_ := ud.trimmed.size } ud :=
      ⟨rfl, rfl, hbytes⟩
    rcases utf8FromData_cases table hud.trimmed with ⟨uc, hstands, hok⟩ |
      ⟨-, hdata, hfull, hok⟩ | ⟨-, hdata, hroom, hok⟩
    · refine ⟨table, .done, uc, _, hok, h, .refl table, hstands.known h hud.trimmed hlong,
        hread h hstands, hshows.bounded hud, iff_of_true hshows (.inr (.inl ?_)), UInt8.le_refl _⟩
      obtain ⟨index, hindex, -⟩ := hstands
      rw [Utf8Table.index, if_neg hlong, hbytes] at hindex
      rw [hindex]
      exact Option.some_ne_none index
    · have hget : utf8GetSize (errorChar ud.trimmed.width) ≤ 1 ∧
          (utf8GetWidth (errorChar ud.trimmed.width)).toNat ≤ 2 := by
        rw [errorChar]
        split_ifs <;> decide
      have hle : utf8GetSize (errorChar ud.trimmed.width) ≤ 3 :=
        UInt8.le_trans hget.1 (by decide)
      refine ⟨table, .error, _, _, hok, h, .refl table, .inl hle,
        utf8ToData_eq_shortData table hle,
        ⟨Nat.le_trans (UInt8.le_iff_toNat_le.mp hget.1) (by decide), hget.2⟩,
        iff_of_false ?_ ?_, utf8GetWidth_errorChar_le _⟩
      · intro heq
        exact hshort (heq.size ▸ hle)
      · rintro (hroom | hroom | hroom)
        · exact hshort hroom
        · exact hroom (hbytes ▸ hdata)
        · exact hroom hfull
    · have hlinked := h.add hdata hroom
      have hstands : Stands (table.add ud.trimmed.initializedSlice) ud.trimmed
          (utf8SetSize ud.trimmed.size ||| utf8SetWidth ud.trimmed.width |||
            table.nextIndex) := by
        refine ⟨table.nextIndex, ?_, rfl⟩
        rw [Utf8Table.index, if_neg hlong]
        exact Function.update_self _ _ _
      exact ⟨_, .done, _, _, hok, hlinked, h.grows_add _, hstands.known hlinked hud.trimmed hlong,
        hread hlinked hstands, hshows.bounded hud, iff_of_true hshows (.inr (.inr hroom)),
        UInt8.le_refl _⟩

end Ztmux.Utf8
