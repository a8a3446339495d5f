import Ztmux.Utf8.Table

/-!
Every word that `utf8_from_data` hands out stands for one character for good.

The two trees of the table are inverse to each other and the indexes that have been given out
are the ones below the next one, so a word leads back to the character it was made from,
and with that different characters have different words.
-/

namespace Ztmux.Utf8

open Ztmux

/-- The characters `utf8_from_data` is given. -/
structure Utf8Data.Valid (ud : Utf8Data) : Prop where
  size : ud.size.toNat ≤ utf8Size
  width : ud.width.toNat ≤ 2
  data : ∀ i : Fin utf8Size, ud.size.toNat ≤ i → ud.data i = 0

/-- The same bytes, size and width. -/
def Utf8Data.Same (ud ud' : Utf8Data) : Prop :=
  ud.data = ud'.data ∧ ud.size = ud'.size ∧ ud.width = ud'.width

theorem Utf8Data.Valid.length_initializedSlice {ud : Utf8Data} (h : ud.Valid) :
    ud.initializedSlice.length = ud.size.toNat := by
  rw [Utf8Data.initializedSlice, List.length_take, List.length_ofFn, Nat.min_eq_left h.size]

/-- The bytes in use are all there is to know. -/
theorem Utf8Data.Valid.getD_initializedSlice {ud : Utf8Data} (h : ud.Valid) (i : Fin utf8Size) :
    ud.initializedSlice.getD i 0 = ud.data i := by
  rw [Utf8Data.initializedSlice, List.getD_eq_getElem?_getD]
  rcases Nat.lt_or_ge i ud.size.toNat with hi | hi
  · rw [List.getElem?_take_of_lt hi, List.getElem?_ofFn]
    simp
  · rw [List.getElem?_eq_none (by simp; omega), h.data i hi]
    rfl

/-! ### The table -/

/-- The trees are inverse to each other and the indexes in use are the ones given out. -/
structure Utf8Table.Linked (table : Utf8Table) : Prop where
  inverse : ∀ bytes index, table.dataTree bytes = some index ↔ table.indexTree index = some bytes
  used : ∀ index, (table.indexTree index).isSome ↔ index < table.nextIndex
  next : table.nextIndex.toNat ≤ 2 ^ 24

theorem Utf8Table.empty_linked : Utf8Table.empty.Linked :=
  ⟨fun _ _ => by simp [Utf8Table.empty], fun _ => by simp [Utf8Table.empty], by decide⟩

theorem Utf8Table.Linked.index_lt {table : Utf8Table} (h : table.Linked) {bytes : List UInt8}
    {index : UInt32} (hindex : table.dataTree bytes = some index) : index.toNat < 2 ^ 24 := by
  have hused := (h.used index).mp (by rw [(h.inverse bytes index).mp hindex]; rfl)
  have hlt : index.toNat < table.nextIndex.toNat := hused
  exact hlt.trans_le h.next

/-- What `utf8_put_item` does: the bytes are there, or they are added, or there is no index
left. -/
theorem utf8PutItem_cases (table : Utf8Table) (bytes : List UInt8) :
    (∃ index, table.dataTree bytes = some index ∧ utf8PutItem table bytes = (table, some index)) ∨
    (table.dataTree bytes = none ∧ table.nextIndex.toNat = 2 ^ 24 ∧
      utf8PutItem table bytes = (table, none)) ∨
    (table.dataTree bytes = none ∧ table.nextIndex.toNat ≠ 2 ^ 24 ∧
      utf8PutItem table bytes = (table.add bytes, some table.nextIndex)) := by
  have hfull : table.nextIndex = 0xffffff + 1 ↔ table.nextIndex.toNat = 2 ^ 24 := by
    rw [← UInt32.toNat_inj]
    rfl
  cases hdata : table.dataTree bytes with
  | some index => exact .inl ⟨index, rfl, by simp [utf8PutItem, utf8ItemByData, hdata]⟩
  | none =>
      by_cases hnext : table.nextIndex = 0xffffff + 1
      · exact .inr (.inl ⟨rfl, hfull.mp hnext, by
          simp only [utf8PutItem, utf8ItemByData, hdata, if_pos hnext]⟩)
      · exact .inr (.inr ⟨rfl, fun h => hnext (hfull.mpr h), by
          simp only [utf8PutItem, utf8ItemByData, hdata, if_neg hnext]⟩)

theorem Utf8Table.Linked.add {table : Utf8Table} (h : table.Linked) {bytes : List UInt8}
    (hnew : table.dataTree bytes = none) (hroom : table.nextIndex.toNat ≠ 2 ^ 24) :
    (table.add bytes).Linked := by
  have hnext := h.next
  have hsucc : (table.nextIndex + 1).toNat = table.nextIndex.toNat + 1 := by
    rw [UInt32.toNat_add]
    have : (1 : UInt32).toNat = 1 := rfl
    omega
  have hfree : table.indexTree table.nextIndex = none := by
    have := (h.used table.nextIndex).not.mpr (UInt32.lt_irrefl _)
    simpa using this
  refine ⟨fun b i => ?_, fun i => ?_, by rw [Utf8Table.add, hsucc]; omega⟩
  · change Function.update table.dataTree bytes (some table.nextIndex) b = some i ↔
      Function.update table.indexTree table.nextIndex (some bytes) i = some b
    by_cases hb : b = bytes
    · subst hb
      by_cases hi : i = table.nextIndex
      · subst hi
        simp
      · rw [Function.update_self, Function.update_of_ne hi]
        constructor
        · intro heq
          exact absurd (Option.some.inj heq).symm hi
        · intro heq
          rw [(h.inverse b i).mpr heq] at hnew
          cases hnew
    · rw [Function.update_of_ne hb]
      by_cases hi : i = table.nextIndex
      · subst hi
        rw [Function.update_self]
        constructor
        · intro heq
          rw [(h.inverse b _).mp heq] at hfree
          cases hfree
        · intro heq
          exact absurd (Option.some.inj heq).symm hb
      · rw [Function.update_of_ne hi]
        exact h.inverse b i
  · change (Function.update table.indexTree table.nextIndex (some bytes) i).isSome ↔
      i.toNat < (table.nextIndex + 1).toNat
    rw [hsucc]
    by_cases hi : i = table.nextIndex
    · subst hi
      simp
    · have hne : i.toNat ≠ table.nextIndex.toNat := fun heq => hi (UInt32.toNat.inj heq)
      have hused : _ ↔ i.toNat < table.nextIndex.toNat := h.used i
      rw [Function.update_of_ne hi, hused]
      omega

/-! ### Words -/

/-- The number that a word holds for a character. -/
def Utf8Table.index (table : Utf8Table) (ud : Utf8Data) : Option UInt32 :=
  if ud.size ≤ 3 then some (shortIndex ud.data) else table.dataTree ud.initializedSlice

/-- The word stands for the character. -/
def Stands (table : Utf8Table) (ud : Utf8Data) (uc : Utf8Char) : Prop :=
  ∃ index, table.index ud = some index ∧
    uc = utf8SetSize ud.size ||| utf8SetWidth ud.width ||| index

theorem toNat_shortIndex (data : Fin utf8Size → UInt8) :
    (shortIndex data).toNat = (data 2).toNat * 2 ^ 16 + (data 1).toNat * 2 ^ 8 +
      (data 0).toNat := by
  have h2 := (data 2).toNat_lt
  have h1 := (data 1).toNat_lt
  have h0 := (data 0).toNat_lt
  have hhigh : ((data 2).toUInt32 <<< 16).toNat = (data 2).toNat <<< 16 := by
    rw [UInt32.toNat_shiftLeft, UInt8.toNat_toUInt32, Nat.shiftLeft_eq]
    simp only [UInt32.reduceToNat, Nat.reduceMod, Nat.shiftLeft_eq]
    omega
  have hlow : ((data 1).toUInt32 <<< 8).toNat = (data 1).toNat <<< 8 := by
    rw [UInt32.toNat_shiftLeft, UInt8.toNat_toUInt32, Nat.shiftLeft_eq]
    simp only [UInt32.reduceToNat, Nat.reduceMod, Nat.shiftLeft_eq]
    omega
  have hmid : (data 2).toNat <<< 16 + (data 1).toNat <<< 8 =
      ((data 2).toNat * 2 ^ 8 + (data 1).toNat) <<< 8 := by
    rw [Nat.shiftLeft_eq, Nat.shiftLeft_eq, Nat.shiftLeft_eq]
    omega
  rw [shortIndex, UInt32.toNat_or, UInt32.toNat_or, hhigh, hlow, UInt8.toNat_toUInt32,
    ← Nat.shiftLeft_add_eq_or_of_lt (by rw [Nat.shiftLeft_eq]; omega), hmid,
    ← Nat.shiftLeft_add_eq_or_of_lt h0, Nat.shiftLeft_eq]
  omega

theorem Utf8Table.Linked.index_bound {table : Utf8Table} (h : table.Linked) {ud : Utf8Data}
    {index : UInt32} (hindex : table.index ud = some index) : index.toNat < 2 ^ 24 := by
  rw [Utf8Table.index] at hindex
  split_ifs at hindex with hshort
  · obtain rfl := Option.some.inj hindex
    rw [toNat_shortIndex]
    have h2 := (ud.data 2).toNat_lt
    have h1 := (ud.data 1).toNat_lt
    have h0 := (ud.data 0).toNat_lt
    omega
  · exact h.index_lt hindex

theorem bytes_shortIndex {ud : Utf8Data} (hud : ud.Valid) (hshort : ud.size ≤ 3) {uc : Utf8Char}
    (hword : uc.toNat % 2 ^ 24 = (shortIndex ud.data).toNat) (i : Fin utf8Size) :
    (if i = 2 then (uc >>> 16).toUInt8 else if i = 1 then ((uc >>> 8) &&& 0xff).toUInt8
      else if i = 0 then (uc &&& 0xff).toUInt8 else 0) = ud.data i := by
  rw [toNat_shortIndex] at hword
  have h2 := (ud.data 2).toNat_lt
  have h1 := (ud.data 1).toNat_lt
  have h0 := (ud.data 0).toNat_lt
  have hmask : ∀ n : Nat, n &&& 255 = n % 256 := fun n => Nat.and_two_pow_sub_one_eq_mod n 8
  split_ifs with hi2 hi1 hi0
  · subst hi2
    apply UInt8.toNat.inj
    rw [UInt32.toNat_toUInt8, UInt32.toNat_shiftRight]
    simp only [UInt32.reduceToNat, Nat.shiftRight_eq_div_pow, Nat.reduceMod, Nat.reducePow]
    omega
  · subst hi1
    apply UInt8.toNat.inj
    rw [UInt32.toNat_toUInt8, UInt32.toNat_and, UInt32.toNat_shiftRight]
    simp only [UInt32.reduceToNat, Nat.shiftRight_eq_div_pow, hmask, Nat.reduceMod, Nat.reducePow]
    omega
  · subst hi0
    apply UInt8.toNat.inj
    rw [UInt32.toNat_toUInt8, UInt32.toNat_and]
    simp only [UInt32.reduceToNat, hmask, Nat.reducePow]
    omega
  · have hsize : ud.size.toNat ≤ 3 := hshort
    refine (hud.data i ?_).symm
    have hval : i.val ≠ 2 ∧ i.val ≠ 1 ∧ i.val ≠ 0 :=
      ⟨fun h => hi2 (Fin.ext h), fun h => hi1 (Fin.ext h), fun h => hi0 (Fin.ext h)⟩
    omega

theorem Stands.utf8ToData {table : Utf8Table} (h : table.Linked) {ud : Utf8Data} (hud : ud.Valid)
    {uc : Utf8Char} (hstands : Stands table ud uc) :
    Utf8.utf8ToData table uc = .ok { ud with have_ := ud.size } := by
  obtain ⟨index, hindex, rfl⟩ := hstands
  have hsize : ud.size.toNat < 32 := lt_of_le_of_lt hud.size (by decide)
  have hbound := h.index_bound hindex
  rw [Utf8.utf8ToData, utf8GetSize_word hsize hud.width hbound,
    utf8GetWidth_word hsize hud.width hbound, index_word hsize hud.width hbound]
  by_cases hshort : ud.size ≤ 3
  · rw [Utf8Table.index, if_pos hshort] at hindex
    obtain rfl := Option.some.inj hindex
    have hword := toNat_word hsize hud.width hbound
    have hdata := bytes_shortIndex hud hshort (by rw [hword]; omega)
    simp only [if_pos hshort, hdata]
    rfl
  · rw [Utf8Table.index, if_neg hshort] at hindex
    have hfound : utf8ItemByIndex table index = some ud.initializedSlice :=
      (h.inverse _ _).mp hindex
    have hlen := hud.length_initializedSlice
    simp only [if_neg hshort, if_neg (Nat.not_lt.mpr hud.size), hfound, if_pos hlen,
      hud.getD_initializedSlice]
    rfl

/-- Different characters have different words. -/
theorem Stands.eq_iff {table : Utf8Table} (h : table.Linked) {ud ud' : Utf8Data} (hud : ud.Valid)
    (hud' : ud'.Valid) {uc uc' : Utf8Char} (hs : Stands table ud uc) (hs' : Stands table ud' uc') :
    uc = uc' ↔ ud.Same ud' := by
  constructor
  · rintro rfl
    have heq := (hs.utf8ToData h hud).symm.trans (hs'.utf8ToData h hud')
    simp only [Except.ok.injEq, Utf8Data.mk.injEq] at heq
    exact ⟨heq.1, heq.2.1, heq.2.2.2⟩
  · rintro ⟨hdata, hsize, hwidth⟩
    obtain ⟨index, hindex, rfl⟩ := hs
    obtain ⟨index', hindex', rfl⟩ := hs'
    have hsame : table.index ud = table.index ud' := by
      simp only [Utf8Table.index, Utf8Data.initializedSlice, hdata, hsize]
    rw [hsame, hindex'] at hindex
    rw [hsize, hwidth, Option.some.inj hindex]

/-! ### Runs -/

/-- The table and the characters that were handed out, each with its word. -/
structure Issued where
  table : Utf8Table
  handed : List (Utf8Data × Utf8Char)

def Issued.start : Issued := ⟨Utf8Table.empty, []⟩

/-- One call of `utf8_from_data`. -/
inductive Step : Issued → Issued → Prop
  | fromData {σ : Issued} {ud : Utf8Data} {table : Utf8Table} {state : Utf8State}
      {uc : Utf8Char} : ud.Valid → utf8FromData σ.table ud = .ok (table, state, uc) →
        Step σ ⟨table, if state = .done then (ud, uc) :: σ.handed else σ.handed⟩

/-- Every character handed out stands in the table, and the bytes in the table were handed
out. -/
structure Issued.Sound (σ : Issued) : Prop where
  linked : σ.table.Linked
  valid : ∀ p ∈ σ.handed, p.1.Valid
  stands : ∀ p ∈ σ.handed, Stands σ.table p.1 p.2
  known : ∀ bytes, σ.table.dataTree bytes ≠ none → ∃ p ∈ σ.handed, p.1.initializedSlice = bytes

theorem Issued.start_sound : Issued.start.Sound :=
  ⟨Utf8Table.empty_linked, fun _ h => absurd h List.not_mem_nil,
    fun _ h => absurd h List.not_mem_nil, fun _ h => absurd rfl h⟩

/-- A table with more bytes leaves the words as they are. -/
theorem Stands.add {table : Utf8Table} {ud : Utf8Data} {uc : Utf8Char} (h : Stands table ud uc)
    {bytes : List UInt8} (hnew : table.dataTree bytes = none) : Stands (table.add bytes) ud uc := by
  obtain ⟨i, hi, rfl⟩ := h
  refine ⟨i, ?_, rfl⟩
  rw [Utf8Table.index] at hi ⊢
  split_ifs at hi ⊢ with hshort
  · exact hi
  · have hne : ud.initializedSlice ≠ bytes := by
      rintro rfl
      rw [hnew] at hi
      cases hi
    exact (Function.update_of_ne hne _ _).trans hi

/-- What a call does: a character that is short or known gets its word, a new one is added
while there is an index left. -/
theorem utf8FromData_cases (table : Utf8Table) {ud : Utf8Data} (hud : ud.Valid) :
    (∃ uc, Stands table ud uc ∧ utf8FromData table ud = .ok (table, .done, uc)) ∨
    (3 < ud.size ∧ table.dataTree ud.initializedSlice = none ∧ table.nextIndex.toNat = 2 ^ 24 ∧
      utf8FromData table ud = .ok (table, .error, errorChar ud.width)) ∨
    (3 < ud.size ∧ table.dataTree ud.initializedSlice = none ∧ table.nextIndex.toNat ≠ 2 ^ 24 ∧
      utf8FromData table ud = .ok (table.add ud.initializedSlice, .done,
        utf8SetSize ud.size ||| utf8SetWidth ud.width ||| table.nextIndex)) := by
  have hwidth : ¬ 2 < ud.width := fun h => absurd hud.width (Nat.not_le.mpr h)
  have hsize : ¬ utf8Size < ud.size.toNat := Nat.not_lt.mpr hud.size
  by_cases hshort : ud.size ≤ 3
  · refine .inl ⟨_, ⟨shortIndex ud.data, if_pos hshort, rfl⟩, ?_⟩
    rw [utf8FromData, if_neg hwidth, if_neg hsize, if_pos hshort]
    rfl
  · have hlong : 3 < ud.size := UInt8.not_le.mp hshort
    rcases utf8PutItem_cases table ud.initializedSlice with ⟨index, hdata, h⟩ | ⟨hdata, hfull, h⟩ |
      ⟨hdata, hroom, h⟩
    · refine .inl ⟨_, ⟨index, (if_neg hshort).trans hdata, rfl⟩, ?_⟩
      rw [utf8FromData, if_neg hwidth, if_neg hsize, if_neg hshort, h]
      rfl
    · refine .inr (.inl ⟨hlong, hdata, hfull, ?_⟩)
      rw [utf8FromData, if_neg hwidth, if_neg hsize, if_neg hshort, h]
      rfl
    · refine .inr (.inr ⟨hlong, hdata, hroom, ?_⟩)
      rw [utf8FromData, if_neg hwidth, if_neg hsize, if_neg hshort, h]
      rfl

theorem Issued.Sound.known_cons {σ : Issued} (hσ : σ.Sound) (p : Utf8Data × Utf8Char)
    {bytes : List UInt8} (h : σ.table.dataTree bytes ≠ none) :
    ∃ q ∈ p :: σ.handed, q.1.initializedSlice = bytes := by
  obtain ⟨q, hq, hbytes⟩ := hσ.known bytes h
  exact ⟨q, List.mem_cons_of_mem _ hq, hbytes⟩

theorem Step.sound {σ σ' : Issued} (h : Step σ σ') (hσ : σ.Sound) : σ'.Sound := by
  cases h with
  | @fromData ud table state uc hud hcall =>
      rcases utf8FromData_cases σ.table hud with ⟨uc', hstands, hok⟩ | ⟨-, -, -, hok⟩ |
        ⟨hlong, hnew, hroom, hok⟩
      · obtain ⟨rfl, rfl, rfl⟩ : σ.table = table ∧ Utf8State.done = state ∧ uc' = uc := by
          simpa using hok.symm.trans hcall
        refine ⟨hσ.linked, List.forall_mem_cons.mpr ⟨hud, hσ.valid⟩,
          List.forall_mem_cons.mpr ⟨hstands, hσ.stands⟩, fun bytes h => hσ.known_cons _ h⟩
      · obtain ⟨rfl, rfl, rfl⟩ : σ.table = table ∧ Utf8State.error = state ∧ _ = uc := by
          simpa using hok.symm.trans hcall
        exact hσ
      · obtain ⟨rfl, rfl, rfl⟩ : _ = table ∧ Utf8State.done = state ∧ _ = uc := by
          simpa using hok.symm.trans hcall
        refine ⟨hσ.linked.add hnew hroom, List.forall_mem_cons.mpr ⟨hud, hσ.valid⟩,
          List.forall_mem_cons.mpr ⟨?_, fun p hp => (hσ.stands p hp).add hnew⟩,
          fun bytes h => ?_⟩
        · have hshort : ¬ ud.size ≤ 3 := UInt8.not_le.mpr hlong
          exact ⟨σ.table.nextIndex, (if_neg hshort).trans (Function.update_self _ _ _), rfl⟩
        · by_cases hbytes : bytes = ud.initializedSlice
          · exact ⟨_, List.mem_cons_self, hbytes.symm⟩
          · refine hσ.known_cons _ ?_
            have hsame : (σ.table.add ud.initializedSlice).dataTree bytes =
                σ.table.dataTree bytes :=
              Function.update_of_ne hbytes _ _
            rwa [hsame] at h

theorem Issued.run_sound {σ : Issued} (h : Relation.ReflTransGen Step Issued.start σ) :
    σ.Sound := by
  induction h with
  | refl => exact Issued.start_sound
  | tail _ hstep ih => exact hstep.sound ih

theorem Utf8Table.Linked.full_iff {table : Utf8Table} (h : table.Linked) :
    table.nextIndex.toNat = 2 ^ 24 ↔
      ∀ i < 2 ^ 24, (utf8ItemByIndex table (UInt32.ofNat i)).isSome := by
  have hnext := h.next
  have hused : ∀ i < 2 ^ 24, (utf8ItemByIndex table (UInt32.ofNat i)).isSome ↔
      i < table.nextIndex.toNat := by
    intro i hi
    have hiff : _ ↔ (UInt32.ofNat i).toNat < table.nextIndex.toNat := h.used (UInt32.ofNat i)
    rwa [UInt32.toNat_ofNat_of_lt' (by simp [UInt32.size]; omega)] at hiff
  constructor
  · intro hfull i hi
    exact (hused i hi).mpr (by omega)
  · intro hall
    by_contra hne
    have hlt := (hused table.nextIndex.toNat (by omega)).mp (hall _ (by omega))
    omega

/-- In every run every word handed out is turned back into its character, two of them are
equal exactly when their characters are, and a call fails exactly on a new character of more than
three bytes when every index is taken. -/
theorem handles_run {σ : Issued} (h : Relation.ReflTransGen Step Issued.start σ) :
    (∀ p ∈ σ.handed, utf8ToData σ.table p.2 = .ok { p.1 with have_ := p.1.size }) ∧
    (∀ p ∈ σ.handed, ∀ q ∈ σ.handed, p.2 = q.2 ↔ p.1.Same q.1) ∧
    ∀ ud : Utf8Data, ud.Valid → ∃ table state uc,
      utf8FromData σ.table ud = .ok (table, state, uc) ∧ (state = .done ∨ state = .error) ∧
        (state = .error ↔ 3 < ud.size ∧
          (∀ i < 2 ^ 24, (utf8ItemByIndex σ.table (UInt32.ofNat i)).isSome) ∧
          ∀ p ∈ σ.handed, p.1.initializedSlice ≠ ud.initializedSlice) := by
  have hσ := Issued.run_sound h
  refine ⟨fun p hp => (hσ.stands p hp).utf8ToData hσ.linked (hσ.valid p hp), fun p hp q hq =>
    (hσ.stands p hp).eq_iff hσ.linked (hσ.valid p hp) (hσ.valid q hq) (hσ.stands q hq),
    fun ud hud => ?_⟩
  rw [← hσ.linked.full_iff]
  -- The bytes are in the table exactly when a long character with them was handed out.
  have hnew : 3 < ud.size → (σ.table.dataTree ud.initializedSlice = none ↔
      ∀ p ∈ σ.handed, p.1.initializedSlice ≠ ud.initializedSlice) := by
    intro hlong
    constructor
    · intro hnone p hp heq
      obtain ⟨index, hindex, -⟩ := hσ.stands p hp
      have hsize : p.1.size = ud.size := UInt8.toNat.inj (by
        rw [← (hσ.valid p hp).length_initializedSlice, heq, hud.length_initializedSlice])
      rw [Utf8Table.index, hsize, if_neg (UInt8.not_le.mpr hlong), heq, hnone] at hindex
      cases hindex
    · intro hall
      by_contra hsome
      obtain ⟨p, hp, hbytes⟩ := hσ.known _ hsome
      exact hall p hp hbytes
  rcases utf8FromData_cases σ.table hud with
      ⟨uc, ⟨index, hindex, -⟩, hok⟩ | ⟨hlong, hnone, hfull, hok⟩ |
    ⟨hlong, hnone, hroom, hok⟩
  · refine ⟨_, _, _, hok, .inl rfl, by simp, ?_⟩
    rintro ⟨hlong, -, hall⟩
    rw [Utf8Table.index, if_neg (UInt8.not_le.mpr hlong), (hnew hlong).mpr hall] at hindex
    cases hindex
  · exact ⟨_, _, _, hok, .inr rfl, fun _ => ⟨hlong, hfull, (hnew hlong).mp hnone⟩, fun _ => rfl⟩
  · refine ⟨_, _, _, hok, .inl rfl, by simp, ?_⟩
    rintro ⟨-, hfull, -⟩
    exact absurd hfull hroom

/-- A four-byte character. -/
def smiley : Utf8Data :=
  ⟨fun i => if i = 0 then 0xf0 else if i = 1 then 0x9f else if i = 2 then 0x98
    else if i = 3 then 0x80 else 0, 4, 4, 2⟩

theorem smiley_valid : smiley.Valid := ⟨by decide, by decide, by decide⟩

/-- The character behind it. -/
def grin : Utf8Data :=
  { smiley with data := fun i => if i = 3 then 0x81 else smiley.data i }

theorem grin_valid : grin.Valid := ⟨by decide, by decide, by decide⟩

/-- Both get a word, and each word stays its own. -/
theorem handles_run_two :
    ∃ σ uc uc', Relation.ReflTransGen Step Issued.start σ ∧
      σ.handed = [(grin, uc'), (smiley, uc)] ∧ uc ≠ uc' ∧
      utf8ToData σ.table uc = .ok { smiley with have_ := 4 } ∧
      utf8ToData σ.table uc' = .ok { grin with have_ := 4 } := by
  have hsmiley : utf8FromData Utf8Table.empty smiley =
      .ok (Utf8Table.empty.add smiley.initializedSlice, .done,
        utf8SetSize 4 ||| utf8SetWidth 2 ||| 0) := rfl
  have hgrin : utf8FromData (Utf8Table.empty.add smiley.initializedSlice) grin =
      .ok ((Utf8Table.empty.add smiley.initializedSlice).add grin.initializedSlice, .done,
        utf8SetSize 4 ||| utf8SetWidth 2 ||| 1) := rfl
  have hfirst := Step.fromData (σ := Issued.start) smiley_valid hsmiley
  rw [if_pos rfl] at hfirst
  have hsecond := Step.fromData (σ := ⟨_, [(smiley, utf8SetSize 4 ||| utf8SetWidth 2 ||| 0)]⟩)
    grin_valid hgrin
  rw [if_pos rfl] at hsecond
  have hrun := (Relation.ReflTransGen.single hfirst).tail hsecond
  obtain ⟨hread, hsame, -⟩ := handles_run hrun
  have hmem := List.mem_cons_of_mem (grin, utf8SetSize 4 ||| utf8SetWidth 2 ||| 1)
    (List.mem_singleton_self (smiley, utf8SetSize 4 ||| utf8SetWidth 2 ||| 0))
  refine ⟨_, _, _, hrun, rfl, ?_, hread (smiley, _) hmem, hread (grin, _) List.mem_cons_self⟩
  intro heq
  have hdata := ((hsame (smiley, _) hmem (grin, _) List.mem_cons_self).mp heq).1
  exact absurd (congrFun hdata 3) (by decide)

end Ztmux.Utf8
