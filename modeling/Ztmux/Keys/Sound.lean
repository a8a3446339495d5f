import Ztmux.Keys.Table
import Ztmux.Library.References

/-!
What is seen of the tables from outside, and what each operation on a table keeps.

A table is live while it is in the tree of all tables or some client uses it. A name is that of
at most one table in the tree.
-/

namespace Ztmux.Keys

open References

variable {L : Type} {s : State L} {users : Nat → Nat} {table : Nat} {t : KeyTable L} {name : String}

/-! ### What is seen from outside -/

def hasName (name : String) : Option (KeyTable L) → Bool
  | none => false
  | some t => decide (t.name = name)

def State.named (s : State L) (name : String) : Option Nat :=
  s.keyTables.find? fun table => hasName name (s.tables table)

def contentsOf : Option (KeyTable L) → Bindings L × Bindings L
  | none => (∅, ∅)
  | some t => (t.keyBindings, t.defaultKeyBindings)

/-- The bindings that are found by the name of their table, and the default ones. -/
def State.contents (s : State L) (name : String) : Bindings L × Bindings L :=
  contentsOf ((s.named name).bind s.tables)

/-- The references that come from the tree. -/
def State.inTree (s : State L) (table : Nat) : Nat := if table ∈ s.keyTables then 1 else 0

/-- The tables, where each is used by a given number of clients. -/
structure Tables (s : State L) (users : Nat → Nat) : Prop where
  counted : Counted KeyTable.references s.tables fun table => s.inTree table + users table
  distinct : s.keyTables.Nodup
  names : ∀ a ∈ s.keyTables, ∀ b ∈ s.keyTables, ∀ t u, s.tables a = some t → s.tables b = some u →
    t.name = u.name → a = b
  fresh : ∀ table, s.nextTable ≤ table → s.tables table = none

theorem Tables.live (h : Tables s users) (hmem : table ∈ s.keyTables) :
    ∃ t, s.tables table = some t := by
  have hheld : 0 < s.inTree table + users table := by
    rw [State.inTree, if_pos hmem]
    omega
  obtain ⟨t, ht, -⟩ := h.counted.exists_cell hheld
  exact ⟨t, ht⟩

theorem Tables.used (h : Tables s users) (huser : 0 < users table) :
    ∃ t, s.tables table = some t := by
  obtain ⟨t, ht, -⟩ := h.counted.exists_cell (i := table) (by omega)
  exact ⟨t, ht⟩

theorem Tables.lt_next (h : Tables s users) (ht : s.tables table = some t) :
    table < s.nextTable := by
  by_contra hle
  rw [h.fresh table (by omega)] at ht
  cases ht

theorem Tables.notMem_next (h : Tables s users) : s.nextTable ∉ s.keyTables := fun hmem => by
  obtain ⟨t, ht⟩ := h.live hmem
  exact absurd (h.lt_next ht) (lt_irrefl _)

theorem Tables.named_eq_some (h : Tables s users) :
    s.named name = some table ↔ table ∈ s.keyTables ∧ ∃ t, s.tables table = some t ∧ t.name =
      name := by
  have hmatch : ∀ a, hasName name (s.tables a) = true ↔ ∃ t, s.tables a = some t ∧ t.name = name :=
    fun a => by cases ha : s.tables a <;> simp [hasName]
  constructor
  · intro hfind
    exact ⟨List.mem_of_find?_eq_some hfind,
      (hmatch table).mp (List.find?_some (p := fun a => hasName name (s.tables a)) hfind)⟩
  · rintro ⟨hmem, t, ht, hname⟩
    obtain ⟨a, ha⟩ : ∃ a, s.named name = some a :=
      Option.isSome_iff_exists.mp
        (List.find?_isSome.mpr ⟨table, hmem, (hmatch table).mpr ⟨t, ht, hname⟩⟩)
    obtain ⟨u, hu, huname⟩ :=
      (hmatch a).mp (List.find?_some (p := fun a => hasName name (s.tables a)) ha)
    rw [ha, h.names a (List.mem_of_find?_eq_some ha) table hmem u t hu ht (huname.trans hname.symm)]

theorem Tables.named_eq_none (h : Tables s users) :
    s.named name = none ↔ ∀ a ∈ s.keyTables, ∀ t, s.tables a = some t → t.name ≠ name := by
  constructor
  · intro hnone a ha t ht hname
    rw [h.named_eq_some.mpr ⟨ha, t, ht, hname⟩] at hnone
    cases hnone
  · intro hno
    refine Option.eq_none_iff_forall_ne_some.mpr fun a ha => ?_
    obtain ⟨hmem, t, ht, hname⟩ := h.named_eq_some.mp ha
    exact hno a hmem t ht hname

theorem Tables.contents_eq (h : Tables s users) (hmem : table ∈ s.keyTables)
    (ht : s.tables table = some t) :
    s.contents t.name = (t.keyBindings, t.defaultKeyBindings) := by
  rw [State.contents, h.named_eq_some.mpr ⟨hmem, t, ht, rfl⟩, Option.bind_some, ht]
  rfl

theorem State.contents_of_none (hnone : s.named name = none) : s.contents name = (∅, ∅) := by
  rw [State.contents, hnone]
  rfl

/-! ### Finding a table -/

theorem deref_eq (ht : s.tables table = some t) : s.deref table = .ok t := by
  rw [State.deref, ht]

theorem findTable_eq {keyTables : List Nat} (hlive : ∀ a ∈ keyTables, ∃ t, s.tables a = some t) :
    findTable s name keyTables = .ok (keyTables.find? fun a => hasName name (s.tables a)) := by
  induction keyTables with
  | nil => rfl
  | cons a rest ih =>
      obtain ⟨t, ht⟩ := hlive a List.mem_cons_self
      rw [findTable, deref_eq ht, List.find?_cons, ht, hasName]
      by_cases hname : t.name = name
      · rw [decide_eq_true hname]
        exact if_pos hname
      · rw [decide_eq_false hname]
        exact (if_neg hname).trans (ih fun b hb => hlive b (.tail _ hb))

theorem findTable_ok (h : Tables s users) : findTable s name s.keyTables = .ok (s.named name) :=
  findTable_eq fun _ ha => h.live ha

theorem keyBindingsGetTable_false (h : Tables s users) (name : String) :
    keyBindingsGetTable s name false = .ok (s, s.named name) := by
  rw [keyBindingsGetTable, findTable_ok h]
  exact if_pos (.inr rfl)

/-! ### Writing a table -/

/-- A table in the tree keeps its name. -/
theorem Tables.named_congr (h : Tables s users) {tables : Nat → Option (KeyTable L)}
    (hsame : ∀ a ∈ s.keyTables, ∀ t, s.tables a = some t → ∃ u, tables a = some u ∧
      u.name = t.name) :
    ({ s with tables := tables } : State L).named = s.named := by
  funext name
  refine List.find?_congr fun a ha => ?_
  obtain ⟨t, ht⟩ := h.live ha
  obtain ⟨u, hu, hname⟩ := hsame a ha t ht
  change hasName name (tables a) = hasName name (s.tables a)
  rw [ht, hu, hasName, hasName, hname]

theorem Tables.contents_congr (h : Tables s users) {tables : Nat → Option (KeyTable L)}
    (hsame : ∀ a ∈ s.keyTables, ∀ t, s.tables a = some t →
      ∃ n, tables a = some { t with references := n }) :
    ({ s with tables := tables } : State L).contents = s.contents := by
  funext name
  rw [State.contents, State.contents, h.named_congr fun a ha t ht => by
    obtain ⟨n, hn⟩ := hsame a ha t ht
    exact ⟨_, hn, rfl⟩]
  cases hfind : s.named name with
  | none => rfl
  | some a =>
      obtain ⟨hmem, t, ht, -⟩ := h.named_eq_some.mp hfind
      obtain ⟨n, hn⟩ := hsame a hmem t ht
      change contentsOf (tables a) = contentsOf (s.tables a)
      rw [ht, hn]
      rfl

/-- No table appears, and none changes its name. -/
theorem Tables.change (h : Tables s users) {s' : State L} {users' : Nat → Nat}
    (hcounted : Counted KeyTable.references s'.tables fun table => s'.inTree table + users' table)
    (hkeep : ∀ a t', s'.tables a = some t' → ∃ t, s.tables a = some t ∧ t.name = t'.name)
    (htree : s'.keyTables.Sublist s.keyTables) (hnext : s'.nextTable = s.nextTable) :
    Tables s' users' where
  counted := hcounted
  distinct := htree.nodup h.distinct
  names a ha b hb t' u' ht' hu' heq := by
    obtain ⟨t, ht, htname⟩ := hkeep a t' ht'
    obtain ⟨u, hu, huname⟩ := hkeep b u' hu'
    exact h.names a (htree.subset ha) b (htree.subset hb) t u ht hu
      (htname.trans (heq.trans huname.symm))
  fresh a ha := by
    refine Option.eq_none_iff_forall_ne_some.mpr fun t' ht' => ?_
    obtain ⟨t, ht, -⟩ := hkeep a t' ht'
    have hlt := h.lt_next ht
    omega

theorem keep_update (ht : s.tables table = some t) {t' : KeyTable L} (hname : t'.name = t.name)
    (a : Nat)
    (u' : KeyTable L) (hu' : Function.update s.tables table (some t') a = some u') :
    ∃ u, s.tables a = some u ∧ u.name = u'.name := by
  by_cases ha : a = table
  · subst ha
    rw [Function.update_self] at hu'
    exact ⟨t, ht, Option.some.inj hu' ▸ hname.symm⟩
  · rw [Function.update_of_ne ha] at hu'
    exact ⟨u', hu', rfl⟩

theorem keep_free (a : Nat) (u' : KeyTable L)
    (hu' : Function.update s.tables table none a = some u') :
    ∃ u, s.tables a = some u ∧ u.name = u'.name := by
  by_cases ha : a = table
  · subst ha
    rw [Function.update_self] at hu'
    cases hu'
  · rw [Function.update_of_ne ha] at hu'
    exact ⟨u', hu', rfl⟩

theorem Tables.write (h : Tables s users) (ht : s.tables table = some t) {t' : KeyTable L}
    (hname : t'.name = t.name) (hrefs : t'.references = t.references) :
    Tables (s.write table t') users :=
  h.change (h.counted.rewrite ht hrefs) (keep_update ht hname) (.refl _) rfl

theorem Tables.contents_write (h : Tables s users) (hmem : table ∈ s.keyTables)
    (ht : s.tables table = some t) {t' : KeyTable L} (hname : t'.name = t.name)
    (hrefs : t'.references = t.references) :
    (s.write table t').contents =
      Function.update s.contents t.name (t'.keyBindings, t'.defaultKeyBindings) := by
  have h' := h.write ht hname hrefs
  have hself : (s.write table t').tables table = some t' := Function.update_self _ _ _
  funext name
  by_cases hn : name = t.name
  · subst hn
    rw [Function.update_self, ← hname]
    exact h'.contents_eq hmem hself
  · rw [Function.update_of_ne hn, State.contents, State.contents]
    have hnamed : (s.write table t').named = s.named := h.named_congr fun a ha u hu => by
      by_cases hc : a = table
      · subst hc
        exact ⟨t', Function.update_self _ _ _,
          hname.trans (Option.some.inj (ht.symm.trans hu) ▸ rfl)⟩
      · exact ⟨u, (Function.update_of_ne hc _ _).trans hu, rfl⟩
    rw [hnamed]
    cases hfind : s.named name with
    | none => rfl
    | some a =>
        obtain ⟨-, u, hu, hnu⟩ := h.named_eq_some.mp hfind
        have hc : a ≠ table := fun heq => hn (by
          subst heq
          rw [← hnu, Option.some.inj (ht.symm.trans hu)])
        change contentsOf (Function.update s.tables table (some t') a) = contentsOf (s.tables a)
        rw [Function.update_of_ne hc]

/-! ### References -/

/-- What is left of a table that has `n` references. -/
def recounted (t : KeyTable L) (n : Nat) : Option (KeyTable L) :=
  if n = 0 then none else some { t with references := n }

theorem keyBindingsUnrefTable_eq (ht : s.tables table = some t) {n : Nat}
    (hn : t.references = n + 1) :
    keyBindingsUnrefTable s table = .ok { s with
      tables := Function.update s.tables table (recounted t n) } := by
  have hsub : t.references - 1 = n := by omega
  rw [keyBindingsUnrefTable, deref_eq ht]
  change (if t.references - 1 ≠ 0 then _ else _) = _
  rw [hsub, recounted]
  by_cases hzero : n = 0
  · rw [if_neg (not_not.mpr hzero), if_pos hzero]
    rfl
  · rw [if_pos hzero, if_neg hzero]
    rfl

theorem Counted.recount {held : Nat → Nat} {tables : Nat → Option (KeyTable L)}
    (h : Counted KeyTable.references tables held) (table : Nat) (t : KeyTable L) (n : Nat) :
    Counted KeyTable.references
      (Function.update tables table (recounted t n))
      (Function.update held table n) := by
  by_cases hzero : n = 0
  · subst hzero
    exact h.free table
  · rw [recounted, if_neg hzero]
    exact h.write rfl (Nat.pos_of_ne_zero hzero)

theorem keep_recount (ht : s.tables table = some t) (n a : Nat) (u' : KeyTable L)
    (hu' : Function.update s.tables table (recounted t n) a =
      some u') : ∃ u, s.tables a = some u ∧ u.name = u'.name := by
  have hkeep :=
    keep_update ht (show ({ t with references := n } : KeyTable L).name = t.name from rfl)
  by_cases hzero : n = 0
  · rw [recounted, if_pos hzero] at hu'
    exact keep_free a u' hu'
  · rw [recounted, if_neg hzero] at hu'
    exact hkeep a u' hu'

theorem Tables.references_eq (h : Tables s users) (ht : s.tables table = some t) :
    t.references = s.inTree table + users table := h.counted.count_eq table t ht

/-- Another number of clients uses a table. -/
theorem Tables.recount (h : Tables s users) (ht : s.tables table = some t) (n : Nat) :
    Tables
      ({ s with
        tables := Function.update s.tables table (recounted t (s.inTree table + n)) } : State L)
      (Function.update users table n) ∧
    ({ s with tables := Function.update s.tables table (recounted t (s.inTree table + n)) } :
      State L).contents = s.contents := by
  have hheld : (fun a => s.inTree a + Function.update users table n a) =
      Function.update (fun a => s.inTree a + users a) table (s.inTree table + n) := by
    funext a
    by_cases ha : a = table
    · subst ha
      rw [Function.update_self, Function.update_self]
    · rw [Function.update_of_ne ha, Function.update_of_ne ha]
  refine ⟨h.change ?_ (keep_recount ht _) (.refl _) rfl, h.contents_congr fun a ha u hu => ?_⟩
  · have hcounted := Counted.recount h.counted table t (s.inTree table + n)
    rw [← hheld] at hcounted
    exact hcounted
  · by_cases hc : a = table
    · subst hc
      have hone : s.inTree a = 1 := if_pos ha
      refine ⟨s.inTree a + n, ?_⟩
      rw [Function.update_self, recounted, if_neg (by omega), Option.some.inj (ht.symm.trans hu)]
    · exact ⟨u.references, (Function.update_of_ne hc _ _).trans hu⟩

theorem keyBindingsRefTable_ok (h : Tables s users) (ht : s.tables table = some t) :
    ∃ tables, keyBindingsRefTable s table = .ok { s with tables := tables } ∧
      Tables { s with tables := tables } (Function.update users table (users table + 1)) ∧
      ({ s with tables := tables } : State L).contents = s.contents := by
  obtain ⟨htables, hcontents⟩ := h.recount ht (users table + 1)
  refine ⟨_, ?_, htables, hcontents⟩
  rw [keyBindingsRefTable, deref_eq ht, recounted, if_neg (by omega), ← Nat.add_assoc,
    ← h.references_eq ht]
  rfl

theorem keyBindingsUnrefTable_ok (h : Tables s users) (huser : 0 < users table) :
    ∃ tables, keyBindingsUnrefTable s table = .ok { s with tables := tables } ∧
      Tables { s with tables := tables } (Function.update users table (users table - 1)) ∧
      ({ s with tables := tables } : State L).contents = s.contents := by
  obtain ⟨t, ht⟩ := h.used huser
  obtain ⟨htables, hcontents⟩ := h.recount ht (users table - 1)
  have hrefs := h.references_eq ht
  exact ⟨_, keyBindingsUnrefTable_eq ht (by omega), htables, hcontents⟩

theorem dropTable_ok (h : Tables s users) (hmem : table ∈ s.keyTables)
    (ht : s.tables table = some t) :
    ∃ tables, dropTable s (some table) =
        .ok { s with tables := tables, keyTables := s.keyTables.erase table } ∧
      Tables { s with tables := tables, keyTables := s.keyTables.erase table } users ∧
      ({ s with tables := tables, keyTables := s.keyTables.erase table } : State L).contents =
        Function.update s.contents t.name (∅, ∅) := by
  have hrefs : t.references = users table + 1 := by
    rw [h.references_eq ht, State.inTree, if_pos hmem, Nat.add_comm]
  have hcall : dropTable s (some table) = _ :=
    keyBindingsUnrefTable_eq (s := { s with keyTables := s.keyTables.erase table }) ht hrefs
  have htables : Tables ({ s with
      tables := Function.update s.tables table
        (recounted t (users table))
      keyTables := s.keyTables.erase table } : State L) users := by
    refine h.change ?_ (keep_recount ht _) List.erase_sublist rfl
    have hcounted := Counted.recount h.counted table t (users table)
    convert hcounted using 1
    funext a
    by_cases ha : a = table
    · subst ha
      rw [Function.update_self, State.inTree, if_neg h.distinct.not_mem_erase, Nat.zero_add]
    · rw [Function.update_of_ne ha, State.inTree, State.inTree]
      simp only [List.mem_erase_of_ne ha]
  refine ⟨_, hcall, htables, ?_⟩
  funext name
  by_cases hn : name = t.name
  · subst hn
    rw [Function.update_self]
    refine State.contents_of_none (htables.named_eq_none.mpr fun a ha u' hu' hname => ?_)
    obtain ⟨hne, ha⟩ := h.distinct.mem_erase_iff.mp ha
    obtain ⟨u, hu, huname⟩ := keep_recount ht _ a u' hu'
    exact hne (h.names a ha table hmem u t hu ht (huname.trans hname))
  · rw [Function.update_of_ne hn, State.contents, State.contents]
    have hother : ∀ a, a ≠ table →
        Function.update s.tables table (recounted t (users table)) a = s.tables a :=
      fun a ha => Function.update_of_ne ha _ _
    have hnamed : ({ s with
        tables := Function.update s.tables table (recounted t (users table))
        keyTables := s.keyTables.erase table } : State L).named name = s.named name := by
      refine Option.ext fun a => ?_
      rw [htables.named_eq_some, h.named_eq_some]
      constructor
      · rintro ⟨ha, hfound⟩
        obtain ⟨hne, ha⟩ := h.distinct.mem_erase_iff.mp ha
        exact ⟨ha, hother a hne ▸ hfound⟩
      · rintro ⟨ha, u, hu, huname⟩
        have hne : a ≠ table := fun heq => hn (by
          subst heq
          rw [← huname, Option.some.inj (ht.symm.trans hu)])
        exact ⟨h.distinct.mem_erase_iff.mpr ⟨hne, ha⟩, u, (hother a hne).trans hu, huname⟩
    rw [hnamed]
    cases hfind : s.named name with
    | none => rfl
    | some a =>
        obtain ⟨-, u, hu, huname⟩ := h.named_eq_some.mp hfind
        have hne : a ≠ table := fun heq => hn (by
          subst heq
          rw [← huname, Option.some.inj (ht.symm.trans hu)])
        exact congrArg contentsOf (hother a hne)

/-! ### A new table -/

theorem newTable_ok (h : Tables s users) (hnone : s.named name = none) :
    Tables (s.newTable name) users ∧ (s.newTable name).contents = s.contents := by
  have hfresh : s.tables s.nextTable = none := h.fresh _ le_rfl
  have hfree : s.inTree s.nextTable + users s.nextTable = 0 := by
    by_contra hpos
    exact (h.counted.live s.nextTable).mp (Nat.pos_of_ne_zero hpos) hfresh
  have hself : (s.newTable name).tables s.nextTable = some ⟨name, ∅, ∅, 1⟩ :=
    Function.update_self _ _ _
  have hother : ∀ a, a ≠ s.nextTable → (s.newTable name).tables a = s.tables a :=
    fun a ha => Function.update_of_ne ha _ _
  have hold : ∀ a ∈ s.keyTables, a ≠ s.nextTable := fun a ha heq => h.notMem_next (heq ▸ ha)
  have hmem : ∀ a, a ∈ (s.newTable name).keyTables ↔ a ∈ s.keyTables ∨ a = s.nextTable :=
    fun a => by
    rw [State.newTable, List.mem_append, List.mem_singleton]
  have htables : Tables (s.newTable name) users := by
    refine ⟨?_, ?_, fun a ha b hb t u ht hu heq => ?_, fun a ha => ?_⟩
    · have hcounted := h.counted.write (i := s.nextTable)
        (show (⟨name, ∅, ∅, 1⟩ : KeyTable L).references = 1 from rfl) Nat.one_pos
      have hheld : (fun a => (s.newTable name).inTree a + users a) =
          Function.update (fun a => s.inTree a + users a) s.nextTable 1 := by
        funext a
        by_cases ha : a = s.nextTable
        · subst ha
          rw [Function.update_self, State.inTree, if_pos ((hmem _).mpr (.inr rfl))]
          omega
        · rw [Function.update_of_ne ha, State.inTree, State.inTree, if_congr (hmem a) rfl rfl]
          simp only [ha, or_false]
      rw [hheld]
      exact hcounted
    · exact List.nodup_append.mpr ⟨h.distinct, List.nodup_singleton _, fun a ha b hb =>
        (List.mem_singleton.mp hb).symm ▸ hold a ha⟩
    · rcases (hmem a).mp ha with ha | rfl <;> rcases (hmem b).mp hb with hb | rfl
      · rw [hother a (hold a ha)] at ht
        rw [hother b (hold b hb)] at hu
        exact h.names a ha b hb t u ht hu heq
      · rw [hother a (hold a ha)] at ht
        obtain rfl : ⟨name, ∅, ∅, 1⟩ = u := Option.some.inj (hself.symm.trans hu)
        exact absurd heq (h.named_eq_none.mp hnone a ha t ht)
      · rw [hother b (hold b hb)] at hu
        obtain rfl : ⟨name, ∅, ∅, 1⟩ = t := Option.some.inj (hself.symm.trans ht)
        exact absurd heq.symm (h.named_eq_none.mp hnone b hb u hu)
      · rfl
    · have hlt : s.nextTable < a := ha
      rw [hother a (by omega)]
      exact h.fresh a (by omega)
  refine ⟨htables, funext fun name' => ?_⟩
  by_cases hn : name' = name
  · subst hn
    rw [State.contents_of_none hnone, htables.contents_eq ((hmem _).mpr (.inr rfl)) hself]
  · have hnamed : (s.newTable name).named name' = s.named name' := by
      refine Option.ext fun a => ?_
      rw [htables.named_eq_some, h.named_eq_some, hmem]
      constructor
      · rintro ⟨ha | rfl, t, ht, htname⟩
        · exact ⟨ha, t, (hother a (hold a ha)).symm.trans ht, htname⟩
        · obtain rfl : ⟨name, ∅, ∅, 1⟩ = t := Option.some.inj (hself.symm.trans ht)
          exact absurd htname.symm hn
      · rintro ⟨ha, t, ht, htname⟩
        exact ⟨.inl ha, t, (hother a (hold a ha)).trans ht, htname⟩
    rw [State.contents, State.contents, hnamed]
    cases hfind : s.named name' with
    | none => rfl
    | some a =>
        obtain ⟨ha, -⟩ := h.named_eq_some.mp hfind
        exact congrArg contentsOf (hother a (hold a ha))

/-- The table of a name, which is made when there is none. -/
theorem keyBindingsGetTable_true (h : Tables s users) (name : String) :
    ∃ s' table t, keyBindingsGetTable s name true = .ok (s', some table) ∧ Tables s' users ∧
      s'.contents = s.contents ∧ table ∈ s'.keyTables ∧ s'.tables table = some t ∧ t.name = name ∧
      s.keyTables ⊆ s'.keyTables ∧ s'.client = s.client ∧ s'.clients = s.clients ∧
      s'.nextClient = s.nextClient := by
  have hget : keyBindingsGetTable s name true = if s.named name ≠ none ∨ true = false then
      .ok (s, s.named name) else .ok (s.newTable name, some s.nextTable) := by
    rw [keyBindingsGetTable, findTable_ok h]
    rfl
  cases hnamed : s.named name with
  | none =>
      obtain ⟨htables, hcontents⟩ := newTable_ok h hnamed
      rw [hnamed, if_neg (by simp)] at hget
      refine ⟨s.newTable name, s.nextTable, _, hget, htables, hcontents, ?_,
        Function.update_self _ _ _, rfl, List.subset_append_left _ _, rfl, rfl, rfl⟩
      exact List.mem_append_right _ (List.mem_singleton_self _)
  | some table =>
      obtain ⟨hmem, t, ht, hname⟩ := h.named_eq_some.mp hnamed
      rw [hnamed, if_pos (.inl (Option.some_ne_none table))] at hget
      exact ⟨s, table, t, hget, h, rfl, hmem, ht, hname, List.Subset.refl _, rfl, rfl, rfl⟩

end Ztmux.Keys
