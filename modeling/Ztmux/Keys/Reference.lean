import Ztmux.Keys.Client

/-!
The bindings as maps, and what each operation on bindings does to them.

The maps say what is bound, and by default, for a key in a table of some name. They know nothing
of tables that come and go.
-/

namespace Ztmux.Keys

variable {L : Type}

structure Reference (L : Type) where
  bindings : String → UInt64 → Option (KeyBinding L)
  defaults : String → UInt64 → Option (KeyBinding L)

def Reference.empty : Reference L := ⟨fun _ _ => none, fun _ _ => none⟩

/-- One key of one table is changed. -/
def Reference.set (r : Reference L) (name : String) (key : UInt64) (bd : Option (KeyBinding L)) :
    Reference L :=
  { r with bindings := Function.update r.bindings name (Function.update (r.bindings name) key bd) }

/-- The binding that adding one makes of the one that is there. Without commands a binding is only
annotated. -/
def added (note : Option String) (repeats : Bool) (cmdlist : Option L)
    (bd : Option (KeyBinding L)) :
    Option (KeyBinding L) :=
  match cmdlist with
  | some cmdlist => some ⟨cmdlist, note, if repeats then KEY_BINDING_REPEAT else 0⟩
  | none => bd.map fun bd =>
      ⟨bd.cmdlist, note.or bd.note, if repeats then bd.flags ||| KEY_BINDING_REPEAT else bd.flags⟩

def Reference.add (r : Reference L) (name : String) (key : UInt64) (note : Option String)
    (repeats : Bool)
    (cmdlist : Option L) : Reference L :=
  let key := key &&& ~~~KEYC_MASK_FLAGS
  r.set name key (added note repeats cmdlist (r.bindings name key))

def Reference.remove (r : Reference L) (name : String) (key : UInt64) : Reference L :=
  r.set name (key &&& ~~~KEYC_MASK_FLAGS) none

/-- A key that is bound gets its default binding, or none when it has no default one. -/
def Reference.reset (r : Reference L) (name : String) (key : UInt64) : Reference L :=
  let key := key &&& ~~~KEYC_MASK_FLAGS
  r.set name key ((r.bindings name key).bind fun _ => r.defaults name key)

def Reference.removeTable (r : Reference L) (name : String) : Reference L :=
  ⟨Function.update r.bindings name fun _ => none, Function.update r.defaults name fun _ => none⟩

def Reference.initDone (r : Reference L) : Reference L :=
  { r with defaults := fun name key => (r.defaults name key).or (r.bindings name key) }

/-- What is found through the tree of all tables. -/
def State.reference (s : State L) : Reference L :=
  ⟨fun name key => (s.contents name).1.lookup key, fun name key => (s.contents name).2.lookup key⟩

variable {s : State L} {users : Nat → Nat} {table : Nat} {t : KeyTable L} {name : String}
    {key : UInt64}

theorem State.reference_congr {s' : State L} (h : s'.contents = s.contents) :
    s'.reference = s.reference := by
  rw [State.reference, State.reference, h]

theorem Tables.reference_bindings (h : Tables s users) (hmem : table ∈ s.keyTables)
    (ht : s.tables table = some t) (key : UInt64) :
    s.reference.bindings t.name key = t.keyBindings.lookup key := by
  change (s.contents t.name).1.lookup key = _
  rw [h.contents_eq hmem ht]

theorem Tables.reference_defaults (h : Tables s users) (hmem : table ∈ s.keyTables)
    (ht : s.tables table = some t) (key : UInt64) :
    s.reference.defaults t.name key = t.defaultKeyBindings.lookup key := by
  change (s.contents t.name).2.lookup key = _
  rw [h.contents_eq hmem ht]

/-- A table is written with one binding changed. -/
theorem Tables.reference_write (h : Tables s users) (hmem : table ∈ s.keyTables)
    (ht : s.tables table = some t) {t' : KeyTable L} (hname : t'.name = t.name)
    (hrefs : t'.references = t.references) (hdefault : t'.defaultKeyBindings = t.defaultKeyBindings)
    {bd : Option (KeyBinding L)} (hlookup : t'.keyBindings.lookup key = bd)
    (hother : ∀ k, k ≠ key → t'.keyBindings.lookup k = t.keyBindings.lookup k) :
    (s.write table t').reference = s.reference.set t.name key bd := by
  rw [State.reference, Reference.set, State.reference, h.contents_write hmem ht hname hrefs]
  congr 1
  · funext n
    by_cases hn : n = t.name
    · subst hn
      funext k
      rw [Function.update_self, Function.update_self]
      by_cases hk : k = key
      · rw [hk, Function.update_self, hlookup]
      · rw [Function.update_of_ne hk]
        exact (hother k hk).trans (h.reference_bindings hmem ht k).symm
    · rw [Function.update_of_ne hn, Function.update_of_ne hn]
  · funext n
    by_cases hn : n = t.name
    · rw [hn, Function.update_self, hdefault]
      exact funext fun k => (h.reference_defaults hmem ht k).symm
    · rw [Function.update_of_ne hn]

theorem Reference.set_self (r : Reference L) {bd : Option (KeyBinding L)}
    (h : r.bindings name key = bd) :
    r.set name key bd = r := by
  rw [Reference.set, ← h, Function.update_eq_self, Function.update_eq_self]

/-! ### Adding -/

theorem lookup_add (t : KeyTable L) (key : UInt64) (note : Option String) (repeats : Bool)
    (cmdlist : Option L) :
    (t.add key note repeats cmdlist).keyBindings.lookup key =
      added note repeats cmdlist (t.keyBindings.lookup key) := by
  cases cmdlist with
  | none => cases hbd : t.keyBindings.lookup key <;> simp [KeyTable.add, keyBindingsGet, hbd, added]
  | some cmdlist => simp [KeyTable.add, added]

theorem lookup_add_of_ne (t : KeyTable L) {key k : UInt64} (hk : k ≠ key) (note : Option String)
    (repeats : Bool) (cmdlist : Option L) :
    (t.add key note repeats cmdlist).keyBindings.lookup k = t.keyBindings.lookup k := by
  cases cmdlist with
  | none =>
      cases hbd : t.keyBindings.lookup key with
      | none => simp [KeyTable.add, keyBindingsGet, hbd]
      | some bd =>
          simp only [KeyTable.add, keyBindingsGet, hbd]
          exact Finmap.lookup_insert_of_ne _ hk
  | some cmdlist =>
      exact (Finmap.lookup_insert_of_ne _ hk).trans (Finmap.lookup_erase_ne hk)

theorem add_frame (t : KeyTable L) (key : UInt64) (note : Option String) (repeats : Bool)
    (cmdlist : Option L) : (t.add key note repeats cmdlist).name = t.name ∧
      (t.add key note repeats cmdlist).references = t.references ∧
      (t.add key note repeats cmdlist).defaultKeyBindings = t.defaultKeyBindings := by
  cases cmdlist with
  | none => cases hbd : t.keyBindings.lookup key <;> simp [KeyTable.add, keyBindingsGet, hbd]
  | some cmdlist => exact ⟨rfl, rfl, rfl⟩

theorem keyBindingsAdd_ok (h : Tables s users) (name : String) (key : UInt64) (note : Option String)
    (repeats : Bool) (cmdlist : Option L) :
    ∃ s', keyBindingsAdd s name key note repeats cmdlist = .ok s' ∧ Tables s' users ∧
      s'.reference = s.reference.add name key note repeats cmdlist ∧ s.keyTables ⊆ s'.keyTables ∧
      s'.client = s.client ∧ s'.clients = s.clients ∧ s'.nextClient = s.nextClient := by
  obtain ⟨s₁, table, t, hget, htables₁, hcontents₁, hmem, ht, rfl, hsub, hclient, hclients,
    hnext⟩ :=
    keyBindingsGetTable_true h name
  obtain ⟨hname, hrefs, hdefault⟩ := add_frame t (key &&& ~~~KEYC_MASK_FLAGS) note repeats cmdlist
  refine ⟨_, ?_, htables₁.write ht hname hrefs, ?_, hsub, hclient, hclients, hnext⟩
  · rw [keyBindingsAdd, hget, ok_bind, notNull, ok_bind, deref_eq ht]
    rfl
  · rw [Reference.add, ← State.reference_congr hcontents₁, htables₁.reference_bindings hmem ht]
    exact htables₁.reference_write hmem ht hname hrefs hdefault
      (lookup_add t _ note repeats cmdlist)
      fun k hk => lookup_add_of_ne t hk note repeats cmdlist

/-! ### Removing -/

theorem keys_eq_empty {bindings : Bindings L} : bindings.keys = ∅ ↔ bindings = ∅ := by
  constructor
  · intro h
    refine Finmap.ext_lookup fun k => ?_
    rw [Finmap.lookup_empty, Finmap.lookup_eq_none, ← Finmap.mem_keys, h]
    exact Finset.notMem_empty k
  · rintro rfl
    exact Finmap.keys_empty

/-- A table without bindings is not told from one that is not there. -/
theorem dropEmpty_ok (h : Tables s users) (hmem : table ∈ s.keyTables)
    (ht : s.tables table = some t) :
    ∃ tables keyTables, dropEmpty s table t =
      .ok { s with tables := tables, keyTables := keyTables } ∧
      Tables { s with tables := tables, keyTables := keyTables } users ∧
      ({ s with tables := tables, keyTables := keyTables } : State L).contents = s.contents ∧
      ∀ a, a ∈ keyTables ↔
        a ∈ s.keyTables ∧ ¬(a = table ∧ t.keyBindings = ∅ ∧ t.defaultKeyBindings = ∅) := by
  by_cases hempty : t.keyBindings = ∅ ∧ t.defaultKeyBindings = ∅
  · obtain ⟨tables, hcall, htables, hcontents⟩ := dropTable_ok h hmem ht
    refine ⟨tables, s.keyTables.erase table, ?_, htables, ?_, fun a => ?_⟩
    · rw [dropEmpty, rbEmpty, rbEmpty, decide_eq_true (keys_eq_empty.mpr hempty.1),
        decide_eq_true (keys_eq_empty.mpr hempty.2)]
      exact hcall
    · have hpair := h.contents_eq hmem ht
      rw [hempty.1, hempty.2] at hpair
      rw [hcontents, ← hpair, Function.update_eq_self]
    · rw [h.distinct.mem_erase_iff]
      constructor
      · rintro ⟨hne, ha⟩
        exact ⟨ha, fun heq => hne heq.1⟩
      · rintro ⟨ha, hne⟩
        exact ⟨fun heq => hne ⟨heq, hempty⟩, ha⟩
  · refine ⟨s.tables, s.keyTables, ?_, h, rfl,
      fun a => ⟨fun ha => ⟨ha, fun heq => hempty heq.2⟩, And.left⟩⟩
    have hno : (rbEmpty t.keyBindings && rbEmpty t.defaultKeyBindings) = false := by
      rw [Bool.eq_false_iff]
      intro hboth
      rw [Bool.and_eq_true, rbEmpty, rbEmpty, decide_eq_true_eq, decide_eq_true_eq, keys_eq_empty,
        keys_eq_empty] at hboth
      exact hempty hboth
    rw [dropEmpty, hno]
    rfl

/-- The table of a name, when its last binding is the one of a key and it has no default ones. -/
def LastBinding (s : State L) (name : String) (key : UInt64) (table : Nat) : Prop :=
  s.named name = some table ∧ ∃ t, s.tables table = some t ∧
    keyBindingsGet t (key &&& ~~~KEYC_MASK_FLAGS) ≠ none ∧
    t.keyBindings.erase (key &&& ~~~KEYC_MASK_FLAGS) = ∅ ∧ t.defaultKeyBindings = ∅

theorem keyBindingsRemove_ok (h : Tables s users) (name : String) (key : UInt64) :
    ∃ tables keyTables, keyBindingsRemove s name key =
        .ok { s with tables := tables, keyTables := keyTables } ∧
      Tables { s with tables := tables, keyTables := keyTables } users ∧
      ({ s with tables := tables, keyTables := keyTables } : State L).reference =
        s.reference.remove name key ∧
      ∀ a, a ∈ keyTables ↔ a ∈ s.keyTables ∧ ¬LastBinding s name key a := by
  have hget : ∀ r, removeFrom s key (s.named name) = r → keyBindingsRemove s name key = r :=
    fun r hr => by
    rw [keyBindingsRemove, keyBindingsGetTable_false h, ok_bind]
    exact hr
  cases hnamed : s.named name with
  | none =>
      refine ⟨s.tables, s.keyTables, hget _ (by rw [hnamed]; rfl), h, ?_,
        fun a => ⟨fun ha => ⟨ha, fun hlast => ?_⟩, And.left⟩⟩
      · refine (Reference.set_self _ ?_).symm
        change (s.contents name).1.lookup _ = none
        rw [State.contents_of_none hnamed]
        rfl
      · rw [LastBinding, hnamed] at hlast
        exact absurd hlast.1 (Option.some_ne_none a).symm
  | some table =>
      obtain ⟨hmem, t, ht, rfl⟩ := h.named_eq_some.mp hnamed
      have hlast : ∀ a, LastBinding s t.name key a ↔ a = table ∧
          keyBindingsGet t (key &&& ~~~KEYC_MASK_FLAGS) ≠ none ∧
          t.keyBindings.erase (key &&& ~~~KEYC_MASK_FLAGS) = ∅ ∧ t.defaultKeyBindings = ∅ :=
            fun a => by
        rw [LastBinding, hnamed]
        constructor
        · rintro ⟨heq, u, hu, hrest⟩
          obtain rfl := Option.some.inj heq
          exact ⟨rfl, Option.some.inj (hu.symm.trans ht) ▸ hrest⟩
        · rintro ⟨rfl, hrest⟩
          exact ⟨rfl, t, ht, hrest⟩
      rw [hnamed] at hget
      by_cases hbound : keyBindingsGet t (key &&& ~~~KEYC_MASK_FLAGS) = none
      · refine ⟨s.tables, s.keyTables, hget _ ?_, h, ?_,
          fun a => ⟨fun ha => ⟨ha, fun hl => ?_⟩, And.left⟩⟩
        · rw [removeFrom, deref_eq ht, ok_bind]
          exact if_pos hbound
        · exact (Reference.set_self _ ((h.reference_bindings hmem ht _).trans hbound)).symm
        · exact ((hlast a).mp hl).2.1 hbound
      · obtain ⟨t', ht'⟩ : ∃ t', ({ t with
            keyBindings := t.keyBindings.erase (key &&& ~~~KEYC_MASK_FLAGS) } : KeyTable L) = t' :=
              ⟨_, rfl⟩
        have hname : t'.name = t.name := by rw [← ht']
        have hrefs : t'.references = t.references := by rw [← ht']
        have htables₁ := h.write ht hname hrefs
        have hreference : (s.write table t').reference = s.reference.remove t.name key :=
          h.reference_write hmem ht hname hrefs (by rw [← ht'])
            (by rw [← ht']; exact Finmap.lookup_erase _ _)
            fun k hk => by rw [← ht']; exact Finmap.lookup_erase_ne hk
        obtain ⟨tables, keyTables, hdrop, htables₂, hcontents, hkeep⟩ :=
          dropEmpty_ok htables₁ hmem (Function.update_self _ _ _)
        refine ⟨tables, keyTables, hget _ ?_, htables₂,
          (State.reference_congr hcontents).trans hreference, fun a => ?_⟩
        · rw [removeFrom, deref_eq ht, ok_bind]
          refine (if_neg hbound).trans ?_
          rw [ht']
          exact hdrop
        · rw [hkeep, hlast, ← ht']
          exact and_congr_right fun _ =>
            not_congr ⟨fun hl => ⟨hl.1, hbound, hl.2⟩, fun hl => ⟨hl.1, hl.2.2⟩⟩

end Ztmux.Keys
