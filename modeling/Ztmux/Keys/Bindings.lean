import Ztmux.Keys.Reference

/-!
Resetting a binding, removing a table, and the default bindings.
-/

namespace Ztmux.Keys

variable {L : Type} {s : State L} {users : Nat → Nat} {table : Nat} {t : KeyTable L} {name : String}
    {key : UInt64}

/-! ### Resetting -/

theorem mask_mask (key : UInt64) :
    key &&& ~~~KEYC_MASK_FLAGS &&& ~~~KEYC_MASK_FLAGS = key &&& ~~~KEYC_MASK_FLAGS := by
  rw [UInt64.and_assoc, UInt64.and_self]

theorem keyBindingsReset_ok (h : Tables s users) (name : String) (key : UInt64) :
    ∃ tables keyTables, keyBindingsReset s name key =
        .ok { s with tables := tables, keyTables := keyTables } ∧
      Tables { s with tables := tables, keyTables := keyTables } users ∧
      ({ s with tables := tables, keyTables := keyTables } : State L).reference =
        s.reference.reset name key ∧
      ∀ a, a ∈ keyTables ↔ a ∈ s.keyTables ∧ ¬LastBinding s name key a := by
  have hget : ∀ r, resetIn s name key (s.named name) = r → keyBindingsReset s name key = r :=
    fun r hr => by
    rw [keyBindingsReset, keyBindingsGetTable_false h, ok_bind]
    exact hr
  cases hnamed : s.named name with
  | none =>
      refine ⟨s.tables, s.keyTables, hget _ (by rw [hnamed]; rfl), h, ?_,
        fun a => ⟨fun ha => ⟨ha, fun hlast => ?_⟩, And.left⟩⟩
      · have hnone : s.reference.bindings name (key &&& ~~~KEYC_MASK_FLAGS) = none := by
          change (s.contents name).1.lookup _ = none
          rw [State.contents_of_none hnamed]
          rfl
        rw [Reference.reset, hnone]
        exact (Reference.set_self _ hnone).symm
      · rw [LastBinding, hnamed] at hlast
        exact absurd hlast.1 (Option.some_ne_none a).symm
  | some table =>
      obtain ⟨hmem, t, ht, rfl⟩ := h.named_eq_some.mp hnamed
      rw [hnamed] at hget
      have hbindings := h.reference_bindings hmem ht (key &&& ~~~KEYC_MASK_FLAGS)
      have hdefaults := h.reference_defaults hmem ht (key &&& ~~~KEYC_MASK_FLAGS)
      have hin : ∀ r, resetBinding s t.name table t (key &&& ~~~KEYC_MASK_FLAGS) = r →
          keyBindingsReset s t.name key = r := fun r hr => hget r (by
        rw [resetIn, deref_eq ht, ok_bind]
        exact hr)
      have hlast : ∀ a, LastBinding s t.name key a →
          keyBindingsGet t (key &&& ~~~KEYC_MASK_FLAGS) ≠ none ∧ t.defaultKeyBindings = ∅ := by
        rintro a ⟨heq, u, hu, hbound, -, hempty⟩
        obtain rfl := Option.some.inj (hnamed.symm.trans heq)
        obtain rfl := Option.some.inj (hu.symm.trans ht)
        exact ⟨hbound, hempty⟩
      rw [Reference.reset, hbindings, hdefaults]
      cases hbd : t.keyBindings.lookup (key &&& ~~~KEYC_MASK_FLAGS) with
      | none =>
          refine ⟨s.tables, s.keyTables, hin _ ?_, h,
            (Reference.set_self _ (hbindings.trans hbd)).symm, fun a =>
              ⟨fun ha => ⟨ha, fun hl => (hlast a hl).1 hbd⟩, And.left⟩⟩
          rw [resetBinding, keyBindingsGet, hbd]
          rfl
      | some bd =>
          cases hdd : t.defaultKeyBindings.lookup (key &&& ~~~KEYC_MASK_FLAGS) with
          | none =>
              obtain ⟨tables, keyTables, hcall, htables, hreference, hkeep⟩ :=
                keyBindingsRemove_ok h t.name (key &&& ~~~KEYC_MASK_FLAGS)
              refine ⟨tables, keyTables, hin _ ?_, htables, ?_, fun a => ?_⟩
              · rw [resetBinding, keyBindingsGet, hbd, keyBindingsGetDefault, hdd]
                exact hcall
              · rw [hreference, Reference.remove, mask_mask]
                rfl
              · rw [hkeep, LastBinding, LastBinding, mask_mask]
          | some dd =>
              obtain ⟨t', ht'⟩ : ∃ t', ({ t with
                  keyBindings := t.keyBindings.insert (key &&& ~~~KEYC_MASK_FLAGS)
                    { bd with cmdlist := dd.cmdlist, note := dd.note, flags := dd.flags } } :
                      KeyTable L) = t' :=
                ⟨_, rfl⟩
              have hname : t'.name = t.name := by rw [← ht']
              have hrefs : t'.references = t.references := by rw [← ht']
              refine ⟨_, s.keyTables, hin _ ?_, h.write ht hname hrefs, ?_,
                fun a => ⟨fun ha => ⟨ha, fun hl => ?_⟩, And.left⟩⟩
              · rw [resetBinding, keyBindingsGet, hbd, keyBindingsGetDefault, hdd]
                exact congrArg (fun u => Except.ok (s.write table u)) ht'
              · exact h.reference_write hmem ht hname hrefs (by rw [← ht'])
                  (by rw [← ht']; exact Finmap.lookup_insert _)
                  fun k hk => by rw [← ht']; exact Finmap.lookup_insert_of_ne _ hk
              · rw [(hlast a hl).2, Finmap.lookup_empty] at hdd
                cases hdd

/-! ### Removing a table -/

theorem moveClients_ok (table : Nat) {clients : List Nat} (h : Sound s)
    (hclients : ∀ c ∈ clients, c ∈ s.clients) :
    ∃ s', moveClients (some table) s clients = .ok s' ∧ Sound s' ∧ s'.contents = s.contents ∧
      s'.clients = s.clients ∧ s'.nextClient = s.nextClient ∧
      ∀ c, (s.client c).keytable ∈ s.keyTables ∨ c ∈ clients ∧ (s.client c).keytable = table →
        (s'.client c).keytable ∈ s'.keyTables := by
  induction clients generalizing s with
  | nil =>
      refine ⟨s, rfl, h, rfl, rfl, rfl, fun c hc => ?_⟩
      rcases hc with hc | ⟨hc, -⟩
      · exact hc
      · exact absurd hc List.not_mem_nil
  | cons c clients ih =>
      by_cases huses : (s.client c).keytable = table
      · obtain ⟨s₁, hset, h₁, hcontents₁, hin₁, hsub₁, hsame₁, hclients₁, hnext₁⟩ :=
          serverClientSetKeyTable_ok h (hclients c List.mem_cons_self) none
        obtain ⟨s', hmove, h', hcontents', hclients', hnext', hin'⟩ :=
          ih h₁ fun d hd => hclients₁ ▸ hclients d (.tail _ hd)
        refine ⟨s', ?_, h', hcontents'.trans hcontents₁, hclients'.trans hclients₁,
          hnext'.trans hnext₁, fun d hd => hin' d ?_⟩
        · rw [moveClients, moveClient, if_pos (congrArg some huses), hset, ok_bind]
          exact hmove
        · by_cases hdc : d = c
          · exact .inl (hdc ▸ hin₁)
          · rw [hsame₁ d hdc]
            rcases hd with hd | ⟨hd, heq⟩
            · exact .inl (hsub₁ hd)
            · exact .inr ⟨(List.mem_cons.mp hd).resolve_left hdc, heq⟩
      · obtain ⟨s', hmove, h', hcontents', hclients', hnext', hin'⟩ :=
          ih h fun d hd => hclients d (.tail _ hd)
        refine ⟨s', ?_, h', hcontents', hclients', hnext', fun d hd => hin' d ?_⟩
        · rw [moveClients, moveClient, if_neg fun heq => huses (Option.some.inj heq)]
          exact hmove
        · rcases hd with hd | ⟨hd, heq⟩
          · exact .inl hd
          · rcases List.mem_cons.mp hd with rfl | hd
            · exact absurd heq huses
            · exact .inr ⟨hd, heq⟩

theorem moveClients_none (s : State L) (clients : List Nat) :
    moveClients none s clients = .ok s := by
  induction clients with
  | nil => rfl
  | cons c clients ih =>
      rw [moveClients, moveClient, if_neg (Option.some_ne_none _)]
      exact ih

theorem State.reference_removeTable {s' : State L}
    (hcontents : s'.contents = Function.update s.contents name (∅, ∅)) :
    s'.reference = s.reference.removeTable name := by
  rw [State.reference, Reference.removeTable, hcontents]
  congr 1
  all_goals
    funext n k
    by_cases hn : n = name
    · subst hn
      rw [Function.update_self, Function.update_self, Finmap.lookup_empty]
    · rw [Function.update_of_ne hn, Function.update_of_ne hn]
      rfl

theorem keyBindingsRemoveTable_ok (h : Sound s) (name : String) :
    ∃ s', keyBindingsRemoveTable s name = .ok s' ∧ Sound s' ∧
      s'.reference = s.reference.removeTable name ∧ s'.clients = s.clients ∧
      ∀ c ∈ s.clients, (s.client c).keytable ∈ s.keyTables → (s'.client c).keytable ∈
        s'.keyTables := by
  have hget : ∀ r,
      (dropTable s (s.named name) >>= fun s₁ => moveClients (s.named name) s₁ s₁.clients) = r →
      keyBindingsRemoveTable s name = r := fun r hr => by
    rw [keyBindingsRemoveTable, keyBindingsGetTable_false h.tables, ok_bind]
    exact hr
  cases hnamed : s.named name with
  | none =>
      refine ⟨s, hget _ ?_, h, ?_, rfl, fun c _ hc => hc⟩
      · rw [hnamed, dropTable]
        exact moveClients_none s s.clients
      · refine State.reference_removeTable ?_
        rw [← State.contents_of_none hnamed, Function.update_eq_self]
  | some table =>
      obtain ⟨hmem, t, ht, rfl⟩ := h.tables.named_eq_some.mp hnamed
      obtain ⟨tables, hdrop, htables, hcontents⟩ := dropTable_ok h.tables hmem ht
      have h₁ : Sound
          ({ s with tables := tables, keyTables := s.keyTables.erase table } : State L) :=
        ⟨htables, h.clients, h.fresh⟩
      obtain ⟨s', hmove, h', hcontents', hclients', -, hin⟩ :=
        moveClients_ok table h₁ fun c hc => hc
      refine ⟨s', hget _ ?_, h', ?_, hclients', fun c hc htree => hin c ?_⟩
      · rw [hnamed, hdrop, ok_bind]
        exact hmove
      · exact (State.reference_congr hcontents').trans (State.reference_removeTable hcontents)
      · by_cases huses : (s.client c).keytable = table
        · exact .inr ⟨hc, huses⟩
        · exact .inl ((List.mem_erase_of_ne huses).mpr htree)

/-! ### Default bindings -/

theorem lookup_union (a b : Bindings L) (key : UInt64) :
    (a ∪ b).lookup key = (a.lookup key).or (b.lookup key) := by
  cases ha : a.lookup key with
  | none => exact Finmap.lookup_union_right (Finmap.lookup_eq_none.mp ha)
  | some bd =>
      rw [Finmap.lookup_union_left (Finmap.mem_of_lookup_eq_some ha), ha]
      rfl

/-- The bindings of a table become its default ones as well. -/
def joined (p : Bindings L × Bindings L) : Bindings L × Bindings L := (p.1, p.2 ∪ p.1)

theorem joined_joined (p : Bindings L × Bindings L) : joined (joined p) = joined p := by
  refine congrArg (Prod.mk p.1) (Finmap.ext_lookup fun key => ?_)
  change (p.2 ∪ p.1 ∪ p.1).lookup key = (p.2 ∪ p.1).lookup key
  rw [lookup_union, lookup_union, Option.or_assoc, Option.or_self]

open Classical in
theorem keyBindingsInitDone_contents {ids : List Nat} (h : Tables s users)
    (hids : ids ⊆ s.keyTables) :
    ∃ tables, keyBindingsInitDone s ids = .ok { s with tables := tables } ∧
      Tables { s with tables := tables } users ∧
      ({ s with tables := tables } : State L).contents = fun name =>
        if ∃ a ∈ ids, ∃ t, s.tables a = some t ∧ t.name = name then joined (s.contents name)
        else s.contents name := by
  induction ids generalizing s with
  | nil =>
      refine ⟨s.tables, rfl, h, funext fun name => ?_⟩
      rw [if_neg fun ⟨a, ha, _⟩ => absurd ha List.not_mem_nil]
  | cons a ids ih =>
      have hmem : a ∈ s.keyTables := hids List.mem_cons_self
      obtain ⟨t, ht⟩ := h.live hmem
      obtain ⟨t', ht'⟩ : ∃ t', ({ t with
          defaultKeyBindings := t.defaultKeyBindings ∪ t.keyBindings } : KeyTable L) = t' :=
            ⟨_, rfl⟩
      have hname : t'.name = t.name := by rw [← ht']
      have hrefs : t'.references = t.references := by rw [← ht']
      have hpair : (t'.keyBindings, t'.defaultKeyBindings) = joined (s.contents t.name) := by
        rw [h.contents_eq hmem ht, ← ht']
        rfl
      have hcontents₁ := h.contents_write hmem ht hname hrefs
      rw [hpair] at hcontents₁
      obtain ⟨tables, hcall, htables, hcontents⟩ :=
        ih (h.write ht hname hrefs) fun b hb => hids (.tail _ hb)
      refine ⟨tables, ?_, htables, hcontents.trans (funext fun name => ?_)⟩
      · rw [keyBindingsInitDone, deref_eq ht, ok_bind, ht']
        exact hcall
      · have hsame : ∀ b, (∃ u, (s.write a t').tables b = some u ∧ u.name = name) ↔
            ∃ u, s.tables b = some u ∧ u.name = name := fun b => by
          by_cases hb : b = a
          · subst hb
            change (∃ u, Function.update s.tables b (some t') b = some u ∧ _) ↔ _
            rw [Function.update_self, ht]
            simp [hname]
          · change (∃ u, Function.update s.tables a (some t') b = some u ∧ _) ↔ _
            rw [Function.update_of_ne hb]
        simp only [hsame, hcontents₁]
        by_cases hn : name = t.name
        · subst hn
          rw [Function.update_self, joined_joined, ite_self,
            if_pos ⟨a, List.mem_cons_self, t, ht, rfl⟩]
        · have hcond : (∃ b ∈ ids, ∃ u, s.tables b = some u ∧ u.name = name) ↔
              ∃ b ∈ a :: ids, ∃ u, s.tables b = some u ∧ u.name = name := by
            constructor
            · rintro ⟨b, hb, hu⟩
              exact ⟨b, .tail _ hb, hu⟩
            · rintro ⟨b, hb, u, hu, huname⟩
              rcases List.mem_cons.mp hb with rfl | hb
              · exact absurd (huname.symm.trans (Option.some.inj (hu.symm.trans ht) ▸ rfl)) hn
              · exact ⟨b, hb, u, hu, huname⟩
          rw [Function.update_of_ne hn, if_congr hcond rfl rfl]

theorem keyBindingsInitDone_ok (h : Tables s users) :
    ∃ tables, keyBindingsInitDone s s.keyTables = .ok { s with tables := tables } ∧
      Tables { s with tables := tables } users ∧
      ({ s with tables := tables } : State L).reference = s.reference.initDone := by
  obtain ⟨tables, hcall, htables, hcontents⟩ := keyBindingsInitDone_contents h (List.Subset.refl _)
  have hjoined : ({ s with tables := tables } : State L).contents = fun name =>
      joined (s.contents name) := by
    rw [hcontents]
    funext name
    by_cases hex : ∃ a ∈ s.keyTables, ∃ t, s.tables a = some t ∧ t.name = name
    · rw [if_pos hex]
    · have hnone : s.named name = none := h.named_eq_none.mpr fun a ha t ht hname =>
        hex ⟨a, ha, t, ht, hname⟩
      rw [if_neg hex, State.contents_of_none hnone, joined, Finmap.union_empty]
  refine ⟨tables, hcall, htables, ?_⟩
  rw [State.reference, Reference.initDone, hjoined]
  congr 1
  funext name key
  exact lookup_union _ _ key

end Ztmux.Keys
