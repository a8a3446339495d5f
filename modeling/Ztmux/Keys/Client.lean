import Ztmux.Keys.Sound

/-!
Clients that come, go and change their tables.
-/

namespace Ztmux.Keys

open References

variable {L : Type} {s : State L} {users : Nat → Nat} {table c : Nat} {t : KeyTable L}
    {name : String}

/-- The clients of each table. -/
def State.usersOf (s : State L) (table : Nat) : Nat :=
  s.clients.countP fun c => (s.client c).keytable = table

structure Sound (s : State L) : Prop where
  tables : Tables s s.usersOf
  clients : s.clients.Nodup
  fresh : ∀ c ∈ s.clients, c < s.nextClient

theorem empty_sound : Sound (State.empty : State L) where
  tables :=
    { counted := ⟨fun _ _ ht => (nomatch ht),
      fun _ => by simp [State.inTree, State.usersOf, State.empty]⟩
      distinct := List.nodup_nil
      names := fun _ ha => nomatch ha
      fresh := fun _ _ => rfl }
  clients := List.nodup_nil
  fresh _ hc := nomatch hc

theorem State.usersOf_pos (hc : c ∈ s.clients) : 0 < s.usersOf (s.client c).keytable :=
  List.countP_pos_iff.mpr ⟨c, hc, decide_eq_true rfl⟩

theorem Tables.of_eq (h : Tables s users) {s' : State L} (htables : s'.tables = s.tables)
    (htree : s'.keyTables = s.keyTables) (hnext : s'.nextTable = s.nextTable) :
    Tables s' users := by
  obtain ⟨tables, nextTable, keyTables, client, clients, nextClient⟩ := s'
  subst htables htree hnext
  exact ⟨h.counted, h.distinct, h.names, h.fresh⟩

theorem State.contents_of_eq {s' : State L} (htables : s'.tables = s.tables)
    (htree : s'.keyTables = s.keyTables) : s'.contents = s.contents := by
  funext name
  rw [State.contents, State.contents, State.named, State.named, htables, htree]

theorem takeTable_ok (h : Tables s users) (c : Nat) (name : String) :
    ∃ s' table, takeTable s c name = .ok s' ∧
      Tables s' (Function.update users table (users table + 1)) ∧ s'.contents = s.contents ∧
      table ∈ s'.keyTables ∧ s.keyTables ⊆ s'.keyTables ∧
      s'.client = Function.update s.client c { s.client c with keytable := table } ∧
      s'.clients = s.clients ∧ s'.nextClient = s.nextClient := by
  obtain ⟨s₁, table, t, hget, htables₁, hcontents₁, hmem, ht, -, hsub, hclient, hclients, hnext⟩ :=
    keyBindingsGetTable_true h name
  have htables₂ : Tables ({ s₁ with
      client :=
        Function.update s₁.client c { s₁.client c with keytable := table } } : State L) users :=
    htables₁.of_eq rfl rfl rfl
  obtain ⟨tables, href, htables₃, hcontents₃⟩ := keyBindingsRefTable_ok htables₂ ht
  refine ⟨_, table, ?_, htables₃, ?_, hmem, hsub, by rw [hclient], hclients, hnext⟩
  · rw [takeTable, hget]
    exact href
  · exact hcontents₃.trans ((State.contents_of_eq rfl rfl).trans hcontents₁)

theorem serverClientSetKeyTable_ok (h : Sound s) (hc : c ∈ s.clients) (name : Option String) :
    ∃ s', serverClientSetKeyTable s c name = .ok s' ∧ Sound s' ∧ s'.contents = s.contents ∧
      (s'.client c).keytable ∈ s'.keyTables ∧ s.keyTables ⊆ s'.keyTables ∧
      (∀ d, d ≠ c → s'.client d = s.client d) ∧ s'.clients = s.clients ∧ s'.nextClient =
        s.nextClient := by
  obtain ⟨tables, hunref, htables₁, hcontents₁⟩ :=
    keyBindingsUnrefTable_ok h.tables (State.usersOf_pos hc)
  obtain ⟨s', table, htake, htables₂, hcontents₂, hmem, hsub, hclient, hclients, hnext⟩ :=
    takeTable_ok htables₁ c (name.getD (serverClientGetKeyTable s c))
  have husers : s'.usersOf = Function.update
      (Function.update s.usersOf (s.client c).keytable (s.usersOf (s.client c).keytable - 1)) table
      (Function.update s.usersOf (s.client c).keytable (s.usersOf (s.client c).keytable - 1) table +
        1) := by
    have hkeytable : (fun k => (s'.client k).keytable) =
        Function.update (fun k => (s.client k).keytable) c table := by
      funext k
      rw [hclient]
      by_cases hk : k = c
      · subst hk
        simp only [Function.update_self]
      · simp only [Function.update_of_ne hk]
    funext a
    have hcount := countP_update (fun k => (s.client k).keytable) h.clients hc table a
    rw [← hkeytable] at hcount
    have ha : s'.usersOf a + (if (s.client c).keytable = a then 1 else 0) =
        s.usersOf a + if table = a then 1 else 0 := by
      rw [State.usersOf, hclients]
      exact hcount
    have hpos := State.usersOf_pos hc
    simp only [Function.update_apply]
    grind
  refine ⟨s', ?_, ⟨husers ▸ htables₂, ?_, ?_⟩, hcontents₂.trans hcontents₁, ?_, hsub,
    fun d hd => ?_, hclients, hnext⟩
  · rw [serverClientSetKeyTable, hunref]
    exact htake
  · rw [hclients]
    exact h.clients
  · rw [hclients, hnext]
    exact h.fresh
  · rw [hclient, Function.update_self]
    exact hmem
  · rw [hclient, Function.update_of_ne hd]

theorem serverClientCreate_ok (h : Sound s) :
    ∃ s', serverClientCreate s = .ok s' ∧ Sound s' ∧ s'.contents = s.contents ∧
      (s'.client s.nextClient).keytable ∈ s'.keyTables ∧ s.keyTables ⊆ s'.keyTables ∧
      (∀ d ∈ s.clients, s'.client d = s.client d) ∧ s'.clients = s.clients ++ [s.nextClient] := by
  have hnew : s.nextClient ∉ s.clients := fun hmem => absurd (h.fresh _ hmem) (lt_irrefl _)
  have htables₁ : Tables
      ({ s with client := Function.update s.client s.nextClient ⟨0, none⟩ } : State L)
      s.usersOf := h.tables.of_eq rfl rfl rfl
  obtain ⟨s₂, table, htake, htables₂, hcontents₂, hmem, hsub, hclient, hclients, hnext⟩ :=
    takeTable_ok htables₁ s.nextClient "root"
  have hold : ∀ d ∈ s.clients, s₂.client d = s.client d := fun d hd => by
    have hne : d ≠ s.nextClient := fun heq => hnew (heq ▸ hd)
    rw [hclient, Function.update_of_ne hne]
    exact Function.update_of_ne hne _ _
  have hself : (s₂.client s.nextClient).keytable = table := by
    rw [hclient, Function.update_self]
  obtain ⟨s', hs'⟩ : ∃ s', ({ s₂ with
      clients := s₂.clients ++ [s.nextClient], nextClient := s.nextClient + 1 } : State L) = s' :=
        ⟨_, rfl⟩
  have hclients' : s'.clients = s.clients ++ [s.nextClient] := by
    rw [← hs', ← hclients]
  have husers : s'.usersOf = Function.update s.usersOf table (s.usersOf table + 1) := by
    funext a
    rw [State.usersOf, hclients', List.countP_append, ← hs', List.countP_congr fun d hd => by
      rw [hold d hd]]
    by_cases ha : a = table
    · subst ha
      simp [hself, State.usersOf]
    · simp [hself, Function.update_of_ne ha, State.usersOf, Ne.symm ha]
  have htables' : Tables s' s'.usersOf := by
    rw [husers]
    exact htables₂.of_eq (by rw [← hs']) (by rw [← hs']) (by rw [← hs'])
  refine ⟨s', ?_, ⟨htables', ?_, fun d hd => ?_⟩, ?_, ?_, ?_, ?_, hclients'⟩
  · rw [serverClientCreate]
    rw [htake, ← hs']
    rfl
  · rw [hclients']
    exact List.nodup_append.mpr ⟨h.clients, List.nodup_singleton _, fun a ha b hb heq =>
      hnew (List.mem_singleton.mp hb ▸ heq ▸ ha)⟩
  · have hlast : s'.nextClient = s.nextClient + 1 := by rw [← hs']
    rw [hclients', List.mem_append, List.mem_singleton] at hd
    rw [hlast]
    rcases hd with hd | rfl
    · have hlt := h.fresh d hd
      omega
    · omega
  · rw [← hs']
    exact (State.contents_of_eq rfl rfl).trans (hcontents₂.trans (State.contents_of_eq rfl rfl))
  · rw [← hs']
    exact hself ▸ hmem
  · rw [← hs']
    exact hsub
  · rw [← hs']
    exact hold

theorem serverClientLost_ok (h : Sound s) (hc : c ∈ s.clients) :
    ∃ tables, serverClientLost s c = .ok { s with tables := tables, clients := s.clients.erase c } ∧
      Sound { s with tables := tables, clients := s.clients.erase c } ∧
      ({ s with tables := tables, clients := s.clients.erase c } : State L).contents =
        s.contents := by
  have htables₁ : Tables ({ s with clients := s.clients.erase c } : State L) s.usersOf :=
    h.tables.of_eq rfl rfl rfl
  obtain ⟨tables, hunref, htables₂, hcontents⟩ :=
    keyBindingsUnrefTable_ok htables₁ (State.usersOf_pos hc)
  refine ⟨tables, hunref, ⟨?_, h.clients.erase c, fun d hd => h.fresh d (List.mem_of_mem_erase hd)⟩,
    hcontents.trans (State.contents_of_eq rfl rfl)⟩
  have husers : ({ s with tables := tables, clients := s.clients.erase c } : State L).usersOf =
      Function.update s.usersOf (s.client c).keytable (s.usersOf (s.client c).keytable - 1) := by
    funext a
    have hcount := (List.perm_cons_erase hc).countP_eq fun d => decide ((s.client d).keytable = a)
    rw [List.countP_cons] at hcount
    change (s.clients.erase c).countP _ = _
    by_cases ha : a = (s.client c).keytable
    · subst ha
      rw [Function.update_self, State.usersOf, hcount, decide_eq_true rfl, if_pos rfl]
      rfl
    · rw [Function.update_of_ne ha, State.usersOf, hcount, decide_eq_false (Ne.symm ha),
        if_neg Bool.false_ne_true]
      rfl
  rw [husers]
  exact htables₂

end Ztmux.Keys
