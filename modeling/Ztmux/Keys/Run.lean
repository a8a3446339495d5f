import Ztmux.Keys.Bindings

/-!
Runs of operations on key tables and clients.

The bindings that are found by the names of their tables are what the operations that name them
made. Which table a client has is another matter: two operations take a table out of the tree
and leave it to the clients that use it, which do not see what is bound in its name afterwards.
-/

namespace Ztmux.Keys

variable {L : Type} {s : State L}

inductive Op (L : Type)
  | add (name : String) (key : UInt64) (note : Option String) (repeats : Bool) (cmdlist : Option L)
  | remove (name : String) (key : UInt64)
  | reset (name : String) (key : UInt64)
  | removeTable (name : String)
  | initDone
  | create
  | lost (c : Nat)
  | setKeyTable (c : Nat) (name : Option String)
  /-- The session of a client, or the option of the session, changes. -/
  | setOption (c : Nat) (keyTableOption : Option String)

/-- An operation on a client is one on a client that is connected. -/
def connected (s : State L) (c : Nat) (call : Exec (State L)) : Exec (State L) :=
  if c ∈ s.clients then call else pure s

def State.setOption (s : State L) (c : Nat) (keyTableOption : Option String) : State L :=
  { s with client := Function.update s.client c ⟨(s.client c).keytable, keyTableOption⟩ }

def step (s : State L) : Op L → Exec (State L)
  | .add name key note repeats cmdlist => keyBindingsAdd s name key note repeats cmdlist
  | .remove name key => keyBindingsRemove s name key
  | .reset name key => keyBindingsReset s name key
  | .removeTable name => keyBindingsRemoveTable s name
  | .initDone => keyBindingsInitDone s s.keyTables
  | .create => serverClientCreate s
  | .lost c => connected s c (serverClientLost s c)
  | .setKeyTable c name => connected s c (serverClientSetKeyTable s c name)
  | .setOption c keyTableOption => pure (s.setOption c keyTableOption)

def run : State L → List (Op L) → Exec (State L)
  | s, [] => pure s
  | s, op :: ops => do run (← step s op) ops

/-- The maps after an operation. -/
def Reference.after (r : Reference L) : Op L → Reference L
  | .add name key note repeats cmdlist => r.add name key note repeats cmdlist
  | .remove name key => r.remove name key
  | .reset name key => r.reset name key
  | .removeTable name => r.removeTable name
  | .initDone => r.initDone
  | .create | .lost _ | .setKeyTable _ _ | .setOption _ _ => r

/-! ### Tables in the tree -/

/-- The clients use tables that are in the tree. -/
def State.Held (s : State L) : Prop := ∀ c ∈ s.clients, (s.client c).keytable ∈ s.keyTables

/-- An operation takes the last binding out of a table that a client uses. -/
def Strands (s : State L) (op : Op L) : Prop :=
  ∃ name key table, (op = .remove name key ∨ op = .reset name key) ∧ LastBinding s name key table ∧
    ∃ c ∈ s.clients, (s.client c).keytable = table

theorem held_take {s' : State L} {name : String} {key : UInt64} {op : Op L}
    (hop : ∀ name' key', op = .remove name' key' ∨ op = .reset name' key' ↔ name' = name ∧
      key' = key)
    (hheld : s.Held) (hclient : s'.client = s.client) (hclients : s'.clients = s.clients)
    (hkeep : ∀ a, a ∈ s'.keyTables ↔ a ∈ s.keyTables ∧ ¬LastBinding s name key a) :
    s'.Held ↔ ¬Strands s op := by
  constructor
  · rintro h ⟨name', key', table, heq, hlast, c, hc, rfl⟩
    obtain ⟨rfl, rfl⟩ := (hop name' key').mp heq
    have hin := h c (hclients ▸ hc)
    rw [hclient] at hin
    exact ((hkeep _).mp hin).2 hlast
  · intro hno c hc
    rw [hclients] at hc
    rw [hclient]
    refine (hkeep _).mpr ⟨hheld c hc, fun hlast => hno ?_⟩
    exact ⟨name, key, _, (hop name key).mpr ⟨rfl, rfl⟩, hlast, c, hc, rfl⟩

/-- The operation only adds tables. -/
theorem not_strands {op : Op L} (hop : ∀ name key, op ≠ .remove name key ∧ op ≠ .reset name key) :
    ¬Strands s op := by
  rintro ⟨name, key, table, rfl | rfl, -⟩
  · exact (hop name key).1 rfl
  · exact (hop name key).2 rfl

theorem setOption_sound (h : Sound s) (c : Nat) (o : Option String) :
    Sound (s.setOption c o) ∧ (s.setOption c o).contents = s.contents ∧
      ∀ d, ((s.setOption c o).client d).keytable = (s.client d).keytable := by
  have hkeytable : ∀ d, ((s.setOption c o).client d).keytable = (s.client d).keytable := fun d => by
    change (Function.update s.client c _ d).keytable = _
    by_cases hd : d = c
    · rw [hd, Function.update_self]
    · rw [Function.update_of_ne hd]
  have husers : (s.setOption c o).usersOf = s.usersOf := funext fun a =>
    List.countP_congr fun d _ => by rw [hkeytable]
  exact ⟨⟨husers ▸ h.tables.of_eq rfl rfl rfl, h.clients, h.fresh⟩, State.contents_of_eq rfl rfl,
    hkeytable⟩

/-- What one operation keeps, and whether the clients' tables stay in the tree. -/
theorem step_ok (h : Sound s) (op : Op L) :
    ∃ s', step s op = .ok s' ∧ Sound s' ∧ s'.reference = s.reference.after op ∧
      (s.Held → (s'.Held ↔ ¬Strands s op)) := by
  cases op with
  | add name key note repeats cmdlist =>
      obtain ⟨s', hcall, htables, hreference, hsub, hclient, hclients, hnext⟩ :=
        keyBindingsAdd_ok h.tables name key note repeats cmdlist
      have husers : s'.usersOf = s.usersOf := by
        funext a
        rw [State.usersOf, State.usersOf, hclient, hclients]
      refine ⟨s', hcall, ⟨husers ▸ htables, hclients ▸ h.clients, ?_⟩, hreference, fun hheld =>
        iff_of_true (fun c hc => ?_) (not_strands (by simp))⟩
      · rw [hclients, hnext]
        exact h.fresh
      · rw [hclient]
        exact hsub (hheld c (hclients ▸ hc))
  | remove name key =>
      obtain ⟨tables, keyTables, hcall, htables, hreference, hkeep⟩ :=
        keyBindingsRemove_ok h.tables name key
      refine ⟨_, hcall, ⟨htables, h.clients, h.fresh⟩, hreference, fun hheld =>
        held_take (fun name' key' => ?_) hheld rfl rfl hkeep⟩
      simp [eq_comm]
  | reset name key =>
      obtain ⟨tables, keyTables, hcall, htables, hreference, hkeep⟩ :=
        keyBindingsReset_ok h.tables name key
      refine ⟨_, hcall, ⟨htables, h.clients, h.fresh⟩, hreference, fun hheld =>
        held_take (fun name' key' => ?_) hheld rfl rfl hkeep⟩
      simp [eq_comm]
  | removeTable name =>
      obtain ⟨s', hcall, h', hreference, hclients, hin⟩ := keyBindingsRemoveTable_ok h name
      exact ⟨s', hcall, h', hreference, fun hheld =>
        iff_of_true (fun c hc => hin c (hclients ▸ hc) (hheld c (hclients ▸ hc)))
          (not_strands (by simp))⟩
  | initDone =>
      obtain ⟨tables, hcall, htables, hreference⟩ := keyBindingsInitDone_ok h.tables
      exact ⟨_, hcall, ⟨htables, h.clients, h.fresh⟩, hreference, fun hheld =>
        iff_of_true hheld (not_strands (by simp))⟩
  | create =>
      obtain ⟨s', hcall, h', hcontents, hnew, hsub, hold, hclients⟩ := serverClientCreate_ok h
      refine ⟨s', hcall, h', State.reference_congr hcontents, fun hheld =>
        iff_of_true (fun c hc => ?_) (not_strands (by simp))⟩
      rw [hclients, List.mem_append, List.mem_singleton] at hc
      rcases hc with hc | rfl
      · rw [hold c hc]
        exact hsub (hheld c hc)
      · exact hnew
  | lost c =>
      by_cases hc : c ∈ s.clients
      · obtain ⟨tables, hcall, h', hcontents⟩ := serverClientLost_ok h hc
        refine ⟨_, ?_, h', State.reference_congr hcontents, fun hheld =>
          iff_of_true (fun d hd => hheld d (List.mem_of_mem_erase hd))
            (not_strands (by simp))⟩
        rw [step, connected, if_pos hc, hcall]
      · exact ⟨s, if_neg hc, h, rfl, fun hheld =>
          iff_of_true hheld (not_strands (by simp))⟩
  | setKeyTable c name =>
      by_cases hc : c ∈ s.clients
      · obtain ⟨s', hcall, h', hcontents, hin, hsub, hsame, hclients, -⟩ :=
          serverClientSetKeyTable_ok h hc name
        refine ⟨s', ?_, h', State.reference_congr hcontents, fun hheld =>
          iff_of_true (fun d hd => ?_) (not_strands (by simp))⟩
        · rw [step, connected, if_pos hc, hcall]
        · by_cases hdc : d = c
          · exact hdc ▸ hin
          · rw [hsame d hdc]
            exact hsub (hheld d (hclients ▸ hd))
      · exact ⟨s, if_neg hc, h, rfl, fun hheld =>
          iff_of_true hheld (not_strands (by simp))⟩
  | setOption c o =>
      obtain ⟨h', hcontents, hkeytable⟩ := setOption_sound h c o
      refine ⟨_, rfl, h', State.reference_congr hcontents, fun hheld =>
        iff_of_true (fun d hd => ?_) (not_strands (by simp))⟩
      rw [hkeytable d]
      exact hheld d hd

theorem run_ok (h : Sound s) (ops : List (Op L)) :
    ∃ s', run s ops = .ok s' ∧ Sound s' ∧ s'.reference = ops.foldl Reference.after s.reference := by
  induction ops generalizing s with
  | nil => exact ⟨s, rfl, h, rfl⟩
  | cons op ops ih =>
      obtain ⟨s₁, hstep, h₁, hreference₁, -⟩ := step_ok h op
      obtain ⟨s', hrun, h', hreference'⟩ := ih h₁
      refine ⟨s', ?_, h', ?_⟩
      · rw [run, hstep]
        exact hrun
      · rw [hreference', hreference₁]
        rfl

/-- Every run goes through without a table being used after it was freed; the bindings found are
those of the maps, and each table counts the tree and the clients that use it. -/
theorem key_bindings_run (ops : List (Op L)) :
    ∃ s, run State.empty ops = .ok s ∧
      (∀ name key, s.reference.bindings name key =
        (ops.foldl Reference.after Reference.empty).bindings name key) ∧
      (∀ table t, s.tables table = some t → t.references = (if table ∈ s.keyTables then 1 else 0) +
        s.clients.countP fun c => (s.client c).keytable = table) ∧
      (∀ table ∈ s.keyTables, s.tables table ≠ none) ∧
      ∀ c ∈ s.clients, s.tables (s.client c).keytable ≠ none := by
  obtain ⟨s, hrun, h, hreference⟩ := run_ok (empty_sound (L := L)) ops
  refine ⟨s, hrun, fun name key => ?_, fun table t ht => h.tables.references_eq ht,
    fun table hmem => ?_, fun c hc => ?_⟩
  · rw [hreference]
    rfl
  · obtain ⟨t, ht⟩ := h.tables.live hmem
    rw [ht]
    exact Option.some_ne_none t
  · obtain ⟨t, ht⟩ := h.tables.used (State.usersOf_pos hc)
    rw [ht]
    exact Option.some_ne_none t

end Ztmux.Keys
