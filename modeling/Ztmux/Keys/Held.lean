import Ztmux.Keys.Run

/-!
The tables that clients look their keys up in.
-/

namespace Ztmux.Keys

variable {L : Type} {s : State L}

/-- A client's table is the one that is found by its name, and a binding that is added in that name
is one that the client's next key finds. -/
def LooksUp (s : State L) (c : Nat) : Prop :=
  ∃ t, s.tables (s.client c).keytable = some t ∧
    keyBindingsGetTable s t.name false = .ok (s, some (s.client c).keytable) ∧
    ∀ key note repeats cmdlist, ∃ s' t', keyBindingsAdd s t.name key note repeats (some cmdlist) =
      .ok s' ∧
      s'.tables (s'.client c).keytable = some t' ∧
      keyBindingsGet t' (key &&& ~~~KEYC_MASK_FLAGS) =
        some ⟨cmdlist, note, if repeats then KEY_BINDING_REPEAT else 0⟩

theorem looksUp_iff (h : Sound s) (c : Nat) :
    LooksUp s c ↔ (s.client c).keytable ∈ s.keyTables := by
  constructor
  · rintro ⟨t, -, hget, -⟩
    rw [keyBindingsGetTable_false h.tables] at hget
    obtain ⟨-, hnamed⟩ := Prod.mk.inj (Except.ok.inj hget)
    exact (h.tables.named_eq_some.mp hnamed).1
  · intro hmem
    obtain ⟨t, ht⟩ := h.tables.live hmem
    have hnamed := h.tables.named_eq_some.mpr ⟨hmem, t, ht, rfl⟩
    refine ⟨t, ht,
      by rw [keyBindingsGetTable_false h.tables, hnamed], fun key note repeats cmdlist => ?_⟩
    have hget : keyBindingsGetTable s t.name true = .ok (s, some (s.client c).keytable) := by
      rw [keyBindingsGetTable, findTable_ok h.tables, ok_bind, hnamed]
      exact if_pos (.inl (Option.some_ne_none _))
    refine ⟨s.write (s.client c).keytable
      (t.add (key &&& ~~~KEYC_MASK_FLAGS) note repeats (some cmdlist)),
      _, ?_, Function.update_self _ _ _, lookup_add t _ note repeats (some cmdlist)⟩
    rw [keyBindingsAdd, hget, ok_bind, notNull, ok_bind, deref_eq ht]
    rfl

/-- A property of every state of a run. -/
def Always (P : State L → Prop) : State L → List (Op L) → Prop
  | s, [] => P s
  | s, op :: ops => P s ∧ ∀ s', step s op = .ok s' → Always P s' ops

/-- No operation of a run takes the last binding out of a table that a client uses. -/
def NeverStrands : State L → List (Op L) → Prop
  | _, [] => True
  | s, op :: ops => ¬Strands s op ∧ ∀ s', step s op = .ok s' → NeverStrands s' ops

theorem always_held (h : Sound s) (hheld : s.Held) (ops : List (Op L)) :
    Always (fun s => ∀ c ∈ s.clients, LooksUp s c) s ops ↔ NeverStrands s ops := by
  have hlooks : ∀ {s : State L}, Sound s → ((∀ c ∈ s.clients, LooksUp s c) ↔ s.Held) := fun h =>
    forall_congr' fun c => imp_congr_right fun _ => looksUp_iff h c
  induction ops generalizing s with
  | nil => exact iff_of_true ((hlooks h).mpr hheld) trivial
  | cons op ops ih =>
      obtain ⟨s', hstep, h', -, hkeep⟩ := step_ok h op
      have hthis : ∀ P : State L → Prop, (∀ s₁, step s op = .ok s₁ → P s₁) ↔ P s' := fun P =>
        ⟨fun hall => hall s' hstep, fun hP s₁ hs₁ => Except.ok.inj (hstep.symm.trans hs₁) ▸ hP⟩
      rw [Always, NeverStrands, hthis fun s => Always _ s ops, hthis fun s => NeverStrands s ops]
      constructor
      · rintro ⟨-, hrest⟩
        have hfirst : ∀ c ∈ s'.clients, LooksUp s' c := by
          cases ops with
          | nil => exact hrest
          | cons op ops => exact hrest.1
        have hheld' := (hlooks h').mp hfirst
        exact ⟨(hkeep hheld).mp hheld', (ih h' hheld').mp hrest⟩
      · rintro ⟨hno, hrest⟩
        exact ⟨(hlooks h).mpr hheld, (ih h' ((hkeep hheld).mpr hno)).mpr hrest⟩

theorem always_last {P : State L → Prop} {ops : List (Op L)} (h : Always P s ops) {s' : State L}
    (hrun : run s ops = .ok s') : P s' := by
  induction ops generalizing s with
  | nil => exact Except.ok.inj hrun ▸ h
  | cons op ops ih =>
      obtain ⟨s₁, hstep, hrest⟩ := bind_eq_ok.mp hrun
      exact ih (h.2 s₁ hstep) hrest

/-- The clients look their keys up in tables that are found by name, all along a run, exactly when
no operation of the run strands one of them. -/
theorem key_tables_held (ops : List (Op L)) :
    Always (fun s => ∀ c ∈ s.clients, LooksUp s c) State.empty ops ↔ NeverStrands State.empty ops :=
  always_held empty_sound (fun _ hc => absurd hc List.not_mem_nil) ops

/-- The client stays with a table that has left the tree. -/
theorem strand_client : ¬Always (fun s => ∀ c ∈ s.clients, LooksUp s c) (State.empty : State Unit)
    [.create, .add "resize" 97 none false (some ()), .setKeyTable 0 (some "resize"),
      .remove "resize" 97] := by
  intro halways
  obtain ⟨s, hrun, h, -⟩ := run_ok (empty_sound (L := Unit))
    [.create, .add "resize" 97 none false (some ()), .setKeyTable 0 (some "resize"),
      .remove "resize" 97]
  have hread : (run (State.empty : State Unit) [.create, .add "resize" 97 none false (some ()),
      .setKeyTable 0 (some "resize"), .remove "resize" 97]).map
      (fun s => (s.clients, (s.client 0).keytable, s.keyTables)) = .ok ([0], 1, [0]) := by
    decide +kernel
  rw [hrun] at hread
  obtain ⟨hclients, hread⟩ := Prod.mk.inj (Except.ok.inj hread)
  obtain ⟨hkeytable, hkeyTables⟩ := Prod.mk.inj hread
  have hlooks : LooksUp s 0 := always_last halways hrun 0 (by
    rw [hclients]
    exact List.mem_singleton_self 0)
  have hmem := (looksUp_iff h 0).mp hlooks
  rw [hkeytable, hkeyTables] at hmem
  exact absurd hmem (by decide)

end Ztmux.Keys
