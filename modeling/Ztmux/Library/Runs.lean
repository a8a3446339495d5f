import Mathlib

/-!
Runs of one kind.

The places 0, 1, 2, ... have kinds, and some are blank. A run is a longest row of places of one kind
that is not blank. What a search forward and a search back find is said by the places where runs
begin.
-/

namespace Ztmux.Runs

variable {α : Type*} {kind : Nat → Option α} {n a i j p r s : Nat}

/-- A run begins here. -/
def Begins (kind : Nat → Option α) (i : Nat) : Prop :=
  kind i ≠ none ∧ ∀ p, p + 1 = i → kind p ≠ kind i

/-- The first place from `a` on where a run begins, or the end if there is none. -/
structure FirstFrom (kind : Nat → Option α) (n a j : Nat) : Prop where
  le : a ≤ j
  inside : j ≤ n
  begins : j < n → Begins kind j
  first : ∀ i, a ≤ i → i < j → ¬ Begins kind i

/-- The last place before `j` where a run begins. -/
structure LastBefore (kind : Nat → Option α) (j s : Nat) : Prop where
  begins : Begins kind s
  lt : s < j
  last : ∀ i, s < i → i < j → ¬ Begins kind i

/-- All places from `i` to `j`, without `j`, are of this kind. -/
def All (kind : Nat → Option α) (k : Option α) (i j : Nat) : Prop := ∀ q, i ≤ q → q < j → kind q = k

theorem All.succ {k : Option α} (h : All kind k i j) (hj : kind j = k) : All kind k i (j + 1) := by
  intro q hi hq
  rcases Nat.eq_or_lt_of_le (Nat.le_of_lt_succ hq) with rfl | hlt
  · exact hj
  · exact h q hi hlt

theorem All.pred {k : Option α} (h : All kind k (i + 1) j) (hi : kind i = k) : All kind k i j := by
  intro q hq hj
  rcases Nat.eq_or_lt_of_le hq with rfl | hlt
  · exact hi
  · exact h q hlt hj

theorem not_begins_of_blank (h : kind i = none) : ¬ Begins kind i := fun hb => hb.1 h

theorem not_begins_of_same (h : kind p = kind (p + 1)) : ¬ Begins kind (p + 1) :=
  fun hb => hb.2 p rfl h

/-- A run cannot begin in the middle of one. -/
theorem All.not_begins {k : Option α} (h : All kind k i j) {q : Nat} (hi : i < q) (hq : q < j) :
    ¬ Begins kind q := by
  obtain ⟨p, rfl⟩ := Nat.exists_eq_add_one_of_ne_zero (Nat.ne_of_gt (Nat.zero_lt_of_lt hi))
  exact not_begins_of_same
    ((h p (Nat.le_of_lt_succ hi) (Nat.lt_of_succ_lt hq)).trans (h (p + 1) hi.le hq).symm)

/-- Behind the rest of a run and the blanks after it the next run begins. -/
theorem firstFrom_of_run (hrun : All kind (kind i) i r) (hir : i < r) (hblank : All kind none r j)
    (hrj : r ≤ j)
    (hjn : j ≤ n) (hr : r < n → kind r ≠ kind i) (hj : j < n → kind j ≠ none) :
    FirstFrom kind n (i + 1) j := by
  refine ⟨hir.trans_le hrj, hjn, fun hlt => ⟨hj hlt, fun p hp heq => ?_⟩, fun q hq hlt => ?_⟩
  · rcases Nat.eq_or_lt_of_le hrj with rfl | hlong
    · exact hr hlt (heq.symm.trans (hrun p (by omega) (by omega)))
    · exact hj hlt (heq.symm.trans (hblank p (by omega) (by omega)))
  · by_cases hqr : q < r
    · exact hrun.not_begins hq hqr
    · exact not_begins_of_blank (hblank q (Nat.not_lt.mp hqr) hlt)

/-- Behind blanks a run begins. -/
theorem firstFrom_of_blank (hblank : All kind none i j) (hij : i < j) (hjn : j ≤ n)
    (hj : j < n → kind j ≠ none) :
    FirstFrom kind n (i + 1) j := by
  refine ⟨hij, hjn, fun hlt => ⟨hj hlt, fun p hp heq => ?_⟩, fun q hq hlt => ?_⟩
  · exact hj hlt (heq.symm.trans (hblank p (by omega) (by omega)))
  · exact not_begins_of_blank (hblank q (Nat.le_of_succ_le hq) hlt)

/-- Where no run begins, the search may as well start one later. -/
theorem FirstFrom.of_not_begins (h : FirstFrom kind n (a + 1) j) (ha : ¬ Begins kind a) :
    FirstFrom kind n a j := by
  refine ⟨Nat.le_of_succ_le h.le, h.inside, h.begins, fun q hq hlt => ?_⟩
  rcases Nat.eq_or_lt_of_le hq with rfl | hlt'
  · exact ha
  · exact h.first q hlt' hlt

theorem FirstFrom.unique (h : FirstFrom kind n a j) {j' : Nat} (h' : FirstFrom kind n a j') :
    j = j' := by
  rcases Nat.lt_trichotomy j j' with hlt | heq | hlt
  · exact absurd (h.begins (hlt.trans_le h'.inside)) (h'.first j h.le hlt)
  · exact heq
  · exact absurd (h'.begins (hlt.trans_le h.inside)) (h.first j' h'.le hlt)

theorem exists_firstFrom (kind : Nat → Option α) (h : a ≤ n) : ∃ j, FirstFrom kind n a j := by
  induction hd : n - a generalizing a with
  | zero =>
      exact ⟨a, Nat.le_refl a, h, fun hlt => absurd hlt (by omega),
        fun i hi hlt => absurd hi (Nat.not_le.mpr hlt)⟩
  | succ d ih =>
      by_cases ha : Begins kind a
      · exact ⟨a, Nat.le_refl a, h, fun _ => ha, fun i hi hlt => absurd hi (Nat.not_le.mpr hlt)⟩
      · obtain ⟨j, hj⟩ := ih (by omega : a + 1 ≤ n) (by omega)
        exact ⟨j, hj.of_not_begins ha⟩

/-- Before blanks, the last run begins where its kind does. -/
theorem lastBefore_of_run (hp : kind p ≠ none) (hrun : All kind (kind p) s (p + 1)) (hsp : s ≤ p)
    (hs : ∀ q, q + 1 = s → kind q ≠ kind p) (hblank : All kind none (p + 1) j) (hpj : p < j) :
    LastBefore kind j s := by
  have hkind : kind s = kind p := hrun s (Nat.le_refl s) (Nat.lt_succ_of_le hsp)
  refine ⟨⟨fun h => hp (hkind.symm.trans h), fun q hq h => hs q hq (h.trans hkind)⟩,
    hsp.trans_lt hpj, fun q hq hlt => ?_⟩
  by_cases hqp : q < p + 1
  · exact hrun.not_begins hq hqp
  · exact not_begins_of_blank (hblank q (Nat.not_lt.mp hqp) hlt)

theorem LastBefore.unique (h : LastBefore kind j s) {s' : Nat} (h' : LastBefore kind j s') :
    s = s' := by
  rcases Nat.lt_trichotomy s s' with hlt | heq | hlt
  · exact absurd h'.begins (h.last s' hlt h'.lt)
  · exact heq
  · exact absurd h.begins (h'.last s hlt h.lt)

/-- Where only blanks are before, no run begins before. -/
theorem not_lastBefore (hblank : All kind none 0 j) : ¬ LastBefore kind j s := fun h =>
  h.begins.1 (hblank s (Nat.zero_le s) h.lt)

/-- After a place that is not blank, some run has begun. -/
theorem exists_lastBefore (hp : kind p ≠ none) (hpj : p < j) : ∃ s, LastBefore kind j s := by
  -- Downwards from `j`, to the first place where a run begins.
  have hdown : ∀ i, i ≤ j → (∃ s, s < i ∧ Begins kind s) → (∀ q, i ≤ q → q < j → ¬ Begins kind q) →
      ∃ s, LastBefore kind j s := by
    intro i
    induction i with
    | zero => exact fun _ ⟨s, hs, _⟩ => absurd hs (Nat.not_lt_zero s)
    | succ i ih =>
        intro hij hsome hnone
        by_cases hi : Begins kind i
        · exact ⟨i, hi, hij, hnone⟩
        · obtain ⟨s, hs, hbegins⟩ := hsome
          refine ih (Nat.le_of_succ_le hij) ⟨s, ?_, hbegins⟩ fun q hq hlt => ?_
          · exact (Nat.lt_or_eq_of_le (Nat.le_of_lt_succ hs)).resolve_right fun heq =>
              hi (heq ▸ hbegins)
          · rcases Nat.eq_or_lt_of_le hq with rfl | hq
            · exact hi
            · exact hnone q hq hlt
  refine hdown j (Nat.le_refl j) ?_ fun q hq hlt => absurd hq (Nat.not_le.mpr hlt)
  by_contra hnot
  -- Without any, the kind is the same from the place back to the first one, which then begins a
  -- run.
  have hback : ∀ d, d ≤ p → kind (p - d) = kind p := by
    intro d hd
    induction d with
    | zero => rfl
    | succ d ih =>
        by_contra hne
        refine hnot ⟨p - d,
          by omega, fun hnil => hp ((ih (by omega)).symm.trans hnil), fun q hq heq => hne ?_⟩
        obtain rfl : q = p - (d + 1) := by omega
        exact heq.trans (ih (by omega))
  refine hnot ⟨0, by omega, fun hnil => hp ?_, fun q hq => (nomatch hq)⟩
  exact (Nat.sub_self p ▸ hback p (Nat.le_refl p)).symm.trans hnil

/-- Between the beginnings of a run and of the next one, a place that is not blank is of the run. -/
theorem LastBefore.run (h : LastBefore kind j s) (hfirst : FirstFrom kind n (i + 1) j)
    (hi : kind i ≠ none) :
    s ≤ i ∧ All kind (kind i) s (i + 1) := by
  have hsi : s ≤ i := Nat.not_lt.mp fun hlt => hfirst.first s hlt h.lt h.begins
  refine ⟨hsi, ?_⟩
  -- Downwards from the place, as long as no run begins.
  have hdown : ∀ d, d ≤ i - s → All kind (kind i) (i - d) (i + 1) := by
    intro d hd
    induction d with
    | zero => exact fun q hq hlt => congrArg kind (by omega)
    | succ d ih =>
        have hrun := ih (by omega)
        have hhere : kind (i - d) = kind i := hrun (i - d) (Nat.le_refl _) (by omega)
        have hsucc : i - (d + 1) + 1 = i - d := by omega
        have hnot := h.last (i - d) (by omega) (by have := hfirst.le; omega)
        have hsame : kind (i - (d + 1)) = kind i := by
          by_contra hne
          refine hnot ⟨fun hnone => hi (hhere.symm.trans hnone), fun q hq heq => hne ?_⟩
          obtain rfl : q = i - (d + 1) := by omega
          exact heq.trans hhere
        exact All.pred (by rw [hsucc]; exact hrun) hsame
  have hall := hdown (i - s) (Nat.le_refl _)
  rwa [Nat.sub_sub_self hsi] at hall

/-! ### Blanks that are read as something else

`shown` says what the places are, and `read` what they are read as: some blanks are not read as
such. -/

section

variable {shown read : Nat → Option α}

/-- From `i` to the next run, a blank that is not read as one goes on like the place before and ends
before the next. -/
def Harmless (shown read : Nat → Option α) (n i : Nat) : Prop :=
  ∀ h, i ≤ h → h < n → shown h = none → read h ≠ none → (∀ q, i ≤ q → q ≤ h → ¬ Begins shown q) →
    (∀ p, p + 1 = h → read p = read h) ∧ shown (h + 1) ≠ read h

theorem FirstFrom.of_harmless (hread : ∀ p, shown p ≠ none → read p = shown p)
    (hi : ∀ p, p + 1 = i → read p = shown p)
    (hharmless : Harmless shown read n i) (hpos : 0 < i) (h : FirstFrom shown n i j) :
    FirstFrom read n i j := by
  have hnone : ∀ h, i ≤ h → h < j → shown h = none → read h ≠ none →
      (∀ p, p + 1 = h → read p = read h) ∧ shown (h + 1) ≠ read h :=
    fun q hq hlt hs hr => hharmless q hq (hlt.trans_le h.inside) hs hr fun q' hq' hle =>
      h.first q' hq' (hle.trans_lt hlt)
  refine ⟨h.le, h.inside, fun hlt => ?_, fun q hq hlt hbegins => ?_⟩
  · obtain ⟨hne, hbefore⟩ := h.begins hlt
    rw [Begins, hread j hne]
    refine ⟨hne, fun p hp heq => ?_⟩
    by_cases hsp : shown p = none
    · by_cases hrp : read p = none
      · exact hne (heq.symm.trans hrp)
      · rcases Nat.eq_or_lt_of_le h.le with rfl | hij
        · exact hrp ((hi p hp).trans hsp)
        · have hnext := (hnone p (by omega) (by omega) hsp hrp).2
          rw [hp] at hnext
          exact hnext heq.symm
    · exact hbefore p hp ((hread p hsp).symm.trans heq)
  · obtain ⟨p, rfl⟩ := Nat.exists_eq_add_one_of_ne_zero (Nat.ne_of_gt (hpos.trans_le hq))
    by_cases hs : shown (p + 1) = none
    · exact hbegins.2 p rfl ((hnone (p + 1) hq hlt hs hbegins.1).1 p rfl)
    · have hsame : shown p = shown (p + 1) := by
        by_contra hne
        exact h.first (p + 1) hq hlt ⟨hs, fun p' hp' => Nat.succ.inj hp' ▸ hne⟩
      refine hbegins.2 p rfl ?_
      rw [hread (p + 1) hs, hread p (hsame ▸ hs), hsame]

/-- The next run is found where only harmless blanks are read as something else, and nowhere else.
-/
theorem firstFrom_read_iff (hread : ∀ p, shown p ≠ none → read p = shown p)
    (hi : ∀ p, p + 1 = i → read p = shown p)
    (hpos : 0 < i) (hend : shown n = none) (h : FirstFrom shown n i j) :
    FirstFrom read n i j ↔ Harmless shown read n i := by
  refine ⟨fun hr q hq hqn hs hrq hnone => ?_, fun hharmless => h.of_harmless hread hi hharmless
    hpos⟩
  have hqj : q < j := Nat.not_le.mp fun hjq => hnone j h.le hjq (h.begins (hjq.trans_lt hqn))
  refine ⟨fun p hp => ?_, fun heq => ?_⟩
  · by_contra hne
    refine hr.first q hq hqj ⟨hrq, fun p' hp' => ?_⟩
    obtain rfl := Nat.succ.inj (hp'.trans hp.symm)
    exact hne
  · have hsucc : shown (q + 1) ≠ none := fun hnil => hrq (heq.symm.trans hnil)
    have hbegins : Begins shown (q + 1) :=
      ⟨hsucc, fun p hp hsame => hsucc (hsame.symm.trans (Nat.succ.inj hp ▸ hs))⟩
    have hjq : j = q + 1 :=
      Nat.le_antisymm (Nat.not_lt.mp fun hlt => h.first (q + 1) (Nat.le_succ_of_le hq) hlt hbegins)
        hqj
    have hjn : j < n :=
      (Nat.lt_or_eq_of_le h.inside).resolve_right fun hjn => hsucc (by rw [← hjq, hjn, hend])
    refine (hr.begins hjn).2 q hjq.symm ?_
    rw [hjq, hread (q + 1) hsucc, heq]

end

end Ztmux.Runs
