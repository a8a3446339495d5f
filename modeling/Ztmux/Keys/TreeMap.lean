import Ztmux.Keys.Tree

/-!
The tree as a map.

After any number of calls the tree should have the last key of each string. It has, as long as
nothing is added that goes on from a key at the end of the tree: the search for it ends there, and
that key is replaced.
-/

namespace Ztmux.Keys.Tree

open Extended (KEYC_UNKNOWN)
open TtyKey

/-- The key of the last call for a string. -/
def lastKey (calls : List (Text × UInt64)) (s : Text) : Option UInt64 :=
  (calls.reverse.find? fun c => decide (c.1 = s)).map Prod.snd

theorem lastKey_append (calls : List (Text × UInt64)) (s : Text) (key : UInt64) (s' : Text) :
    lastKey (calls ++ [(s, key)]) s' = if s' = s then some key else lastKey calls s' := by
  rw [lastKey, List.reverse_append, List.reverse_singleton, List.singleton_append, List.find?_cons]
  by_cases h : s' = s
  · rw [if_pos h, decide_eq_true h.symm]
    rfl
  · rw [if_neg h, decide_eq_false (Ne.symm h)]
    rfl

/-- What the tree is for: each string that has been added is found as it is, with the key of its
last call, and no other one has a key. -/
structure IsMap (calls : List (Text × UInt64)) (t : TtyKey) : Prop where
  added : ∀ s k, lastKey calls s = some k → ∃ place, ttyKeysFind t s = (some place, s.length) ∧
    t.keyAt place = some k
  other : ∀ s, lastKey calls s = none → ∀ place k, ttyKeysFind t s = (some place, s.length) →
    t.keyAt place = some k →
    k = KEYC_UNKNOWN

/-- No call fails, and the tree is the map of the calls. -/
def MapAfter (calls : List (Text × UInt64)) : Prop :=
  ∃ t, addAll .null calls = .ok t ∧ IsMap calls t

/-- A string can be added if it is not empty, and any key whose string it goes on from has been gone
on from before. -/
def Addable (calls : List (Text × UInt64)) (s : Text) : Prop :=
  s ≠ [] ∧ ∀ p k, p <+: s → p ≠ s → lastKey calls p = some k → k ≠ KEYC_UNKNOWN →
  ∃ c ∈ calls, p <+: c.1 ∧ p ≠ c.1

/-- The nodes are those of the strings that have been added and of their beginnings. -/
structure Represents (calls : List (Text × UInt64)) (t : TtyKey) : Prop where
  nonempty : ∀ c ∈ calls, c.1 ≠ []
  known : ∀ s k, lastKey calls s = some k → keyOf t s = some k
  inner : ∀ s, lastKey calls s = none → s ≠ [] → (∃ c ∈ calls, s <+: c.1) →
    keyOf t s = some KEYC_UNKNOWN
  absent : ∀ s, (∀ c ∈ calls, ¬ s <+: c.1) → keyOf t s = none

section

variable {calls : List (Text × UInt64)} {t : TtyKey} {s : Text} {key : UInt64}

theorem addAll_append (t : TtyKey) (calls : List (Text × UInt64)) (s : Text) (key : UInt64) :
    addAll t (calls ++ [(s, key)]) = addAll t calls >>= fun t => ttyKeysAdd t s key := by
  induction calls generalizing t with
  | nil =>
      change (ttyKeysAdd t s key >>= pure) = ttyKeysAdd t s key
      exact bind_pure _
  | cons c calls ih =>
      rw [List.cons_append, addAll, addAll, bind_assoc]
      exact bind_congr fun t => ih t

/-- There is a node for a string exactly when it begins one that has been added. -/
theorem Represents.keyOf_ne_none (h : Represents calls t) (hs : s ≠ []) :
    keyOf t s ≠ none ↔ ∃ c ∈ calls, s <+: c.1 := by
  refine ⟨fun hkey => ?_, fun hmem hkey => ?_⟩
  · by_contra hnone
    exact hkey (h.absent s fun c hc hstarts => hnone ⟨c, hc, hstarts⟩)
  · cases hlast : lastKey calls s with
    | none => cases hkey.symm.trans (h.inner s hlast hs hmem)
    | some k => cases hkey.symm.trans (h.known s k hlast)

/-- Nothing that goes on from where a search stops has a node. -/
theorem Stops.not_longer (h : Represents calls t) {q : Text} (hstop : Stops t q) (hstarts : q <+: s)
    (hne : q ≠ s) :
    keyOf t s = none := by
  obtain ⟨k, hk, -, hleaf⟩ := hstop
  by_contra hkey
  have hq : q ≠ [] := fun hnil => by
    rw [hnil, keyOf_nil] at hk
    cases hk
  obtain ⟨rest, rfl⟩ := hstarts
  obtain ⟨d, rest, rfl⟩ :=
    List.exists_cons_of_ne_nil (show rest ≠ [] from fun hnil => hne (by rw [hnil, List.append_nil]))
  obtain ⟨c, hc, hlong⟩ := (h.keyOf_ne_none (by simp)).mp hkey
  refine (h.keyOf_ne_none (by simp)).mpr ⟨c, hc, ?_⟩ (hleaf d)
  exact List.IsPrefix.trans ⟨rest, by rw [List.append_assoc]; rfl⟩ hlong

theorem Represents.isMap (h : Represents calls t) : IsMap calls t := by
  refine ⟨fun s k hlast => ?_, fun s hlast place k hfind hat => ?_⟩
  · have hkey := h.known s k hlast
    rcases ttyKeysFind1_finds t s 0 with
        ⟨-, hnone, -⟩ | ⟨q, place, k', hq, hstarts, hfind, hkey', hat, -, hstop⟩
    · rw [hkey] at hnone
      cases hnone
    · obtain rfl : q = s := by
        by_contra hne
        rcases hstop with heq | hstop
        · exact hne heq
        · rw [hstop.not_longer h hstarts hne] at hkey
          cases hkey
      obtain rfl := Option.some.inj (hkey.symm.trans hkey')
      rw [Nat.zero_add] at hfind
      exact ⟨place, hfind, hat⟩
  · rcases ttyKeysFind1_finds t s 0 with
        ⟨hnone, -, -⟩ | ⟨q, place', k', hq, hstarts, hfind', hkey', hat', -, -⟩
    · rw [show ttyKeysFind1 t s 0 = _ from hfind] at hnone
      cases hnone
    · obtain ⟨hplace, hlength⟩ := Prod.mk.inj (hfind'.symm.trans hfind)
      obtain rfl := Option.some.inj hplace
      have heq : q = s := hstarts.eq_of_length (by omega)
      subst heq
      obtain rfl := Option.some.inj (hat.symm.trans hat')
      have hmem := (h.keyOf_ne_none hq).mp (by rw [hkey']; exact Option.some_ne_none _)
      exact Option.some.inj (hkey'.symm.trans (h.inner q hlast hq hmem))

/-- Where the search does not stop early, a string can be added. -/
theorem Represents.not_stops (h : Represents calls t) (hadd : Addable calls s) {q : Text}
    (hstarts : q <+: s) (hne : q ≠ s) :
    ¬ Stops t q := by
  rintro ⟨k, hk, hknown, hleaf⟩
  have hq : q ≠ [] := fun hnil => by
    rw [hnil, keyOf_nil] at hk
    cases hk
  have hlonger : ¬ ∃ c ∈ calls, q <+: c.1 ∧ q ≠ c.1 := by
    rintro ⟨c, hc, ⟨rest, hrest⟩, hne⟩
    obtain ⟨d, rest, rfl⟩ :=
      List.exists_cons_of_ne_nil
        (show rest ≠ [] from fun hnil => hne (by rw [← hrest, hnil, List.append_nil]))
    exact (h.keyOf_ne_none (by simp)).mpr ⟨c, hc, rest, by rw [← hrest, List.append_assoc]; rfl⟩
      (hleaf d)
  cases hlast : lastKey calls q with
  | none =>
      have hmem := (h.keyOf_ne_none hq).mp (by rw [hk]; exact Option.some_ne_none _)
      exact hknown (Option.some.inj (hk.symm.trans (h.inner q hlast hq hmem)))
  | some k' =>
      exact hlonger
        (hadd.2 q k' hstarts hne hlast
          (Option.some.inj ((h.known q k' hlast).symm.trans hk) ▸ hknown))

theorem Represents.adds (h : Represents calls t) (hs : s ≠ []) {t' : TtyKey}
    (hadds : Adds key t s t') :
    Represents (calls ++ [(s, key)]) t' := by
  have hmem : ∀ c, c ∈ calls ++ [(s, key)] ↔ c ∈ calls ∨ c = (s, key) := fun c => by simp
  refine ⟨fun c hc => ?_, fun s' k hlast => ?_, fun s' hlast hs' hbegins => ?_,
    fun s' habsent => ?_⟩
  · rcases (hmem c).mp hc with hc | rfl
    · exact h.nonempty c hc
    · exact hs
  · rw [lastKey_append] at hlast
    rw [hadds]
    split_ifs at hlast ⊢ with heq hbegins
    · exact hlast
    · rw [h.known s' k hlast]
      rfl
    · exact h.known s' k hlast
  · rw [lastKey_append] at hlast
    have hne : s' ≠ s := fun heq => by
      rw [if_pos heq] at hlast
      cases hlast
    rw [if_neg hne] at hlast
    rw [hadds, if_neg hne]
    by_cases hbegins' : ∃ c ∈ calls, s' <+: c.1
    · rw [h.inner s' hlast hs' hbegins']
      split_ifs <;> rfl
    · have hstarts : s' <+: s := by
        obtain ⟨c, hc, hstarts⟩ := hbegins
        rcases (hmem c).mp hc with hc | rfl
        · exact absurd ⟨c, hc, hstarts⟩ hbegins'
        · exact hstarts
      rw [if_pos ⟨hs', hstarts⟩, h.absent s' fun c hc hp => hbegins' ⟨c, hc, hp⟩]
      rfl
  · have hnew := habsent (s, key) ((hmem _).mpr (.inr rfl))
    rw [hadds, if_neg (fun heq => hnew (by rw [heq])), if_neg (fun hp => hnew hp.2)]
    exact h.absent s' fun c hc => habsent c ((hmem c).mpr (.inl hc))

/-- A string that can be added is added: its node is new, or gets the new key. -/
theorem Represents.add (h : Represents calls t) (hadd : Addable calls s) :
    ∃ t', ttyKeysAdd t s key = .ok t' ∧ Represents (calls ++ [(s, key)]) t' := by
  rw [ttyKeysAdd, ttyKeysFind]
  rcases ttyKeysFind1_finds t s 0 with
      ⟨hnone, -, -⟩ | ⟨q, place, k, hq, hstarts, hfind, hkey, -, hset, hstop⟩
  · obtain ⟨t', hok, hadds⟩ := ttyKeysAdd1_adds key t hadd.1
    rw [hnone]
    exact ⟨t', hok, h.adds hadd.1 hadds⟩
  · have heq : q = s := by
      by_contra hne
      exact hstop.elim hne (h.not_stops hadd hstarts hne)
    subst heq
    rw [hfind]
    refine ⟨_, rfl, h.adds hadd.1 fun s' => ?_⟩
    rw [hset]
    split_ifs with hsame hbegins
    · rfl
    · obtain ⟨c, hc, hlong⟩ := (h.keyOf_ne_none hq).mp (by rw [hkey]; exact Option.some_ne_none _)
      obtain ⟨k', hk'⟩ :=
        Option.ne_none_iff_exists'.mp
          ((h.keyOf_ne_none hbegins.1).mpr ⟨c, hc, hbegins.2.trans hlong⟩)
      rw [hk']
      rfl
    · rfl

/-- One that cannot be added is not found after it. -/
theorem Represents.not_add (h : Represents calls t) (hadd : ¬ Addable calls s) {t' : TtyKey}
    (hok : ttyKeysAdd t s key = .ok t') : ¬ IsMap (calls ++ [(s, key)]) t' := by
  intro hmap
  obtain ⟨place, hfind, -⟩ := hmap.added s key (by rw [lastKey_append, if_pos rfl])
  rw [ttyKeysAdd, ttyKeysFind] at hok
  by_cases hs : s = []
  · subst hs
    cases t with
    | null => cases hok
    | node ch k left right next => cases hok
  · -- It goes on from a key that nothing goes on from.
    obtain ⟨p, k, hp, hne, hlast, hknown, hnone⟩ : ∃ p k, p <+: s ∧ p ≠ s ∧
        lastKey calls p = some k ∧ k ≠ KEYC_UNKNOWN ∧
        ¬ ∃ c ∈ calls, p <+: c.1 ∧ p ≠ c.1 := by
      by_contra hall
      refine hadd ⟨hs, fun p k hp hne hlast hknown => ?_⟩
      by_contra hnone
      exact hall ⟨p, k, hp, hne, hlast, hknown, hnone⟩
    have hstop : Stops t p := by
      refine ⟨k, h.known p k hlast, hknown, fun d => ?_⟩
      by_contra hkey
      obtain ⟨c, hc, hlong⟩ := (h.keyOf_ne_none (by simp)).mp hkey
      refine hnone ⟨c, hc, List.IsPrefix.trans ⟨[d], rfl⟩ hlong, fun heq => ?_⟩
      have hle := hlong.length_le
      rw [← heq, List.length_append, List.length_singleton] at hle
      omega
    have hgone := hstop.not_longer h hp hne
    rcases ttyKeysFind1_finds t s 0 with
        ⟨-, -, hgo⟩ | ⟨q, place', k', hq, hstarts, hfound, hkey, -, hset, -⟩
    · exact hgo p hp hstop
    · have hqs : q ≠ s := fun heq => by
        rw [heq, hgone] at hkey
        cases hkey
      rw [hfound] at hok
      obtain rfl := Except.ok.inj hok
      rcases ttyKeysFind1_finds (t.setKey place' key) s 0 with
          ⟨hnone', -, -⟩ | ⟨q', place'', k'', -, hstarts', hfound', hkey', -⟩
      · rw [show ttyKeysFind1 (t.setKey place' key) s 0 = _ from hfind] at hnone'
        cases hnone'
      · have hlength := (Prod.mk.inj (hfound'.symm.trans hfind)).2
        have heq : q' = s := hstarts'.eq_of_length (by omega)
        subst heq
        rw [hset, if_neg (Ne.symm hqs), hgone] at hkey'
        cases hkey'

end

theorem represents_nil : Represents [] .null :=
  ⟨fun _ h => (nomatch h), fun _ _ h => (nomatch h), fun _ _ _ ⟨_, h, _⟩ => (nomatch h),
    fun s _ => keyOf_null s⟩

/-- Strings that can be added one after the other are. -/
theorem addAll_represents (calls : List (Text × UInt64))
    (hadd : ∀ before s key, before ++ [(s, key)] <+: calls → Addable before s) :
    ∃ t, addAll .null calls = .ok t ∧ Represents calls t := by
  induction calls using List.reverseRecOn with
  | nil => exact ⟨.null, rfl, represents_nil⟩
  | append_singleton calls c ih =>
      obtain ⟨t, hok, hrep⟩ :=
        ih fun before s key hstarts => hadd before s key (hstarts.trans (List.prefix_append _ _))
      obtain ⟨t', hok', hrep'⟩ := hrep.add (hadd calls c.1 c.2 (List.prefix_refl _))
      exact ⟨t', by rw [addAll_append, hok]; exact hok', hrep'⟩

/-- The tree is a map after every call exactly when every string can be added when it is. -/
theorem mapAfter_iff (calls : List (Text × UInt64)) :
    (∀ before, before <+: calls → MapAfter before) ↔
      ∀ before s key, before ++ [(s, key)] <+: calls → Addable before s := by
  refine ⟨fun hmap before s key hstarts => ?_, fun hadd before hstarts => ?_⟩
  · -- By induction on the calls before this one, which could all be made.
    have hbefore : ∀ n, n ≤ before.length → ∀ first s key, first.length = n →
        first ++ [(s, key)] <+: calls → Addable first s := by
      intro n hn
      induction n using Nat.strong_induction_on with
      | _ n ih =>
          intro first s key hlength hfirst
          obtain ⟨t, hok, hrep⟩ := addAll_represents first fun earlier s' key' hearlier => by
            have hle := hearlier.length_le
            rw [List.length_append, List.length_singleton] at hle
            exact ih earlier.length (by omega) (by omega) earlier s' key' rfl
              (hearlier.trans ((List.prefix_append _ _).trans hfirst))
          obtain ⟨t', hok', hmap'⟩ := hmap _ hfirst
          rw [addAll_append, hok] at hok'
          by_contra hnot
          exact hrep.not_add hnot hok' hmap'
    exact hbefore before.length le_rfl before s key rfl hstarts
  · obtain ⟨t, hok, hrep⟩ := addAll_represents before fun earlier s key hearlier =>
        hadd earlier s key (hearlier.trans hstarts)
    exact ⟨t, hok, hrep.isMap⟩

/-- A string that goes on from the only key takes its place, and the empty string is not a string.
-/
theorem longerString_replaces :
    ¬ MapAfter [([27, 79], 1), ([27, 79, 65], 2)] ∧ ¬ MapAfter [([], 1)] := by
  have hlonger : addAll .null [([27, 79], 1), ([27, 79, 65], 2)] =
      .ok (.node 27 KEYC_UNKNOWN .null .null (.node 79 2 .null .null .null)) := by decide +kernel
  have hempty : addAll .null [([], 1)] = .error .outOfBounds := rfl
  constructor
  · rintro ⟨t, hok, hmap⟩
    obtain rfl := Except.ok.inj (hlonger.symm.trans hok)
    obtain ⟨place, hfind, hat⟩ := hmap.added [27, 79] 1 (by decide)
    have hplace : ttyKeysFind (.node 27 KEYC_UNKNOWN .null .null (.node 79 2 .null .null .null))
        [27, 79] = (some [.next], 2) := by
      decide +kernel
    obtain rfl := Option.some.inj (congrArg Prod.fst (hplace.symm.trans hfind))
    exact absurd hat (by decide +kernel)
  · rintro ⟨t, hok, -⟩
    cases hempty.symm.trans hok

end Ztmux.Keys.Tree
