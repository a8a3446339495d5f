import Ztmux.Compat.Foreach
import Ztmux.Hyperlinks.Table

/-!
What the operations on hyperlinks keep. The entries of a set are those of the global list
that name it, and both of its trees hold just these. The numbers of a set's entries
follow each other up to the next one, so that the next one is free even after the counter
has wrapped.
-/

namespace Ztmux.Hyperlinks

open Ztmux Ztmux.Compat

/-- The entries of a set, from the oldest on. -/
def State.own (σ : State) (hl : Nat) : List Nat :=
  σ.globalHyperlinks.filter fun p => (σ.uriAt p).tree = hl

structure State.Linked (σ : State) : Prop where
  created : σ.globalHyperlinks.Pairwise (· < ·)
  live : ∀ p, σ.uris p ≠ none ↔ p ∈ σ.globalHyperlinks
  fresh : ∀ p, σ.nextAddress ≤ p → σ.uris p = none ∧ σ.sets p = none
  owner : ∀ p ∈ σ.globalHyperlinks, σ.sets (σ.uriAt p).tree ≠ none
  count : σ.globalHyperlinksCount.toNat = σ.globalHyperlinks.length
  byInner : ∀ hl s, σ.sets hl = some s → s.byInner.Keeps σ.innerKey (σ.own hl).toFinset
  byUri : ∀ hl s, σ.sets hl = some s → s.byUri.Keeps σ.uriKey (σ.own hl).toFinset

/-- The numbers of a set's entries are the last ones it gave. -/
def State.Numbered (σ : State) : Prop :=
  ∀ hl s, σ.sets hl = some s → ∃ first : UInt32,
    (σ.own hl).map (fun p => (σ.uriAt p).inner) =
      (List.range (σ.own hl).length).map (fun i => first + UInt32.ofNat i) ∧
    s.nextInner = first + UInt32.ofNat (σ.own hl).length

variable {σ σ' : State} {hl p : Nat}

theorem uriAt_eq {u : HyperlinksUri} (h : σ.uris p = some u) : σ.uriAt p = u := by
  rw [State.uriAt, h]
  rfl

theorem mem_own : p ∈ σ.own hl ↔ p ∈ σ.globalHyperlinks ∧ (σ.uriAt p).tree = hl := by
  rw [State.own, List.mem_filter, decide_eq_true_iff]

namespace State.Linked

theorem nodup (h : σ.Linked) : σ.globalHyperlinks.Nodup := h.created.imp fun hlt => hlt.ne

theorem uris_eq (h : σ.Linked) (hp : p ∈ σ.globalHyperlinks) : σ.uris p = some (σ.uriAt p) := by
  obtain ⟨u, hu⟩ := Option.ne_none_iff_exists'.mp ((h.live p).mpr hp)
  rw [hu, uriAt_eq hu]

theorem lt_next (h : σ.Linked) (hp : p ∈ σ.globalHyperlinks) : p < σ.nextAddress := by
  by_contra hge
  exact (h.live p).mpr hp (h.fresh p (not_lt.mp hge)).1

end State.Linked

theorem innerKey_congr (q : Nat) (h : σ'.uriAt q = σ.uriAt q) : σ'.innerKey q = σ.innerKey q := by
  rw [State.innerKey, State.innerKey, h]

theorem uriKey_congr (q : Nat) (h : σ'.uriAt q = σ.uriAt q) : σ'.uriKey q = σ.uriKey q := by
  rw [State.uriKey, State.uriKey, h]

/-! ### Removing an entry -/

/-- A set apart from its trees. -/
def HyperlinkSet.plain (s : HyperlinkSet) : UInt32 × UInt32 := (s.nextInner, s.references)

/-- The state without an entry; the trees of its set may be linked otherwise. -/
structure Removed (σ : State) (p : Nat) (σ' : State) : Prop where
  uris : σ'.uris = Function.update σ.uris p none
  list : σ'.globalHyperlinks = σ.globalHyperlinks.erase p
  sets : ∀ hl, (σ'.sets hl).map HyperlinkSet.plain = (σ.sets hl).map HyperlinkSet.plain
  nextAddress : σ'.nextAddress = σ.nextAddress

theorem Removed.uriAt (h : Removed σ p σ') {q : Nat} (hq : q ≠ p) : σ'.uriAt q = σ.uriAt q := by
  rw [State.uriAt, State.uriAt, h.uris, Function.update_of_ne hq]

theorem own_removed (hlinked : σ.Linked) (h : Removed σ p σ') (hl : Nat) :
    σ'.own hl = (σ.own hl).erase p := by
  have hnodup : (σ.own hl).Nodup := hlinked.nodup.filter _
  rw [hnodup.erase_eq_filter, State.own, State.own, h.list, hlinked.nodup.erase_eq_filter,
    List.filter_filter, List.filter_filter]
  refine List.filter_congr fun q hq => ?_
  by_cases hne : q = p
  · simp [hne]
  · rw [h.uriAt hne, Bool.and_comm]

theorem toFinset_own_removed (hlinked : σ.Linked) (h : Removed σ p σ') (hl : Nat) :
    (σ'.own hl).toFinset = (σ.own hl).toFinset.erase p := by
  have hnodup : (σ.own hl).Nodup := hlinked.nodup.filter _
  rw [own_removed hlinked h]
  ext q
  rw [List.mem_toFinset, hnodup.mem_erase_iff, Finset.mem_erase, List.mem_toFinset]

theorem keeps_removed {K : Type} [LinearOrder K] (key : State → Nat → K)
    (hkey : ∀ q, σ'.uriAt q = σ.uriAt q → key σ' q = key σ q) (hlinked : σ.Linked)
    (h : Removed σ p σ') {t : Heap Nat}
    (ht : t.Keeps (key σ) ((σ.own hl).toFinset.erase p)) :
    t.Keeps (key σ') (σ'.own hl).toFinset := by
  rw [toFinset_own_removed hlinked h]
  exact ht.congr fun q hq => hkey q (h.uriAt (Finset.mem_erase.mp hq).1)

theorem hyperlinksRemove_ok (hlinked : σ.Linked) (hp : p ∈ σ.globalHyperlinks) :
    ∃ σ', Returns (fun fuel => hyperlinksRemove fuel σ p) σ' ∧ σ'.Linked ∧ Removed σ p σ' := by
  have hu := hlinked.uris_eq hp
  obtain ⟨s, hs⟩ := Option.ne_none_iff_exists'.mp (hlinked.owner p hp)
  have hown : p ∈ (σ.own (σ.uriAt p).tree).toFinset := List.mem_toFinset.mpr (mem_own.mpr ⟨hp, rfl⟩)
  obtain ⟨byInner, hinner, hinnerRet⟩ := (hlinked.byInner _ _ hs).remove hown
  obtain ⟨byUri, huri, huriRet⟩ := (hlinked.byUri _ _ hs).remove hown
  refine ⟨⟨Function.update σ.sets (σ.uriAt p).tree
    (some { s with byInner := byInner, byUri := byUri }), Function.update σ.uris p none,
    σ.nextAddress, σ.globalHyperlinks.erase p,
    σ.globalHyperlinksCount - 1, σ.nextExternalId⟩, ?_, ?_⟩
  · obtain ⟨m, hm⟩ := hinnerRet
    obtain ⟨n, hn⟩ := huriRet
    dsimp only at hm hn
    refine ⟨max m n, fun fuel hfuel => ?_⟩
    change hyperlinksRemove fuel σ p = _
    rw [hyperlinksRemove, derefUri, hu, ok_bind, derefSet, hs, ok_bind, hm fuel (by omega), ok_bind,
      hn fuel (by omega), ok_bind]
    rfl
  have hremoved : Removed σ p ⟨Function.update σ.sets (σ.uriAt p).tree
      (some { s with byInner := byInner, byUri := byUri }), Function.update σ.uris p none,
      σ.nextAddress, σ.globalHyperlinks.erase p, σ.globalHyperlinksCount - 1,
      σ.nextExternalId⟩ := by
    refine ⟨rfl, rfl, fun hl => ?_, rfl⟩
    by_cases heq : hl = (σ.uriAt p).tree
    · subst heq
      dsimp only
      rw [Function.update_self, hs]
      rfl
    · dsimp only
      rw [Function.update_of_ne heq]
  refine ⟨?_, hremoved⟩
  -- In its own set the entry leaves both trees, and it is in no other.
  have hother : ∀ hl, hl ≠ (σ.uriAt p).tree → (σ.own hl).toFinset.erase p =
      (σ.own hl).toFinset := by
    intro hl hne
    refine Finset.erase_eq_of_notMem fun hmem => hne ?_
    exact ((mem_own.mp (List.mem_toFinset.mp hmem)).2).symm
  constructor
  case created => exact hlinked.created.sublist List.erase_sublist
  case live =>
    intro q
    dsimp only
    rw [hlinked.nodup.mem_erase_iff]
    by_cases hq : q = p
    · simp [hq]
    · rw [Function.update_of_ne hq, hlinked.live]
      exact ⟨fun h => ⟨hq, h⟩, fun h => h.2⟩
  case fresh =>
    intro q hq
    have hne : q ≠ p :=
      fun heq => absurd (hlinked.lt_next hp) (by rw [heq] at hq; exact not_lt.mpr hq)
    have hset : q ≠ (σ.uriAt p).tree := fun heq => by
      rw [← heq, (hlinked.fresh q hq).2] at hs
      cases hs
    dsimp only
    rw [Function.update_of_ne hne, Function.update_of_ne hset]
    exact hlinked.fresh q hq
  case owner =>
    intro q hq
    dsimp only at hq
    obtain ⟨hne, hq⟩ := hlinked.nodup.mem_erase_iff.mp hq
    rw [hremoved.uriAt hne]
    dsimp only
    by_cases heq : (σ.uriAt q).tree = (σ.uriAt p).tree
    · rw [heq, Function.update_self]
      exact Option.some_ne_none _
    · rw [Function.update_of_ne heq]
      exact hlinked.owner q hq
  case count =>
    have hpos := List.length_pos_of_mem hp
    have hcount := hlinked.count
    have hlt := σ.globalHyperlinksCount.toNat_lt
    dsimp only
    rw [List.length_erase_of_mem hp, UInt32.toNat_sub_of_le]
    · rw [hcount]
      rfl
    · rw [UInt32.le_iff_toNat_le, hcount]
      exact hpos
  case byInner =>
    intro hl s' hs'
    refine keeps_removed State.innerKey innerKey_congr hlinked hremoved ?_
    dsimp only at hs'
    by_cases heq : hl = (σ.uriAt p).tree
    · subst heq
      rw [Function.update_self] at hs'
      obtain rfl := Option.some.inj hs'
      exact hinner
    · rw [Function.update_of_ne heq] at hs'
      rw [hother hl heq]
      exact hlinked.byInner hl s' hs'
  case byUri =>
    intro hl s' hs'
    refine keeps_removed State.uriKey uriKey_congr hlinked hremoved ?_
    dsimp only at hs'
    by_cases heq : hl = (σ.uriAt p).tree
    · subst heq
      rw [Function.update_self] at hs'
      obtain rfl := Option.some.inj hs'
      exact huri
    · rw [Function.update_of_ne heq] at hs'
      rw [hother hl heq]
      exact hlinked.byUri hl s' hs'

/-- Removing the oldest entry of all keeps the numbers, and so does removing all of a set. -/
theorem numbered_removed (hlinked : σ.Linked) (hnumbered : σ.Numbered) (h : Removed σ p σ')
    (hfirst : σ.globalHyperlinks.head? = some p) : σ'.Numbered := by
  intro hl s' hs'
  obtain ⟨s, hs, hplain⟩ := Option.map_eq_some_iff.mp
    ((h.sets hl).symm.trans (congrArg (Option.map HyperlinkSet.plain) hs'))
  have hnext : s'.nextInner = s.nextInner := (congrArg Prod.fst hplain).symm
  obtain ⟨first, hinners, hfirstNext⟩ := hnumbered hl s hs
  have hnodup : (σ.own hl).Nodup := hlinked.nodup.filter _
  have hsame : ∀ q ∈ σ'.own hl, (σ'.uriAt q).inner = (σ.uriAt q).inner := by
    intro q hq
    rw [own_removed hlinked h, hnodup.mem_erase_iff] at hq
    rw [h.uriAt hq.1]
  rw [hnext, List.map_congr_left hsame, own_removed hlinked h]
  by_cases hp : p ∈ σ.own hl
  · -- The oldest of all is the oldest of its set.
    obtain ⟨rest, hrest⟩ : ∃ rest, σ.own hl = p :: rest := by
      obtain ⟨ps, hps⟩ := List.head?_eq_some_iff.mp hfirst
      refine ⟨ps.filter fun q => (σ.uriAt q).tree = hl, ?_⟩
      rw [State.own, hps, List.filter_cons_of_pos]
      exact decide_eq_true (mem_own.mp hp).2
    rw [hrest] at hinners hfirstNext ⊢
    rw [List.erase_cons_head]
    rw [List.length_cons] at hinners hfirstNext
    rw [List.range_succ_eq_map, List.map_cons, List.map_cons, List.map_map] at hinners
    refine ⟨first + 1, ?_, ?_⟩
    · rw [(List.cons.inj hinners).2]
      refine List.map_congr_left fun i _ => ?_
      change first + UInt32.ofNat (i + 1) = first + 1 + UInt32.ofNat i
      rw [UInt32.ofNat_add, add_comm (UInt32.ofNat i), add_assoc]
      rfl
    · rw [hfirstNext, UInt32.ofNat_add, add_comm (UInt32.ofNat _), add_assoc]
      rfl
  · rw [List.erase_of_not_mem hp]
    exact ⟨first, hinners, hfirstNext⟩

/-! ### A new set -/

theorem hyperlinksInit_ok (hlinked : σ.Linked) (hnumbered : σ.Numbered) :
    (hyperlinksInit σ).1.Linked ∧ (hyperlinksInit σ).1.Numbered := by
  have hown : (hyperlinksInit σ).1.own σ.nextAddress = [] := by
    rw [State.own, List.filter_eq_nil_iff]
    intro p hp
    have hne := hlinked.owner p hp
    rw [decide_eq_true_iff]
    intro heq
    exact hne (by rw [show (σ.uriAt p).tree = _ from heq]; exact (hlinked.fresh _ (le_refl _)).2)
  have hset : ∀ hl s, (hyperlinksInit σ).1.sets hl = some s →
      (hl = σ.nextAddress ∧ s = ⟨1, ⟨none, fun _ => ⟨none, none, none, .black⟩⟩,
        ⟨none, fun _ => ⟨none, none, none, .black⟩⟩, 1⟩) ∨
      hl ≠ σ.nextAddress ∧ σ.sets hl = some s := by
    intro hl s hs
    by_cases heq : hl = σ.nextAddress
    · subst heq
      refine .inl ⟨rfl, ?_⟩
      have hself : (hyperlinksInit σ).1.sets σ.nextAddress = _ := Function.update_self _ _ _
      exact (Option.some.inj (hself.symm.trans hs)).symm
    · refine .inr ⟨heq, ?_⟩
      have hne : (hyperlinksInit σ).1.sets hl = σ.sets hl := Function.update_of_ne heq _ _
      rw [← hne, hs]
  refine ⟨⟨hlinked.created, hlinked.live, fun p hp => ?_, fun p hp => ?_, hlinked.count,
    fun hl s hs => ?_, fun hl s hs => ?_⟩, fun hl s hs => ?_⟩
  · have hle : σ.nextAddress + 1 ≤ p := hp
    have hne : (hyperlinksInit σ).1.sets p = σ.sets p := Function.update_of_ne (by omega) _ _
    rw [hne]
    exact hlinked.fresh p (by omega)
  · change Function.update σ.sets σ.nextAddress _ (σ.uriAt p).tree ≠ none
    by_cases heq : (σ.uriAt p).tree = σ.nextAddress
    · rw [heq, Function.update_self]
      exact Option.some_ne_none _
    · rw [Function.update_of_ne heq]
      exact hlinked.owner p hp
  · rcases hset hl s hs with ⟨rfl, rfl⟩ | ⟨-, hs⟩
    · rw [hown]
      exact keeps_empty rfl _
    · exact hlinked.byInner hl s hs
  · rcases hset hl s hs with ⟨rfl, rfl⟩ | ⟨-, hs⟩
    · rw [hown]
      exact keeps_empty rfl _
    · exact hlinked.byUri hl s hs
  · rcases hset hl s hs with ⟨rfl, rfl⟩ | ⟨-, hs⟩
    · rw [hown]
      exact ⟨1, rfl, rfl⟩
    · exact hnumbered hl s hs

end Ztmux.Hyperlinks
