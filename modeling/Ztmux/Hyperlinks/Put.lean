import Ztmux.Hyperlinks.Linked

/-!
Putting a hyperlink. A new entry goes to the end of the list; when the list is full
then, the first entry is taken out of its own set, which may be another one.
-/

namespace Ztmux.Hyperlinks

open Ztmux Ztmux.Compat

/-- What every call on the sets leaves behind. -/
structure State.Sound (σ : State) : Prop where
  linked : σ.Linked
  numbered : σ.Numbered
  below : σ.globalHyperlinks.length < 5000

variable {σ σ' : State} {hl p : Nat} {s : HyperlinkSet} {u : HyperlinksUri}

theorem State.empty_sound : State.empty.Sound := by
  refine ⟨⟨List.Pairwise.nil, fun p => ?_, fun p _ => ⟨rfl, rfl⟩, fun p hp => ?_, rfl, ?_, ?_⟩, ?_,
    ?_⟩
  · exact ⟨fun h => absurd rfl h, fun h => absurd h List.not_mem_nil⟩
  · exact absurd hp List.not_mem_nil
  · intro hl s hs
    cases hs
  · intro hl s hs
    cases hs
  · intro hl s hs
    cases hs
  · decide

/-- The number that a set gives next is none of its entries'. -/
theorem inner_ne_next (hsound : σ.Sound) (hs : σ.sets hl = some s) (hp : p ∈ σ.own hl) :
    (σ.uriAt p).inner ≠ s.nextInner := by
  obtain ⟨first, hinners, hnext⟩ := hsound.numbered hl s hs
  have hmem : (σ.uriAt p).inner ∈ (σ.own hl).map fun p => (σ.uriAt p).inner :=
    List.mem_map_of_mem hp
  rw [hinners] at hmem
  obtain ⟨i, hi, hinner⟩ := List.mem_map.mp hmem
  have hlen : (σ.own hl).length ≤ σ.globalHyperlinks.length := List.length_filter_le _ _
  have hbelow := hsound.below
  rw [List.mem_range] at hi
  rw [← hinner, hnext]
  intro heq
  have hnat : (UInt32.ofNat i).toNat = (UInt32.ofNat (σ.own hl).length).toNat :=
    congrArg UInt32.toNat (add_left_cancel heq)
  rw [UInt32.toNat_ofNat', UInt32.toNat_ofNat'] at hnat
  omega

/-! ### A new entry -/

/-- The state with a new entry on the list and in the trees of its set. -/
def State.added (σ : State) (u : HyperlinksUri) (s : HyperlinkSet) (byInner byUri : Heap Nat) :
    State :=
  { σ.allocUri u with
    sets := Function.update σ.sets u.tree
      (some { s with nextInner := s.nextInner + 1, byInner := byInner, byUri := byUri })
    globalHyperlinks := σ.globalHyperlinks ++ [σ.nextAddress]
    globalHyperlinksCount := σ.globalHyperlinksCount + 1 }

theorem uriAt_alloc_self : (σ.allocUri u).uriAt σ.nextAddress = u := by
  rw [State.uriAt, State.allocUri]
  dsimp only
  rw [Function.update_self]
  rfl

theorem uriAt_alloc_of_ne (h : p ≠ σ.nextAddress) : (σ.allocUri u).uriAt p = σ.uriAt p := by
  rw [State.uriAt, State.allocUri]
  dsimp only
  rw [Function.update_of_ne h]
  rfl

theorem State.Linked.ne_next (h : σ.Linked) (hp : p ∈ σ.globalHyperlinks) : p ≠ σ.nextAddress :=
  (h.lt_next hp).ne

theorem own_added (h : σ.Linked) (byInner byUri : Heap Nat) (hl : Nat) :
    (σ.added u s byInner byUri).own hl =
      σ.own hl ++ if u.tree = hl then [σ.nextAddress] else [] := by
  have hself : (σ.added u s byInner byUri).uriAt σ.nextAddress = u := uriAt_alloc_self
  have hother : ∀ p ∈ σ.globalHyperlinks, (σ.added u s byInner byUri).uriAt p = σ.uriAt p :=
    fun p hp => uriAt_alloc_of_ne (h.ne_next hp)
  have hlist : (σ.added u s byInner byUri).globalHyperlinks =
      σ.globalHyperlinks ++ [σ.nextAddress] := rfl
  rw [State.own, State.own, hlist, List.filter_append]
  congr 1
  · exact List.filter_congr fun p hp => by rw [hother p hp]
  · split_ifs with heq
    · rw [List.filter_cons_of_pos (by rw [hself]; exact decide_eq_true heq), List.filter_nil]
    · rw [List.filter_cons_of_neg (by rw [hself]; simpa using heq), List.filter_nil]

theorem keeps_added {K : Type} [LinearOrder K] (key : State → Nat → K)
    (hkey : ∀ {σ σ' : State} (q : Nat), σ'.uriAt q = σ.uriAt q → key σ' q = key σ q)
    (h : σ.Linked) (byInner byUri : Heap Nat) {t : Heap Nat} {hl : Nat}
    (ht : t.Keeps (key (σ.allocUri u))
      (if u.tree = hl then insert σ.nextAddress (σ.own hl).toFinset else (σ.own hl).toFinset)) :
    t.Keeps (key (σ.added u s byInner byUri)) ((σ.added u s byInner byUri).own hl).toFinset := by
  have hfinset : ((σ.added u s byInner byUri).own hl).toFinset =
      if u.tree = hl then insert σ.nextAddress (σ.own hl).toFinset else (σ.own hl).toFinset := by
    rw [own_added h]
    split_ifs
    · rw [List.toFinset_append]
      ext q
      simp
    · rw [List.append_nil]
  rw [hfinset]
  exact ht.congr fun q _ => hkey q rfl

/-- A tree of a set takes the new entry, whose key none of the others has. -/
theorem insert_new {K : Type} [LinearOrder K] (key : State → Nat → K)
    (hkey : ∀ {σ σ' : State} (q : Nat), σ'.uriAt q = σ.uriAt q → key σ' q = key σ q)
    (h : σ.Linked) {t : Heap Nat} (ht : t.Keeps (key σ) (σ.own hl).toFinset)
    (hfree : ∀ q ∈ σ.own hl, key σ q ≠ key (σ.allocUri u) σ.nextAddress) :
    ∃ t' : Heap Nat, t'.Keeps (key (σ.allocUri u)) (insert σ.nextAddress (σ.own hl).toFinset) ∧
      Returns (fun fuel => rbInsert (key (σ.allocUri u)) fuel t σ.nextAddress) (t', none) := by
  have hsame : ∀ q ∈ (σ.own hl).toFinset, key (σ.allocUri u) q = key σ q := fun q hq =>
    hkey q (uriAt_alloc_of_ne (h.ne_next (mem_own.mp (List.mem_toFinset.mp hq)).1))
  rcases (ht.congr hsame).insert σ.nextAddress with ⟨q, hq, heq, -⟩ | ⟨-, t', ht', hret⟩
  · rw [hsame q hq] at heq
    exact absurd heq (hfree q (List.mem_toFinset.mp hq))
  · exact ⟨t', ht', hret⟩

theorem linked_added (h : σ.Linked) (hs : σ.sets u.tree = some s)
    (hlen : σ.globalHyperlinks.length < 5000)
    {byInner byUri : Heap Nat}
    (hinner : byInner.Keeps (σ.allocUri u).innerKey (insert σ.nextAddress (σ.own u.tree).toFinset))
    (huri : byUri.Keeps (σ.allocUri u).uriKey (insert σ.nextAddress (σ.own u.tree).toFinset)) :
    (σ.added u s byInner byUri).Linked := by
  have halloc : ∀ hl, hl ≠ u.tree → ∀ q ∈ (σ.own hl).toFinset, (σ.allocUri u).uriAt q = σ.uriAt q :=
    fun hl _ q hq => uriAt_alloc_of_ne (h.ne_next (mem_own.mp (List.mem_toFinset.mp hq)).1)
  have htree : u.tree ≠ σ.nextAddress := fun heq => by
    rw [heq, (h.fresh _ (le_refl _)).2] at hs
    cases hs
  have hset : ∀ hl s', (σ.added u s byInner byUri).sets hl = some s' →
      hl = u.tree ∧
      s' = { s with nextInner := s.nextInner + 1, byInner := byInner, byUri := byUri } ∨
      hl ≠ u.tree ∧ σ.sets hl = some s' := by
    intro hl s' hs'
    change Function.update σ.sets u.tree _ hl = some s' at hs'
    by_cases heq : hl = u.tree
    · rw [heq, Function.update_self] at hs'
      exact .inl ⟨heq, (Option.some.inj hs').symm⟩
    · rw [Function.update_of_ne heq] at hs'
      exact .inr ⟨heq, hs'⟩
  constructor
  case created =>
    refine List.pairwise_append.mpr ⟨h.created, List.pairwise_singleton _ _, fun p hp q hq => ?_⟩
    rw [List.mem_singleton.mp hq]
    exact h.lt_next hp
  case live =>
    intro q
    change Function.update σ.uris σ.nextAddress _ q ≠ none ↔
      q ∈ σ.globalHyperlinks ++ [σ.nextAddress]
    rw [List.mem_append, List.mem_singleton]
    by_cases hq : q = σ.nextAddress
    · simp [hq]
    · rw [Function.update_of_ne hq, h.live]
      simp [hq]
  case fresh =>
    intro q hq
    have hle : σ.nextAddress + 1 ≤ q := hq
    change Function.update σ.uris σ.nextAddress _ q = none ∧ Function.update σ.sets u.tree _ q =
      none
    have hfresh := h.fresh q (by omega)
    have hne : q ≠ u.tree := fun heq => by
      rw [heq, hs] at hfresh
      cases hfresh.2
    rw [Function.update_of_ne (by omega), Function.update_of_ne hne]
    exact hfresh
  case owner =>
    intro q hq
    change Function.update σ.sets u.tree _ ((σ.allocUri u).uriAt q).tree ≠ none
    by_cases heq : ((σ.allocUri u).uriAt q).tree = u.tree
    · rw [heq, Function.update_self]
      exact Option.some_ne_none _
    · rw [Function.update_of_ne heq]
      rcases List.mem_append.mp hq with hq | hq
      · rw [uriAt_alloc_of_ne (h.ne_next hq)]
        exact h.owner q hq
      · rw [List.mem_singleton.mp hq, uriAt_alloc_self] at heq
        exact absurd rfl heq
  case count =>
    change (σ.globalHyperlinksCount + 1).toNat = (σ.globalHyperlinks ++ [σ.nextAddress]).length
    have hcount := h.count
    rw [UInt32.toNat_add, List.length_append, hcount]
    exact Nat.mod_eq_of_lt (by simp only [UInt32.reduceToNat]; omega)
  case byInner =>
    intro hl s' hs'
    refine keeps_added State.innerKey innerKey_congr h byInner byUri ?_
    rcases hset hl s' hs' with ⟨rfl, rfl⟩ | ⟨hne, hs'⟩
    · rw [if_pos rfl]
      exact hinner
    · rw [if_neg hne.symm]
      exact (h.byInner hl s' hs').congr fun q hq => innerKey_congr q (halloc hl hne q hq)
  case byUri =>
    intro hl s' hs'
    refine keeps_added State.uriKey uriKey_congr h byInner byUri ?_
    rcases hset hl s' hs' with ⟨rfl, rfl⟩ | ⟨hne, hs'⟩
    · rw [if_pos rfl]
      exact huri
    · rw [if_neg hne.symm]
      exact (h.byUri hl s' hs').congr fun q hq => uriKey_congr q (halloc hl hne q hq)

theorem numbered_added (h : σ.Linked) (hnumbered : σ.Numbered) (hs : σ.sets u.tree = some s)
    (hinner : u.inner = s.nextInner) (byInner byUri : Heap Nat) :
    (σ.added u s byInner byUri).Numbered := by
  intro hl s' hs'
  change Function.update σ.sets u.tree _ hl = some s' at hs'
  have hsame : ∀ q ∈ σ.own hl, ((σ.added u s byInner byUri).uriAt q).inner = (σ.uriAt q).inner :=
    fun q hq => congrArg HyperlinksUri.inner (uriAt_alloc_of_ne (h.ne_next (mem_own.mp hq).1))
  have hself : ((σ.added u s byInner byUri).uriAt σ.nextAddress).inner = u.inner :=
    congrArg HyperlinksUri.inner uriAt_alloc_self
  by_cases heq : hl = u.tree
  · subst heq
    rw [Function.update_self] at hs'
    obtain rfl := Option.some.inj hs'
    obtain ⟨first, hinners, hnext⟩ := hnumbered _ s hs
    rw [own_added h, if_pos rfl]
    refine ⟨first, ?_, ?_⟩
    · rw [List.map_append, List.map_congr_left hsame, hinners, List.length_append,
        List.length_singleton, List.range_succ, List.map_append, List.map_singleton,
        List.map_singleton, hself, hinner, hnext]
    · dsimp only
      rw [hnext, List.length_append, List.length_singleton, UInt32.ofNat_add, add_assoc]
      rfl
  · rw [Function.update_of_ne heq] at hs'
    rw [own_added h, if_neg (Ne.symm heq), List.append_nil, List.map_congr_left hsame]
    exact hnumbered hl s' hs'

/-! ### Putting -/

/-- What putting a new entry does: a full list loses its first entry. -/
structure Created (σ : State) (u : HyperlinksUri) (σ' : State) : Prop where
  list : σ'.globalHyperlinks =
    (if σ.globalHyperlinks.length = 4999 then σ.globalHyperlinks.tail else σ.globalHyperlinks) ++
      [σ.nextAddress]
  entry : σ'.uris σ.nextAddress = some u
  others : ∀ p ∈ σ'.globalHyperlinks, p ≠ σ.nextAddress → σ'.uris p = σ.uris p
  sets : ∀ hl, (σ'.sets hl).map HyperlinkSet.references = (σ.sets hl).map HyperlinkSet.references
  nextAddress : σ'.nextAddress = σ.nextAddress + 1

theorem references_removed (h : Removed σ p σ') (hl : Nat) :
    (σ'.sets hl).map HyperlinkSet.references = (σ.sets hl).map HyperlinkSet.references := by
  have hplain := congrArg (Option.map Prod.snd) (h.sets hl)
  rw [Option.map_map, Option.map_map] at hplain
  exact hplain

theorem evictFirst_ok (h : σ.Linked) (hnumbered : σ.Numbered)
    (hlen : σ.globalHyperlinks.length ≤ 5000) :
    ∃ σ', Returns (fun fuel => evictFirst fuel σ) σ' ∧ σ'.Sound ∧
      (σ.globalHyperlinks.length < 5000 ∧ σ' = σ ∨ σ.globalHyperlinks.length = 5000 ∧
        ∃ first ∈ σ.globalHyperlinks, σ'.globalHyperlinks = σ.globalHyperlinks.tail ∧
          σ.globalHyperlinks.head? = some first ∧ Removed σ first σ') := by
  have hcount := h.count
  by_cases hfull : σ.globalHyperlinksCount = maxHyperlinks
  · rw [hfull] at hcount
    have hlen : σ.globalHyperlinks.length = 5000 := hcount.symm
    obtain ⟨first, rest, hlist⟩ :=
      List.exists_cons_of_length_pos (by omega : 0 < σ.globalHyperlinks.length)
    have hmem : first ∈ σ.globalHyperlinks := by
      rw [hlist]
      exact List.mem_cons_self
    obtain ⟨σ', ⟨n, hn⟩, hlinked, hremoved⟩ := hyperlinksRemove_ok h hmem
    have htail : σ'.globalHyperlinks = σ.globalHyperlinks.tail := by
      rw [hremoved.list, hlist, List.erase_cons_head, List.tail_cons]
    have hhead : σ.globalHyperlinks.head? = some first := by rw [hlist, List.head?_cons]
    refine ⟨σ', ⟨n, fun fuel hfuel => ?_⟩,
      ⟨hlinked, numbered_removed h hnumbered hremoved hhead, ?_⟩,
      .inr ⟨hlen, first, hmem, htail, hhead, hremoved⟩⟩
    · change evictFirst fuel σ = _
      rw [evictFirst, if_pos hfull, hlist]
      exact hn fuel hfuel
    · rw [htail, List.length_tail]
      omega
  · have hlt : σ.globalHyperlinks.length < 5000 := by
      refine lt_of_le_of_ne hlen fun heq => hfull (UInt32.toNat.inj ?_)
      rw [hcount, heq]
      rfl
    refine ⟨σ, ⟨0, fun fuel _ => ?_⟩, ⟨h, hnumbered, hlt⟩, .inl ⟨hlt, rfl⟩⟩
    change evictFirst fuel σ = _
    rw [evictFirst, if_neg hfull]
    rfl

/-- The entry that a set makes of an ID and a URI. -/
def State.newUri (σ : State) (hl : Nat) (s : HyperlinkSet) (internalId uri : CString) :
    HyperlinksUri :=
  ⟨hl, s.nextInner, internalId, externalIdOf σ.nextExternalId, uri⟩

theorem addUri_ok (hsound : σ.Sound) (hs : σ.sets hl = some s) {internalId uri : CString}
    (hfree : ∀ q ∈ σ.own hl, σ.uriKey q ≠ (σ.newUri hl s internalId uri).uriKey) :
    ∃ σ', Returns (fun fuel => addUri fuel σ hl internalId uri) (σ', s.nextInner) ∧ σ'.Sound ∧
      Created σ (σ.newUri hl s internalId uri) σ' := by
  generalize hu : σ.newUri hl s internalId uri = u at hfree
  have htree : u.tree = hl := by rw [← hu, State.newUri]
  have hinner : u.inner = s.nextInner := by rw [← hu, State.newUri]
  subst htree
  have hlinked := hsound.linked
  have hbelow := hsound.below
  obtain ⟨byUri, huriKeeps, huriRet⟩ := insert_new State.uriKey uriKey_congr hlinked
    (hlinked.byUri _ s hs) (u := u) (fun q hq => by
      rw [show (σ.allocUri u).uriKey σ.nextAddress =
        u.uriKey by rw [State.uriKey, uriAt_alloc_self]]
      exact hfree q hq)
  obtain ⟨byInner, hinnerKeeps, hinnerRet⟩ := insert_new State.innerKey innerKey_congr hlinked
    (hlinked.byInner _ s hs) (u := u) (fun q hq => by
      rw [show (σ.allocUri u).innerKey σ.nextAddress = u.inner.toNat by
        rw [State.innerKey, uriAt_alloc_self], hinner]
      exact fun heq => inner_ne_next hsound hs hq (UInt32.toNat.inj heq))
  have hadded := linked_added hlinked hs hbelow hinnerKeeps huriKeeps
  have hlist : (σ.added u s byInner byUri).globalHyperlinks =
      σ.globalHyperlinks ++ [σ.nextAddress] := rfl
  have hlen : (σ.added u s byInner byUri).globalHyperlinks.length = σ.globalHyperlinks.length +
      1 := by
    rw [hlist, List.length_append, List.length_singleton]
  obtain ⟨σ', hevictRet, hsound', hevict⟩ := evictFirst_ok hadded
    (numbered_added hlinked hsound.numbered hs hinner byInner byUri) (by omega)
  have hentry : (σ.added u s byInner byUri).uris σ.nextAddress = some u :=
    Function.update_self _ _ _
  have hothers : ∀ q, q ≠ σ.nextAddress → (σ.added u s byInner byUri).uris q = σ.uris q :=
    fun q hq => Function.update_of_ne hq _ _
  have hrefs : ∀ hl', ((σ.added u s byInner byUri).sets hl').map HyperlinkSet.references =
      (σ.sets hl').map HyperlinkSet.references := by
    intro hl'
    change (Function.update σ.sets u.tree _ hl').map _ = _
    by_cases heq : hl' = u.tree
    · rw [heq, Function.update_self, hs]
      rfl
    · rw [Function.update_of_ne heq]
  have hcreated : Created σ u σ' := by
    rcases hevict with ⟨hlt, rfl⟩ | ⟨hfull, first, hfirst, htail, hhead, hremoved⟩
    · refine ⟨?_, hentry, fun q _ hq => hothers q hq, hrefs, rfl⟩
      rw [if_neg (by omega)]
      rfl
    · have hne : σ.globalHyperlinks ≠ [] := fun hnil => by
        rw [hlen, hnil] at hfull
        simp at hfull
      have hfirst' : first ∈ σ.globalHyperlinks := by
        rw [hlist, List.head?_append_of_ne_nil _ hne] at hhead
        exact List.mem_of_mem_head? hhead
      have hnext := hlinked.ne_next hfirst'
      refine ⟨?_, ?_, fun q hq hqne => ?_, fun hl' => (references_removed hremoved hl').trans
        (hrefs hl'), hremoved.nextAddress⟩
      · rw [htail, if_pos (by omega), hlist, List.tail_append_of_ne_nil hne]
      · rw [hremoved.uris, Function.update_of_ne hnext.symm, hentry]
      · have hqfirst : q ≠ first := by
          rw [hremoved.list, hadded.nodup.mem_erase_iff] at hq
          exact hq.1
        rw [hremoved.uris, Function.update_of_ne hqfirst, hothers q hqne]
  refine ⟨σ', ?_, hsound', hcreated⟩
  obtain ⟨k, hk⟩ := huriRet
  obtain ⟨m, hm⟩ := hinnerRet
  obtain ⟨n, hn⟩ := hevictRet
  dsimp only at hk hm hn
  refine ⟨max k (max m n), fun fuel hfuel => ?_⟩
  change addUri fuel σ u.tree internalId uri = _
  rw [addUri, derefSet, hs, ok_bind]
  dsimp only
  rw [show (⟨u.tree, s.nextInner, internalId, externalIdOf σ.nextExternalId, uri⟩ : HyperlinksUri) =
    u
    from hu, hk fuel (by omega), ok_bind, hm fuel (by omega), ok_bind]
  change (do
    let σ ← evictFirst fuel (σ.added u s byInner byUri)
    let v ← derefUri σ _
    pure (σ, v.inner) : Exec (State × UInt32)) = _
  rw [hn fuel (by omega), ok_bind, derefUri, hcreated.entry, ok_bind, hinner]
  rfl

end Ztmux.Hyperlinks
