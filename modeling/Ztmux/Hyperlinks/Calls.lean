import Ztmux.Hyperlinks.Put

/-!
What each call on a set answers and leaves: a link is found or made, a reset takes out the
entries of its set and no others.
-/

namespace Ztmux.Hyperlinks

open Ztmux Ztmux.Compat

variable {σ σ' : State} {hl p : Nat} {s : HyperlinkSet} {u : HyperlinksUri}

/-! ### Looking up -/

theorem returns_congr {α : Type} {f g : Nat → Exec α} {a : α} (h : ∀ fuel, f fuel = g fuel)
    (hf : Returns f a) : Returns g a := by
  obtain ⟨n, hn⟩ := hf
  exact ⟨n, fun fuel hfuel => (h fuel).symm.trans (hn fuel hfuel)⟩

theorem findByUri_ok (hlinked : σ.Linked) (hs : σ.sets hl = some s) (internalId uri : CString) :
    ∃ r, Returns (fun fuel => findByUri fuel σ hl internalId uri) r ∧
      ∀ q, r = some q ↔ q ∈ σ.own hl ∧
        σ.uriKey q = HyperlinksUri.uriKey ⟨hl, 0, internalId, "", uri⟩ := by
  obtain ⟨r, hret, hr⟩ :=
    (hlinked.byUri hl s hs).findBy (HyperlinksUri.uriKey ⟨hl, 0, internalId, "", uri⟩)
  refine ⟨r, returns_congr (fun fuel => ?_) hret, fun q => by rw [hr, List.mem_toFinset]⟩
  rw [findByUri, derefSet, hs, ok_bind]
  congr 1
  funext q
  exact (hyperlinksByUriCmp_eq _ _).symm

theorem hyperlinksGet_ok (hlinked : σ.Linked) (hp : p ∈ σ.globalHyperlinks) :
    Returns (fun fuel => hyperlinksGet fuel σ (σ.uriAt p).tree (σ.uriAt p).inner)
      (some (σ.uriAt p)) := by
  obtain ⟨s, hs⟩ := Option.ne_none_iff_exists'.mp (hlinked.owner p hp)
  obtain ⟨r, ⟨n, hn⟩, hr⟩ := (hlinked.byInner _ s hs).findBy (σ.uriAt p).inner.toNat
  obtain rfl : r = some p := (hr p).mpr ⟨List.mem_toFinset.mpr (mem_own.mpr ⟨hp, rfl⟩), rfl⟩
  refine ⟨n, fun fuel hfuel => ?_⟩
  change hyperlinksGet fuel σ _ _ = _
  rw [hyperlinksGet, derefSet, hs, ok_bind]
  have hfind := hn fuel hfuel
  dsimp only at hfind
  change (rbFindBy (fun q => compare (σ.uriAt p).inner.toNat (σ.innerKey q)) fuel s.byInner
    s.byInner.root >>= _) = _
  rw [hfind, ok_bind, readFound, derefUri, hlinked.uris_eq hp]
  rfl

/-! ### Putting -/

-- What `utf8_width` answers for a sequence.
variable (width : Utf8.Width)

/-- What a set answers when a link is put into it, and what it leaves. -/
inductive PutAnswers (σ : State) (hl : Nat) (uriIn : CString) (idIn : Option CString) :
    State → UInt32 → Prop
  /-- The URI is too long. -/
  | dropped (hlong : maxHyperlinkUri < (utf8Stravis width uriIn).val.length) :
      PutAnswers σ hl uriIn idIn σ 0
  /-- The set has an entry with the ID and the URI. -/
  | found (p : Nat) (u : HyperlinksUri) (hentry : σ.uris p = some u) (htree : u.tree = hl)
      (hfits : (utf8Stravis width uriIn).val.length ≤ maxHyperlinkUri)
      (hid : (idIn.getD CString.empty).val ≠ [])
      (hinternalId : u.internalId = utf8Stravis width (idIn.getD CString.empty))
      (huri : u.uri = utf8Stravis width uriIn) : PutAnswers σ hl uriIn idIn σ u.inner
  /-- The set makes an entry. -/
  | created (u : HyperlinksUri) (σ' : State) (hcreated : Created σ u σ') (htree : u.tree = hl)
      (hfits : (utf8Stravis width uriIn).val.length ≤ maxHyperlinkUri)
      (hnew : (idIn.getD CString.empty).val ≠ [] → ∀ q v, σ.uris q = some v → v.tree = hl →
        v.internalId = utf8Stravis width (idIn.getD CString.empty) →
        v.uri ≠ utf8Stravis width uriIn)
      (hinternalId : u.internalId = utf8Stravis width (idIn.getD CString.empty))
      (huri : u.uri = utf8Stravis width uriIn) : PutAnswers σ hl uriIn idIn σ' u.inner

/-- Keys of entries with an ID tell the ID and the URI. -/
theorem uriKey_eq_iff {u v : HyperlinksUri} (hv : v.internalId.val ≠ []) :
    u.uriKey = v.uriKey ↔ u.internalId = v.internalId ∧ u.uri = v.uri := by
  have hinj : Function.Injective (List.map UInt8.toNat) :=
    List.map_injective_iff.mpr fun _ _ => UInt8.toNat.inj
  constructor
  · intro heq
    rw [HyperlinksUri.uriKey, HyperlinksUri.uriKey, if_neg hv] at heq
    split_ifs at heq with hu
    · exact absurd (toLex.injective heq) (by simp)
    · have hpair := toLex.injective (Sum.inl.inj (toLex.injective heq))
      exact ⟨Subtype.ext (hinj (congrArg Prod.fst hpair)),
        Subtype.ext (hinj (congrArg Prod.snd hpair))⟩
  · rintro ⟨hid, huri⟩
    rw [HyperlinksUri.uriKey, HyperlinksUri.uriKey, hid, huri, if_neg hv, if_neg hv]

theorem stravis_ne_nil {t : CString} (h : t.val ≠ []) : (utf8Stravis width t).val ≠ [] :=
  fun hnil => h ((utf8Stravis_eq_nil width).mp hnil)

theorem hyperlinksPut_ok (hsound : σ.Sound) (hs : σ.sets hl = some s) (uriIn : CString)
    (idIn : Option CString) :
    ∃ σ' inner, Returns (fun fuel => hyperlinksPut width fuel σ hl uriIn idIn) (σ', inner) ∧
      σ'.Sound ∧ PutAnswers width σ hl uriIn idIn σ' inner := by
  have hlinked := hsound.linked
  by_cases hlong : maxHyperlinkUri < (utf8Stravis width uriIn).val.length
  · refine ⟨σ, 0, ⟨0, fun fuel _ => ?_⟩, hsound, .dropped hlong⟩
    change hyperlinksPut width fuel σ hl uriIn idIn = _
    rw [hyperlinksPut, if_pos hlong]
    rfl
  have hfits := not_lt.mp hlong
  by_cases hid : (idIn.getD CString.empty).val = []
  · -- Without an ID the number of the new entry is its key.
    have hempty : (utf8Stravis width (idIn.getD CString.empty)).val = [] :=
      (utf8Stravis_eq_nil width).mpr hid
    have hno : ∀ q ∈ σ.own hl, σ.uriKey q ≠ (σ.newUri hl s
        (utf8Stravis width (idIn.getD CString.empty)) (utf8Stravis width uriIn)).uriKey := by
      intro q hq heq
      rw [State.uriKey, HyperlinksUri.uriKey, HyperlinksUri.uriKey, State.newUri,
        if_pos hempty] at heq
      split_ifs at heq with hanonymous
      · exact inner_ne_next hsound hs hq
          (UInt32.toNat.inj (Sum.inr.inj (toLex.injective heq)))
      · exact absurd (toLex.injective heq) (by simp)
    obtain ⟨σ', ⟨n, hn⟩, hsound', hcreated⟩ := addUri_ok hsound hs hno
    refine ⟨σ', s.nextInner, ⟨n, fun fuel hfuel => ?_⟩, hsound', ?_⟩
    · change hyperlinksPut width fuel σ hl uriIn idIn = _
      rw [hyperlinksPut, if_neg hlong, if_pos hid]
      exact hn fuel hfuel
    · exact .created (σ.newUri hl s _ _) σ' hcreated rfl hfits (fun hne => absurd hid hne) rfl rfl
  · have hne := stravis_ne_nil width hid
    obtain ⟨r, ⟨m, hm⟩, hr⟩ := findByUri_ok hlinked hs
      (utf8Stravis width (idIn.getD CString.empty)) (utf8Stravis width uriIn)
    cases r with
    | some q =>
        obtain ⟨hown, hkey⟩ := (hr q).mp rfl
        obtain ⟨hq, htree⟩ := mem_own.mp hown
        obtain ⟨hinternalId, huri⟩ := (uriKey_eq_iff hne).mp hkey
        refine ⟨σ, (σ.uriAt q).inner, ⟨m, fun fuel hfuel => ?_⟩, hsound,
          .found q (σ.uriAt q) (hlinked.uris_eq hq) htree hfits hid hinternalId huri⟩
        change hyperlinksPut width fuel σ hl uriIn idIn = _
        have hfind := hm fuel hfuel
        dsimp only at hfind
        rw [hyperlinksPut, if_neg hlong, if_neg hid, hfind, ok_bind]
        dsimp only
        rw [derefUri, hlinked.uris_eq hq]
        rfl
    | none =>
        have hno : ∀ q ∈ σ.own hl, σ.uriKey q ≠
            (σ.newUri hl s (utf8Stravis width (idIn.getD CString.empty))
              (utf8Stravis width uriIn)).uriKey := by
          intro q hq heq
          have hkey := (uriKey_eq_iff (v := σ.newUri hl s _ _) hne).mp heq
          cases (hr q).mpr ⟨hq, (uriKey_eq_iff (v := ⟨hl, 0, _, "", _⟩) hne).mpr hkey⟩
        obtain ⟨σ', ⟨n, hn⟩, hsound', hcreated⟩ := addUri_ok hsound hs hno
        refine ⟨σ', s.nextInner, ⟨max m n, fun fuel hfuel => ?_⟩, hsound', ?_⟩
        · change hyperlinksPut width fuel σ hl uriIn idIn = _
          have hfind := hm fuel (by omega)
          dsimp only at hfind
          rw [hyperlinksPut, if_neg hlong, if_neg hid, hfind, ok_bind]
          exact hn fuel (by omega)
        · refine .created (σ.newUri hl s _ _) σ' hcreated rfl hfits
            (fun _ q v hv htree hvid hvuri => ?_) rfl rfl
          have hq : q ∈ σ.globalHyperlinks :=
            (hlinked.live q).mp (by rw [hv]; exact Option.some_ne_none _)
          have hat : σ.uriAt q = v := uriAt_eq hv
          refine hno q (mem_own.mpr ⟨hq, by rw [hat]; exact htree⟩) ?_
          rw [State.uriKey, hat]
          exact (uriKey_eq_iff (v := σ.newUri hl s _ _) hne).mpr ⟨hvid, hvuri⟩

/-! ### Resetting and freeing -/

/-- The state without the entries of a set; its trees may be linked otherwise. -/
structure Emptied (σ : State) (hl : Nat) (σ' : State) : Prop where
  list : σ'.globalHyperlinks = σ.globalHyperlinks.filter fun p => (σ.uriAt p).tree ≠ hl
  uris : ∀ p ∈ σ'.globalHyperlinks, σ'.uris p = σ.uris p
  sets : ∀ hl', (σ'.sets hl').map HyperlinkSet.plain = (σ.sets hl').map HyperlinkSet.plain
  nextAddress : σ'.nextAddress = σ.nextAddress

theorem emptied_self (hown : σ.own hl = []) : Emptied σ hl σ := by
  refine ⟨(List.filter_eq_self.mpr fun p hp => ?_).symm, fun _ _ => rfl, fun _ => rfl, rfl⟩
  rw [decide_eq_true_iff]
  intro heq
  have hmem : p ∈ σ.own hl := mem_own.mpr ⟨hp, heq⟩
  rw [hown] at hmem
  exact List.not_mem_nil hmem

theorem Emptied.of_removed {σ₁ : State} (hlinked : σ.Linked) (hp : p ∈ σ.own hl)
    (h : Removed σ p σ₁)
    (hrest : Emptied σ₁ hl σ') : Emptied σ hl σ' := by
  have hlist : σ'.globalHyperlinks = σ.globalHyperlinks.filter fun q => (σ.uriAt q).tree ≠ hl := by
    rw [hrest.list, h.list, hlinked.nodup.erase_eq_filter, List.filter_filter]
    refine List.filter_congr fun q hq => ?_
    by_cases hne : q = p
    · have htree := (mem_own.mp hp).2
      simp [hne, htree]
    · simp [h.uriAt hne, hne]
  refine ⟨hlist, fun q hq => ?_, fun hl' => (hrest.sets hl').trans (h.sets hl'),
    hrest.nextAddress.trans h.nextAddress⟩
  rw [hrest.uris q hq, h.uris, Function.update_of_ne]
  intro heq
  rw [hlist, List.mem_filter, heq] at hq
  exact of_decide_eq_true hq.2 (mem_own.mp hp).2

theorem resetFrom_ok (n : Nat) {curr : Option Nat} (hlen : (σ.own hl).length = n)
    (hlinked : σ.Linked)
    (hs : σ.sets hl = some s) (hcurr : LeastOf σ.innerKey (σ.own hl).toFinset curr) :
    ∃ σ', (∃ m, ∀ fuel turns, m ≤ fuel → m ≤ turns → resetFrom fuel turns σ hl curr = .ok σ') ∧
      σ'.Linked ∧ Emptied σ hl σ' := by
  induction n generalizing σ s curr with
  | zero =>
      have hnil : σ.own hl = [] := List.length_eq_zero_iff.mp hlen
      obtain rfl : curr = none := by
        cases curr with
        | none => rfl
        | some p =>
            rw [hnil] at hcurr
            exact absurd hcurr.1 (by simp)
      refine ⟨σ, ⟨1, fun fuel turns _ hturns => ?_⟩, hlinked, emptied_self hnil⟩
      obtain ⟨turns, rfl⟩ : ∃ i, turns = i + 1 := ⟨turns - 1, by omega⟩
      rfl
  | succ n ih =>
      obtain ⟨p, rfl⟩ : ∃ p, curr = some p := by
        cases curr with
        | none =>
            have hempty : (σ.own hl).toFinset = ∅ := hcurr
            rw [List.toFinset_eq_empty_iff] at hempty
            rw [hempty] at hlen
            cases hlen
        | some p => exact ⟨p, rfl⟩
      have hown : p ∈ σ.own hl := List.mem_toFinset.mp hcurr.1
      obtain ⟨next, ⟨k, hk⟩, hnext⟩ := (hlinked.byInner hl s hs).next hcurr
      obtain ⟨σ₁, ⟨m, hm⟩, hlinked₁, hremoved⟩ := hyperlinksRemove_ok hlinked (mem_own.mp hown).1
      obtain ⟨s₁, hs₁, -⟩ := Option.map_eq_some_iff.mp
        ((hremoved.sets hl).trans (congrArg (Option.map HyperlinkSet.plain) hs))
      have hleast : LeastOf σ₁.innerKey (σ₁.own hl).toFinset next := by
        have hsame : ∀ q ∈ (σ.own hl).toFinset.erase p, σ₁.innerKey q = σ.innerKey q := fun q hq =>
          innerKey_congr q (hremoved.uriAt (Finset.mem_erase.mp hq).1)
        rw [toFinset_own_removed hlinked hremoved]
        cases next with
        | none => exact hnext
        | some q =>
            refine ⟨hnext.1, fun r hr => ?_⟩
            rw [hsame q hnext.1, hsame r hr]
            exact hnext.2 r hr
      have hlen₁ : (σ₁.own hl).length = n := by
        rw [own_removed hlinked hremoved, List.length_erase_of_mem hown]
        omega
      obtain ⟨σ', ⟨j, hj⟩, hlinked', hemptied⟩ := ih hlen₁ hlinked₁ hs₁ hleast
      refine ⟨σ', ⟨max k (max m (j + 1)), fun fuel turns hfuel hturns => ?_⟩, hlinked',
        hemptied.of_removed hlinked hown hremoved⟩
      obtain ⟨turns, rfl⟩ : ∃ i, turns = i + 1 := ⟨turns - 1, by omega⟩
      dsimp only at hk hm
      rw [resetFrom, derefSet, hs, ok_bind, hk fuel (by omega), ok_bind, hm fuel (by omega),
        ok_bind]
      exact hj fuel turns (by omega) (by omega)

theorem own_emptied (h : Emptied σ hl σ') (hl' : Nat) :
    σ'.own hl' = if hl' = hl then [] else σ.own hl' := by
  have hsame : ∀ p ∈ σ'.globalHyperlinks, σ'.uriAt p = σ.uriAt p := fun p hp => by
    rw [State.uriAt, State.uriAt, h.uris p hp]
  have hfilter : σ'.own hl' = σ'.globalHyperlinks.filter fun p => (σ.uriAt p).tree = hl' :=
    List.filter_congr fun p hp => by rw [hsame p hp]
  rw [hfilter, h.list, List.filter_filter]
  split_ifs with heq
  · rw [List.filter_eq_nil_iff]
    intro p _
    simp [heq]
  · refine List.filter_congr fun p _ => ?_
    by_cases htree : (σ.uriAt p).tree = hl'
    · simp [htree, heq]
    · simp [htree]

theorem numbered_emptied (hnumbered : σ.Numbered) (h : Emptied σ hl σ') : σ'.Numbered := by
  intro hl' s' hs'
  obtain ⟨s, hs, hplain⟩ := Option.map_eq_some_iff.mp
    ((h.sets hl').symm.trans (congrArg (Option.map HyperlinkSet.plain) hs'))
  have hnext : s'.nextInner = s.nextInner := (congrArg Prod.fst hplain).symm
  rw [hnext]
  by_cases heq : hl' = hl
  · rw [own_emptied h, if_pos heq]
    exact ⟨s.nextInner, rfl, (add_zero _).symm⟩
  · obtain ⟨first, hinners, hfirst⟩ := hnumbered hl' s hs
    have hown : σ'.own hl' = σ.own hl' := by rw [own_emptied h, if_neg heq]
    refine ⟨first, ?_, by rw [hown]; exact hfirst⟩
    rw [hown, ← hinners]
    refine List.map_congr_left fun p hp => ?_
    have hmem : p ∈ σ'.globalHyperlinks := (mem_own.mp (hown ▸ hp)).1
    rw [State.uriAt, State.uriAt, h.uris p hmem]

theorem hyperlinksReset_ok (hsound : σ.Sound) (hs : σ.sets hl = some s) :
    ∃ σ', Returns (fun fuel => hyperlinksReset fuel σ hl) σ' ∧ σ'.Sound ∧ Emptied σ hl σ' := by
  obtain ⟨curr, ⟨k, hk⟩, hcurr⟩ := (hsound.linked.byInner hl s hs).min
  obtain ⟨σ', ⟨m, hm⟩, hlinked, hemptied⟩ := resetFrom_ok _ rfl hsound.linked hs hcurr
  refine ⟨σ', ⟨max k m, fun fuel hfuel => ?_⟩,
    ⟨hlinked, numbered_emptied hsound.numbered hemptied, ?_⟩, hemptied⟩
  · change hyperlinksReset fuel σ hl = _
    dsimp only at hk
    rw [hyperlinksReset, derefSet, hs, ok_bind, hk fuel (by omega), ok_bind]
    exact hm fuel fuel (by omega) (by omega)
  · rw [hemptied.list]
    exact (List.length_filter_le _ _).trans_lt hsound.below

theorem sound_references (hsound : σ.Sound) (hs : σ.sets hl = some s) (references : UInt32) :
    (σ.setSet hl (some { s with references := references })).Sound := by
  have hlinked := hsound.linked
  have hset : ∀ hl' s', (σ.setSet hl (some { s with references := references })).sets hl' =
      some s' →
      ∃ s₀, σ.sets hl' = some s₀ ∧ s₀.byInner = s'.byInner ∧ s₀.byUri = s'.byUri ∧
        s₀.nextInner = s'.nextInner := by
    intro hl' s' hs'
    change Function.update σ.sets hl _ hl' = some s' at hs'
    by_cases heq : hl' = hl
    · rw [heq, Function.update_self] at hs'
      obtain rfl := Option.some.inj hs'
      exact ⟨s, heq ▸ hs, rfl, rfl, rfl⟩
    · rw [Function.update_of_ne heq] at hs'
      exact ⟨s', hs', rfl, rfl, rfl⟩
  refine ⟨⟨hlinked.created, hlinked.live, fun p hp => ?_, fun p hp => ?_, hlinked.count,
    fun hl' s' hs' => ?_, fun hl' s' hs' => ?_⟩, fun hl' s' hs' => ?_, hsound.below⟩
  · have hfresh := hlinked.fresh p hp
    have hne : p ≠ hl := fun heq => by
      rw [heq, hs] at hfresh
      cases hfresh.2
    exact ⟨hfresh.1, (Function.update_of_ne hne _ _).trans hfresh.2⟩
  · change Function.update σ.sets hl _ (σ.uriAt p).tree ≠ none
    by_cases heq : (σ.uriAt p).tree = hl
    · rw [heq, Function.update_self]
      exact Option.some_ne_none _
    · rw [Function.update_of_ne heq]
      exact hlinked.owner p hp
  · obtain ⟨s₀, hs₀, hinner, -, -⟩ := hset hl' s' hs'
    rw [← hinner]
    exact hlinked.byInner hl' s₀ hs₀
  · obtain ⟨s₀, hs₀, -, huri, -⟩ := hset hl' s' hs'
    rw [← huri]
    exact hlinked.byUri hl' s₀ hs₀
  · obtain ⟨s₀, hs₀, -, -, hnext⟩ := hset hl' s' hs'
    rw [← hnext]
    exact hsound.numbered hl' s₀ hs₀

theorem sound_freed (hsound : σ.Sound) (hown : σ.own hl = []) : (σ.setSet hl none).Sound := by
  have hlinked := hsound.linked
  have hset : ∀ hl' s', (σ.setSet hl none).sets hl' = some s' → σ.sets hl' = some s' := by
    intro hl' s' hs'
    change Function.update σ.sets hl none hl' = some s' at hs'
    by_cases heq : hl' = hl
    · rw [heq, Function.update_self] at hs'
      cases hs'
    · rwa [Function.update_of_ne heq] at hs'
  refine ⟨⟨hlinked.created, hlinked.live, fun p hp => ?_, fun p hp => ?_, hlinked.count,
    fun hl' s' hs' => hlinked.byInner hl' s' (hset hl' s' hs'),
    fun hl' s' hs' => hlinked.byUri hl' s' (hset hl' s' hs')⟩,
    fun hl' s' hs' => hsound.numbered hl' s' (hset hl' s' hs'), hsound.below⟩
  · refine ⟨(hlinked.fresh p hp).1, ?_⟩
    change Function.update σ.sets hl none p = none
    by_cases heq : p = hl
    · rw [heq, Function.update_self]
    · rw [Function.update_of_ne heq]
      exact (hlinked.fresh p hp).2
  · change Function.update σ.sets hl none (σ.uriAt p).tree ≠ none
    have hne : (σ.uriAt p).tree ≠ hl := fun heq => by
      have hmem : p ∈ σ.own hl := mem_own.mpr ⟨hp, heq⟩
      rw [hown] at hmem
      exact List.not_mem_nil hmem
    rw [Function.update_of_ne hne]
    exact hlinked.owner p hp

end Ztmux.Hyperlinks
