import Ztmux.Hyperlinks.Calls

/-!
Runs of calls on any number of sets. A call on a set that has been freed is not made.

An entry is known by its address, which no other entry gets. As long as it is on the list
its set resolves its number.
-/

namespace Ztmux.Hyperlinks

open Ztmux Ztmux.Compat

inductive Op
  | init
  | copy (hl : Nat)
  | put (hl : Nat) (uriIn : CString) (internalIdIn : Option CString)
  | get (hl : Nat) (inner : UInt32)
  | reset (hl : Nat)
  | free (hl : Nat)

def onSet (σ : State) (hl : Nat) (call : Exec State) : Exec State :=
  match σ.sets hl with
  | some _ => call
  | none => pure σ

section Runs

-- What `utf8_width` answers for a sequence.
variable (width : Utf8.Width)

def step (fuel : Nat) (σ : State) : Op → Exec State
  | .init => pure (hyperlinksInit σ).1
  | .copy hl => onSet σ hl (hyperlinksCopy σ hl)
  | .put hl uriIn internalIdIn =>
      onSet σ hl (do pure (← hyperlinksPut width fuel σ hl uriIn internalIdIn).1)
  | .get hl inner => onSet σ hl (do
      let _ ← hyperlinksGet fuel σ hl inner
      pure σ)
  | .reset hl => onSet σ hl (hyperlinksReset fuel σ hl)
  | .free hl => onSet σ hl (hyperlinksFree fuel σ hl)

def run (fuel : Nat) : State → List Op → Exec State
  | σ, [] => pure σ
  | σ, op :: ops => do run fuel (← step width fuel σ op) ops

variable {σ σ' : State} {hl p : Nat} {s : HyperlinkSet} {u : HyperlinksUri} {op : Op}

/-! ### A step -/

/-- How an entry leaves: it is the oldest of a full list, or its set is reset, or freed for good. -/
def Drops (σ : State) (op : Op) (p : Nat) : Prop :=
  (∃ hl uriIn idIn, op = .put hl uriIn idIn) ∧ σ.globalHyperlinks.length = 4999 ∧
      σ.globalHyperlinks.head? = some p ∨
    op = .reset (σ.uriAt p).tree ∨
    op = .free (σ.uriAt p).tree ∧
      (σ.sets (σ.uriAt p).tree).map HyperlinkSet.references = some 1

/-- A step leaves the list in the order in which its entries were made, and changes none of them. -/
structure Stepped (σ : State) (op : Op) (σ' : State) : Prop where
  list : ∃ kept new, σ'.globalHyperlinks = kept ++ new ∧ kept.Sublist σ.globalHyperlinks ∧
    (∀ p ∈ new, σ.nextAddress ≤ p) ∧ ∀ p ∈ σ.globalHyperlinks, p ∉ kept → Drops σ op p
  uris : ∀ p ∈ σ.globalHyperlinks, p ∈ σ'.globalHyperlinks → σ'.uris p = σ.uris p
  nextAddress : σ.nextAddress ≤ σ'.nextAddress

theorem stepped_same (hlist : σ'.globalHyperlinks = σ.globalHyperlinks) (huris : σ'.uris = σ.uris)
    (hnext : σ.nextAddress ≤ σ'.nextAddress) : Stepped σ op σ' := by
  refine ⟨⟨σ.globalHyperlinks, [], ?_, List.Sublist.refl _, by simp, fun p hp hno => absurd hp hno⟩,
    fun p _ _ => by rw [huris], hnext⟩
  rw [hlist, List.append_nil]

theorem stepped_emptied
    (hlist : σ'.globalHyperlinks = σ.globalHyperlinks.filter fun p => (σ.uriAt p).tree ≠ hl)
    (huris : ∀ p ∈ σ'.globalHyperlinks, σ'.uris p = σ.uris p)
    (hnext : σ'.nextAddress = σ.nextAddress) (hop : ∀ p, (σ.uriAt p).tree = hl → Drops σ op p) :
    Stepped σ op σ' := by
  refine ⟨⟨σ'.globalHyperlinks, [], (List.append_nil _).symm, ?_,
    by simp, fun p hp hno => hop p ?_⟩, fun p _ hp => huris p hp, hnext.ge⟩
  · rw [hlist]
    exact List.filter_sublist
  · by_contra hne
    refine hno ?_
    rw [hlist, List.mem_filter]
    exact ⟨hp, decide_eq_true hne⟩

theorem stepped_put {uriIn : CString} {idIn : Option CString} {inner : UInt32} (hlinked : σ.Linked)
    (h : PutAnswers width σ hl uriIn idIn σ' inner) : Stepped σ (.put hl uriIn idIn) σ' := by
  cases h with
  | dropped hlong => exact stepped_same rfl rfl (le_refl _)
  | found p u => exact stepped_same rfl rfl (le_refl _)
  | created u _ hcreated =>
      refine ⟨⟨_, [σ.nextAddress], hcreated.list, ?_, by simp, fun p hp hno => ?_⟩,
        fun p hp hp' => hcreated.others p hp' (hlinked.ne_next hp), ?_⟩
      · split_ifs
        · exact List.tail_sublist _
        · exact List.Sublist.refl _
      · split_ifs at hno with hfull
        · refine .inl ⟨⟨hl, uriIn, idIn, rfl⟩, hfull, ?_⟩
          obtain ⟨first, rest, hlist⟩ := List.exists_cons_of_ne_nil (List.ne_nil_of_mem hp)
          rw [hlist, List.tail_cons] at hno
          rw [hlist] at hp
          rw [hlist, List.head?_cons, (List.mem_cons.mp hp).resolve_right hno]
        · exact absurd hp hno
      · rw [hcreated.nextAddress]
        exact Nat.le_succ _

theorem hyperlinksGet_returns (hsound : σ.Sound) (hs : σ.sets hl = some s) (inner : UInt32) :
    ∃ r, Returns (fun fuel => hyperlinksGet fuel σ hl inner) r := by
  obtain ⟨r, ⟨n, hn⟩, hr⟩ := (hsound.linked.byInner hl s hs).findBy inner.toNat
  have hfind : ∀ fuel, n ≤ fuel → hyperlinksGet fuel σ hl inner = readFound σ r := by
    intro fuel hfuel
    have hfound := hn fuel hfuel
    dsimp only at hfound
    rw [hyperlinksGet, derefSet, hs, ok_bind]
    change (rbFindBy (fun q => compare inner.toNat (σ.innerKey q)) fuel s.byInner s.byInner.root >>=
      _) = _
    rw [hfound, ok_bind]
  cases r with
  | none => exact ⟨none, n, fun fuel hfuel => hfind fuel hfuel⟩
  | some q =>
      have hq := (mem_own.mp (List.mem_toFinset.mp ((hr q).mp rfl).1)).1
      refine ⟨some (σ.uriAt q), n, fun fuel hfuel => (hfind fuel hfuel).trans ?_⟩
      rw [readFound, derefUri, hsound.linked.uris_eq hq]
      rfl

theorem hyperlinksFree_ok (hsound : σ.Sound) (hs : σ.sets hl = some s) :
    ∃ σ', Returns (fun fuel => hyperlinksFree fuel σ hl) σ' ∧ σ'.Sound ∧
    Stepped σ (.free hl) σ' := by
  have hsound₁ := sound_references hsound hs (s.references - 1)
  have hs₁ : (σ.setSet hl (some { s with references := s.references - 1 })).sets hl =
      some { s with references := s.references - 1 } := Function.update_self _ _ _
  by_cases hlast : s.references - 1 = 0
  · obtain ⟨σ', ⟨n, hn⟩, hsound', hemptied⟩ := hyperlinksReset_ok hsound₁ hs₁
    have hown : σ'.own hl = [] := by rw [own_emptied hemptied, if_pos rfl]
    refine ⟨σ'.setSet hl none, ⟨n, fun fuel hfuel => ?_⟩, sound_freed hsound' hown,
      stepped_emptied hemptied.list hemptied.uris hemptied.nextAddress fun p htree =>
        .inr (.inr ⟨by rw [htree], ?_⟩)⟩
    · change hyperlinksFree fuel σ hl = _
      dsimp only at hn
      rw [hyperlinksFree, derefSet, hs, ok_bind]
      dsimp only
      rw [if_pos hlast, hn fuel hfuel]
      rfl
    · rw [htree, hs]
      exact congrArg some (sub_eq_zero.mp hlast)
  · refine ⟨_, ⟨0, fun fuel _ => ?_⟩, hsound₁, stepped_same rfl rfl (le_refl _)⟩
    change hyperlinksFree fuel σ hl = _
    rw [hyperlinksFree, derefSet, hs, ok_bind]
    dsimp only
    rw [if_neg hlast]
    rfl

/-- Every step returns, and leaves the list in the order in which its entries were made. -/
theorem step_ok (hsound : σ.Sound) (op : Op) :
    ∃ σ', Returns (fun fuel => step width fuel σ op) σ' ∧ σ'.Sound ∧ Stepped σ op σ' := by
  have hgone : ∀ {hl : Nat} {call : Nat → Exec State}, σ.sets hl = none →
      Returns (fun fuel => onSet σ hl (call fuel)) σ := by
    intro hl call hs
    refine ⟨0, fun fuel _ => ?_⟩
    dsimp only
    rw [onSet, hs]
    rfl
  have hthere : ∀ {hl : Nat} {s : HyperlinkSet} {call : Nat → Exec State} {σ' : State},
      σ.sets hl = some s → Returns call σ' → Returns (fun fuel => onSet σ hl (call fuel)) σ' := by
    intro hl s call σ' hs hret
    refine returns_congr (fun fuel => ?_) hret
    rw [onSet, hs]
  cases op with
  | init =>
      obtain ⟨hlinked, hnumbered⟩ := hyperlinksInit_ok hsound.linked hsound.numbered
      exact ⟨_, returns_pure _, ⟨hlinked, hnumbered, hsound.below⟩,
        stepped_same rfl rfl (Nat.le_succ _)⟩
  | copy hl =>
      cases hs : σ.sets hl with
      | none => exact ⟨σ, hgone hs, hsound, stepped_same rfl rfl (le_refl _)⟩
      | some s =>
          refine ⟨_, hthere hs ⟨0, fun fuel _ => ?_⟩, sound_references hsound hs (s.references + 1),
            stepped_same rfl rfl (le_refl _)⟩
          rw [hyperlinksCopy, derefSet, hs]
          rfl
  | put hl uriIn internalIdIn =>
      cases hs : σ.sets hl with
      | none => exact ⟨σ, hgone hs, hsound, stepped_same rfl rfl (le_refl _)⟩
      | some s =>
          obtain ⟨σ', inner, hret, hsound', hanswers⟩ :=
            hyperlinksPut_ok width hsound hs uriIn internalIdIn
          exact ⟨σ', hthere hs (hret.bind (returns_pure σ')), hsound',
            stepped_put width hsound.linked hanswers⟩
  | get hl inner =>
      cases hs : σ.sets hl with
      | none => exact ⟨σ, hgone hs, hsound, stepped_same rfl rfl (le_refl _)⟩
      | some s =>
          obtain ⟨r, hret⟩ := hyperlinksGet_returns hsound hs inner
          exact ⟨σ, hthere hs (hret.bind (returns_pure σ)), hsound,
            stepped_same rfl rfl (le_refl _)⟩
  | reset hl =>
      cases hs : σ.sets hl with
      | none => exact ⟨σ, hgone hs, hsound, stepped_same rfl rfl (le_refl _)⟩
      | some s =>
          obtain ⟨σ', hret, hsound', hemptied⟩ := hyperlinksReset_ok hsound hs
          exact ⟨σ', hthere hs hret, hsound', stepped_emptied hemptied.list hemptied.uris
            hemptied.nextAddress fun p htree => .inr (.inl (by rw [htree]))⟩
  | free hl =>
      cases hs : σ.sets hl with
      | none => exact ⟨σ, hgone hs, hsound, stepped_same rfl rfl (le_refl _)⟩
      | some s =>
          obtain ⟨σ', hret, hsound', hstepped⟩ := hyperlinksFree_ok hsound hs
          exact ⟨σ', hthere hs hret, hsound', hstepped⟩

/-! ### Runs -/

theorem run_ok (hsound : σ.Sound) (ops : List Op) :
    ∃ σ', Returns (fun fuel => run width fuel σ ops) σ' ∧ σ'.Sound ∧
      σ.nextAddress ≤ σ'.nextAddress ∧
      ∀ p, p < σ.nextAddress → p ∈ σ'.globalHyperlinks →
        p ∈ σ.globalHyperlinks ∧ σ'.uris p = σ.uris p := by
  induction ops generalizing σ with
  | nil => exact ⟨σ, returns_pure σ, hsound, le_refl _, fun p _ hp => ⟨hp, rfl⟩⟩
  | cons op ops ih =>
      obtain ⟨σ₁, hstep, hsound₁, hstepped⟩ := step_ok width hsound op
      obtain ⟨σ', hrun, hsound', hnext, hlater⟩ := ih hsound₁
      refine ⟨σ', hstep.bind hrun, hsound', hstepped.nextAddress.trans hnext, fun p hp hp' => ?_⟩
      obtain ⟨hp₁, huris₁⟩ := hlater p (hp.trans_le hstepped.nextAddress) hp'
      -- An old entry of the list was on it before the step.
      have hp₀ : p ∈ σ.globalHyperlinks := by
        obtain ⟨kept, new, hlist, hkept, hnew, -⟩ := hstepped.list
        rw [hlist, List.mem_append] at hp₁
        rcases hp₁ with hold | hfresh
        · exact hkept.subset hold
        · exact absurd (hnew p hfresh) (not_le.mpr hp)
      exact ⟨hp₀, huris₁.trans (hstepped.uris p hp₀ hp₁)⟩

/-- What is seen of the sets from outside: both trees of a set hold its entries, the list holds
those of all sets in the order they were made, and is counted and never full. -/
structure Kept (σ : State) : Prop where
  trees : ∀ hl s, σ.sets hl = some s → ∃ byInner byUri,
    RedBlackTree σ.innerKey s.byInner (σ.own hl).toFinset byInner ∧
    RedBlackTree σ.uriKey s.byUri (σ.own hl).toFinset byUri
  entries : ∀ p, p ∈ σ.globalHyperlinks ↔ ∃ u, σ.uris p = some u ∧ σ.sets u.tree ≠ none
  created : σ.globalHyperlinks.Pairwise (· < ·)
  count : σ.globalHyperlinksCount.toNat = σ.globalHyperlinks.length
  below : σ.globalHyperlinksCount < maxHyperlinks

theorem State.Sound.kept (hsound : σ.Sound) : Kept σ := by
  have hlinked := hsound.linked
  refine ⟨fun hl s hs => ?_, fun p => ⟨fun hp => ?_, ?_⟩, hlinked.created, hlinked.count, ?_⟩
  · obtain ⟨byInner, hinner, -⟩ := (hlinked.byInner hl s hs).tree
    obtain ⟨byUri, huri, -⟩ := (hlinked.byUri hl s hs).tree
    exact ⟨byInner, byUri, hinner, huri⟩
  · exact ⟨σ.uriAt p, hlinked.uris_eq hp, hlinked.owner p hp⟩
  · rintro ⟨u, hu, -⟩
    exact (hlinked.live p).mp (by rw [hu]; exact Option.some_ne_none _)
  · rw [UInt32.lt_iff_toNat_lt, hlinked.count]
    exact hsound.below

/-- Every run of calls returns. Putting finds the entry with the ID and the URI, or makes one;
entries leave as the oldest of a full list or with their set; and as long as an entry stays, its
set resolves its number to it. -/
theorem hyperlinks_run (ops : List Op) :
    ∃ σ, Returns (fun fuel => run width fuel State.empty ops) σ ∧ Kept σ ∧
      (∀ hl uriIn idIn, σ.sets hl ≠ none → ∃ σ' inner,
        Returns (fun fuel => hyperlinksPut width fuel σ hl uriIn idIn) (σ', inner) ∧
        PutAnswers width σ hl uriIn idIn σ' inner) ∧
      (∀ op, ∃ σ', Returns (fun fuel => step width fuel σ op) σ' ∧ Stepped σ op σ') ∧
      ∀ later, ∃ σ', Returns (fun fuel => run width fuel σ later) σ' ∧
        ∀ p u, σ.uris p = some u → p ∈ σ'.globalHyperlinks →
          Returns (fun fuel => hyperlinksGet fuel σ' u.tree u.inner) (some u) := by
  obtain ⟨σ, hrun, hsound, -, -⟩ := run_ok width State.empty_sound ops
  refine ⟨σ, hrun, hsound.kept, fun hl uriIn idIn hset => ?_, fun op => ?_, fun later => ?_⟩
  · obtain ⟨s, hs⟩ := Option.ne_none_iff_exists'.mp hset
    obtain ⟨σ', inner, hret, -, hanswers⟩ := hyperlinksPut_ok width hsound hs uriIn idIn
    exact ⟨σ', inner, hret, hanswers⟩
  · obtain ⟨σ', hstep, -, hstepped⟩ := step_ok width hsound op
    exact ⟨σ', hstep, hstepped⟩
  · obtain ⟨σ', hlater, hsound', -, hsame⟩ := run_ok width hsound later
    refine ⟨σ', hlater, fun p u hu hp => ?_⟩
    have hold : p ∈ σ.globalHyperlinks :=
      (hsound.linked.live p).mp (by rw [hu]; exact Option.some_ne_none _)
    have hat : σ'.uriAt p = u :=
      uriAt_eq ((hsame p (hsound.linked.lt_next hold) hp).2.trans hu)
    have hget := hyperlinksGet_ok hsound'.linked hp
    rwa [hat] at hget

end Runs

end Ztmux.Hyperlinks
