import Ztmux.Sessions.Synchronize

/-!
Runs of calls on the members of a group.

Renumbering moves one member to other indexes and does not synchronize the rest. The next call
that does then has to find each member, or its replacement, at an index that is still there.
-/

namespace Ztmux.Sessions

/-- The members of the group are valid and share no winlink. -/
structure World.Together (σ : World) : Prop where
  members : ∀ s ∈ σ.group, σ.Valid s
  nodup : σ.group.Nodup
  disjoint : ∀ s ∈ σ.group, ∀ t ∈ σ.group, s ≠ t →
    (σ.sessions s).ptrs.Disjoint (σ.sessions t).ptrs

/-- The members of the group have the same windows at the same indexes. -/
def World.Agree (σ : World) : Prop :=
  ∀ s ∈ σ.group, ∀ t ∈ σ.group, links (σ.sessions s).windows = links (σ.sessions t).windows

/-- The members other than `s` can be synchronized to winlinks at some indexes. -/
def World.AllLand (σ : World) (s : SessionId) (idxs : List Int) : Prop :=
  ∀ t ∈ σ.group, t ≠ s → (σ.sessions t).Lands idxs

/-- The winlinks that are left without one. -/
def Session.remaining (x : Session) (p : Nat) : List Winlink :=
  x.windows.filter fun wl => wl.ptr ≠ p

/-- A call on a member. A call that synchronizes finds the other members at indexes that will be
there; an attach that fails synchronizes nothing, and finds them in agreement. -/
def GroupAdmissible (σ : World) (s : SessionId) : Call → Prop
  | .attach _ idx => (-2 ^ 31 ≤ idx ∧ idx ≤ i32Max) ∧
      match winlinkIndex (σ.sessions s).windows idx with
      | .ok (some i) => σ.AllLand s (i :: (σ.sessions s).windows.map (·.idx))
      | _ => σ.Agree
  | .detach p => p ∈ (σ.sessions s).ptrs ∧
      ((σ.sessions s).remaining p ≠ [] →
        σ.AllLand s (((σ.sessions s).remaining p).map (·.idx)))
  | .setCurrent p => ∀ q, p = some q → q ∈ (σ.sessions s).ptrs
  | .select idx => 0 ≤ idx
  | .renumber => (σ.sessions s).Renumbers
  | _ => True

variable {σ σ' : World} {s target : SessionId}

theorem Session.Lands.mono {x : Session} {idxs idxs' : List Int} (h : x.Lands idxs)
    (hsub : idxs ⊆ idxs') : x.Lands idxs' := by
  obtain ⟨c, hcurw, wl, hwl, hidx, hland⟩ := h
  exact ⟨c, hcurw, wl, hwl, hsub hidx, hland⟩

/-- A call on one member keeps the others as they are. -/
theorem Changes.together (h : Changes s σ σ') (hσ : σ.Together) (hs : s ∈ σ.group)
    (hvalid : σ'.Valid s) : σ'.Together where
  members t ht := by
    rw [h.group] at ht
    by_cases hts : t = s
    · exact hts ▸ hvalid
    · exact h.valid hts (hσ.members t ht) (hσ.disjoint t ht s hs hts)
  nodup := by
    rw [h.group]
    exact hσ.nodup
  disjoint := by
    have hnew : ∀ t ∈ σ.group, t ≠ s → (σ'.sessions s).ptrs.Disjoint (σ.sessions t).ptrs := by
      intro t ht hts p hp hpt
      rcases h.ptrs p hp with hp | hp
      · exact hσ.disjoint t ht s hs hts hpt hp
      · exact absurd ((hσ.members t ht).fresh p hpt) (not_lt.mpr hp)
    intro t ht u hu hne
    rw [h.group] at ht hu
    by_cases hts : t = s
    · subst hts
      rw [h.others u hne.symm]
      exact hnew u hu hne.symm
    · by_cases hus : u = s
      · subst hus
        rw [h.others t hts]
        exact (hnew t ht hts).symm
      · rw [h.others t hts, h.others u hus]
        exact hσ.disjoint t ht u hu hne

/-! ### Synchronizing the group -/

theorem synchronizeAll_ok {ss : List SessionId} (hσ : σ.Together) (htarget : target ∈ σ.group)
    (hss : ss ⊆ σ.group) (hnodup : ss.Nodup)
    (hlands : ∀ t ∈ ss, t ≠ target →
      (σ.sessions t).Lands ((σ.sessions target).windows.map (·.idx))) :
    ∃ σ', synchronizeAll σ target ss = .ok σ' ∧ σ'.Together ∧ σ'.group = σ.group ∧
      σ'.sessions target = σ.sessions target ∧
      (∀ t ∈ ss, links (σ'.sessions t).windows = links (σ.sessions target).windows) ∧
      ∀ t, t ∉ ss → σ'.sessions t = σ.sessions t := by
  induction ss generalizing σ with
  | nil => exact ⟨σ, rfl, hσ, rfl, rfl, fun t ht => absurd ht List.not_mem_nil, fun _ _ => rfl⟩
  | cons s ss ih =>
      obtain ⟨hs, hss⟩ := List.cons_subset.mp hss
      obtain ⟨hnot, hnodup⟩ := List.nodup_cons.mp hnodup
      rw [synchronizeAll]
      split_ifs with heq
      · obtain ⟨σ', hsync, htogether, hgroup, hkept, hlinks, hothers⟩ :=
          ih hσ htarget hss hnodup fun t ht => hlands t (.tail _ ht)
        refine ⟨σ', hsync, htogether, hgroup, hkept, fun t ht => ?_, fun t ht =>
          hothers t fun hmem => ht (.tail _ hmem)⟩
        rcases List.mem_cons.mp ht with rfl | ht
        · rw [heq, hkept]
        · exact hlinks t ht
      · obtain ⟨σ₁, hsync₁, hchanges, hvalid, hlinks₁⟩ := sessionGroupSynchronize1_ok
          (hσ.members target htarget) (hσ.members s hs) (hlands s List.mem_cons_self heq)
        have htarget₁ : σ₁.sessions target = σ.sessions target :=
          hchanges.others target (Ne.symm heq)
        obtain ⟨σ', hsync, htogether, hgroup, hkept, hlinks, hothers⟩ :=
          ih (hchanges.together hσ hs hvalid) (by rwa [hchanges.group]) (by rwa [hchanges.group])
            hnodup
            fun t ht htt => by
              have hts : t ≠ s := fun h => hnot (h ▸ ht)
              rw [hchanges.others t hts, htarget₁]
              exact hlands t (.tail _ ht) htt
        refine ⟨σ', by rw [hsync₁]; exact hsync, htogether, hgroup.trans hchanges.group,
          hkept.trans htarget₁, fun t ht => ?_, fun t ht => ?_⟩
        · rcases List.mem_cons.mp ht with rfl | ht
          · rw [hothers t hnot, hlinks₁]
          · rw [hlinks t ht, htarget₁]
        · rw [List.mem_cons, not_or] at ht
          rw [hothers t ht.2, hchanges.others t ht.1]

theorem sessionGroupSynchronizeFrom_ok (hσ : σ.Together) (htarget : target ∈ σ.group)
    (hlands : σ.AllLand target ((σ.sessions target).windows.map (·.idx))) :
    ∃ σ', sessionGroupSynchronizeFrom σ target = .ok σ' ∧ σ'.Together ∧ σ'.Agree ∧
      σ'.sessions target = σ.sessions target := by
  obtain ⟨σ', hsync, htogether, hgroup, hkept, hlinks, -⟩ :=
    synchronizeAll_ok hσ htarget (fun _ h => h) hσ.nodup hlands
  refine ⟨σ', by rw [sessionGroupSynchronizeFrom, if_pos htarget, hsync], htogether, ?_, hkept⟩
  intro s hs t ht
  rw [hgroup] at hs ht
  rw [hlinks s hs, hlinks t ht]

/-! ### The calls -/

theorem Changes.allLand (h : Changes s σ σ') {idxs idxs' : List Int} (hland : σ.AllLand s idxs)
    (hsub : idxs ⊆ idxs') : σ'.AllLand s idxs' := by
  intro t ht hts
  rw [h.group] at ht
  rw [h.others t hts]
  exact (hland t ht hts).mono hsub

theorem group_attach_ok (hσ : σ.Together) (hs : s ∈ σ.group) {w : Window} {idx : Int}
    (hcall : GroupAdmissible σ s (.attach w idx)) :
    ∃ σ', exec σ s (.attach w idx) = .ok σ' ∧ σ'.Together ∧ σ'.Agree := by
  obtain ⟨⟨h0, hmax⟩, hland⟩ := hcall
  obtain ⟨found, hfound, hfree⟩ := winlinkIndex_ok (σ.sessions s).windows h0 hmax
  rw [hfound] at hland
  rw [exec, sessionAttach, winlinkAdd_eq, hfound]
  cases found with
  | none => exact ⟨σ, rfl, hσ, hland⟩
  | some i =>
      obtain ⟨hi, hnew⟩ := hfree i rfl
      obtain ⟨hchanges, hvalid, -⟩ := add_changes (hσ.members s hs) hi hnew w
      set σ₁ := (σ.add w).modify s fun x =>
        { x with windows := rbInsert ⟨σ.fresh, i, w⟩ (σ.sessions s).windows } with hσ₁
      have hwindows : (σ₁.sessions s).windows = rbInsert ⟨σ.fresh, i, w⟩ (σ.sessions s).windows :=
        congrArg Session.windows (modify_sessions_self _ _ _)
      have hsub : i :: (σ.sessions s).windows.map (·.idx) ⊆
          (σ₁.sessions s).windows.map (·.idx) := by
        rw [hwindows]
        exact ((rbInsert_perm ⟨σ.fresh, i, w⟩ (σ.sessions s).windows).map Winlink.idx).symm.subset
      obtain ⟨σ', hsync, htogether, hagree, -⟩ := sessionGroupSynchronizeFrom_ok
        (hchanges.together hσ hs hvalid) (by rwa [hchanges.group]) (hchanges.allLand hland hsub)
      refine ⟨σ', ?_, htogether, hagree⟩
      simp only [Except.map, Option.map_some, bind, Except.bind]
      rw [← hσ₁, hsync]
      rfl

theorem Session.remaining_eq_erase {x : Session} (hnodup : x.ptrs.Nodup) {wl : Winlink}
    (hwl : wl ∈ x.windows) : x.remaining wl.ptr = x.windows.erase wl := by
  rw [Session.remaining, (List.Nodup.of_map _ hnodup).erase_eq_filter]
  refine List.filter_congr fun y hy => ?_
  by_cases heq : y = wl
  · simp [heq]
  · have hne : y.ptr ≠ wl.ptr := fun h => heq (List.inj_on_of_nodup_map hnodup hy hwl h)
    simp [heq, hne]

theorem remaining_ne_nil {x : Session} (hnodup : x.ptrs.Nodup) {wl : Winlink} (hwl : wl ∈ x.windows)
    (hlength : 2 ≤ x.windows.length) : x.remaining wl.ptr ≠ [] := by
  rw [Session.remaining_eq_erase hnodup hwl]
  intro hnil
  have := List.length_erase_of_mem hwl
  rw [hnil, List.length_nil] at this
  omega

/-! ### Destroying the group -/

/-- The last window of a member is gone, and the others are not synchronized to nothing. -/
theorem synchronizeAll_empty (h : (σ.sessions target).windows = []) (ss : List SessionId) :
    synchronizeAll σ target ss = .ok σ := by
  induction ss with
  | nil => rfl
  | cons s ss ih =>
      have hone : sessionGroupSynchronize1 σ target s = .ok σ := if_pos h
      rw [synchronizeAll, hone]
      split_ifs with heq
      · exact ih
      · exact ih

theorem destroy_group {ss : List SessionId} (hgroup : σ.group = ss) (hnodup : ss.Nodup)
    (hcurw : ∀ t ∈ ss, (σ.sessions t).curw ≠ none) : (ss.foldl sessionDestroy σ).group = [] := by
  induction ss generalizing σ with
  | nil => exact hgroup
  | cons s ss ih =>
      obtain ⟨hnot, hnodup⟩ := List.nodup_cons.mp hnodup
      obtain ⟨hs, hcurw⟩ := List.forall_mem_cons.mp hcurw
      have hdestroy : sessionDestroy σ s =
          { replaceWindows σ s (σ.sessions s).windows [] [] none with
            group := σ.group.erase s } := if_neg hs
      rw [List.foldl_cons, hdestroy]
      refine ih (by rw [hgroup]; exact List.erase_cons_head s ss) hnodup fun t ht => ?_
      have hts : t ≠ s := fun heq => hnot (heq ▸ ht)
      obtain ⟨hsessions, -⟩ := foldl_unlink (σ.sessions s).windows σ
      have hkept : (replaceWindows σ s (σ.sessions s).windows [] [] none).sessions t =
          σ.sessions t := by
        rw [replaceWindows, modify_sessions_of_ne _ hts, hsessions]
      change ((replaceWindows σ s (σ.sessions s).windows [] [] none).sessions t).curw ≠ none
      rw [hkept]
      exact hcurw t ht

theorem group_detach_last_ok (hσ : σ.Together) (hs : s ∈ σ.group) {wl : Winlink}
    (hwindows : (σ.sessions s).windows = [wl]) :
    ∃ σ', exec σ s (.detach wl.ptr) = .ok σ' ∧ σ'.group = [] := by
  have h := hσ.members s hs
  obtain ⟨c, hc, hcurw⟩ := h.current
  obtain rfl : c = wl.ptr := by simpa [Session.ptrs, hwindows] using hc
  obtain ⟨σ₁, p, hp, hleave, hmoved, hnew⟩ := leaveCurrent_ok h hcurw
  have hwindows₁ : (σ₁.sessions s).windows = [wl] := hmoved.windows.trans hwindows
  have hwl₁ : wl ∈ (σ₁.sessions s).windows := by rw [hwindows₁]; exact List.mem_cons_self
  obtain ⟨σ₂, hremoved⟩ : ∃ σ₂, removeWinlink σ₁ s wl = σ₂ := ⟨_, rfl⟩
  have hσ₂ := removeWinlink_eq hmoved.valid.toLinked hwl₁
  rw [hremoved] at hσ₂
  have hsession : σ₂.sessions s = (σ₁.sessions s).without wl := by
    rw [hσ₂]
    exact modify_sessions_self σ₁ s (Session.without · wl)
  have hgroup : σ₂.group = σ.group := by
    rw [hσ₂]
    exact hmoved.group
  have hempty : (σ₂.sessions s).windows = [] := by
    rw [hsession]
    simp [Session.without, hwindows₁]
  have hcurw₂ : ∀ t ∈ σ.group, (σ₂.sessions t).curw ≠ none := by
    intro t ht
    by_cases hts : t = s
    · rw [hts, hsession]
      change (σ₁.sessions s).curw ≠ none
      rw [hnew]
      exact Option.some_ne_none p
    · have hkept : σ₂.sessions t = σ.sessions t := by
        rw [hσ₂, ← hmoved.others t hts]
        exact modify_sessions_of_ne σ₁ hts (Session.without · wl)
      obtain ⟨q, -, hq⟩ := (hσ.members t ht).current
      rw [hkept, hq]
      exact Option.some_ne_none q
  have hsync : sessionGroupSynchronizeFrom σ₂ s = .ok σ₂ := by
    rw [sessionGroupSynchronizeFrom, synchronizeAll_empty hempty]
    split_ifs <;> rfl
  have hderef : deref (σ₁.sessions s).windows wl.ptr = .ok wl := by simp [hwindows₁, deref]
  refine ⟨serverDestroySessionGroup σ₂ s, ?_, ?_⟩
  · rw [exec, serverUnlinkWindow, sessionDetach, leaveRemoved, if_pos hcurw, hleave]
    simp only [bind, Except.bind, hderef, hremoved, hsync]
    simp [pure, Except.pure, hempty]
  · rw [serverDestroySessionGroup, if_pos (by rwa [hgroup])]
    exact destroy_group rfl (by rw [hgroup]; exact hσ.nodup) (by rwa [hgroup])

theorem group_detach_ok (hσ : σ.Together) (hs : s ∈ σ.group) {p : Nat}
    (hcall : GroupAdmissible σ s (.detach p)) :
    ∃ σ', exec σ s (.detach p) = .ok σ' ∧ σ'.Together ∧ σ'.Agree := by
  obtain ⟨hp, hland⟩ := hcall
  have h := hσ.members s hs
  by_cases hlength : 2 ≤ (σ.sessions s).windows.length
  · obtain ⟨σ₁, wl, hwl, rfl, hleave, hderef, hchanges, hvalid, -, hwindows⟩ :=
      leave_remove h hp hlength
    have hremaining :
        (σ.sessions s).remaining wl.ptr = ((removeWinlink σ₁ s wl).sessions s).windows :=
      (Session.remaining_eq_erase h.nodup hwl).trans hwindows.symm
    have hall := hland (remaining_ne_nil h.nodup hwl hlength)
    rw [hremaining] at hall
    obtain ⟨σ', hsync, htogether, hagree, hkept⟩ := sessionGroupSynchronizeFrom_ok
      (hchanges.together hσ hs hvalid) (by rwa [hchanges.group])
        (hchanges.allLand hall fun _ h => h)
    have hnonempty : (σ'.sessions s).windows.isEmpty = false := by
      obtain ⟨q, hq, -⟩ := hvalid.current
      rw [hkept]
      exact List.isEmpty_eq_false_iff.mpr fun hnil => by simp [Session.ptrs, hnil] at hq
    refine ⟨σ', ?_, htogether, hagree⟩
    rw [exec, serverUnlinkWindow, sessionDetach, hleave]
    simp only [bind, Except.bind, hderef, hsync]
    simp [pure, Except.pure, hnonempty]
  · obtain ⟨wl, hwl, rfl, -⟩ := deref_of_mem hp
    have hone : (σ.sessions s).windows.length = 1 := by
      have := List.length_pos_of_mem hwl
      omega
    obtain ⟨wl', hwindows⟩ := List.length_eq_one_iff.mp hone
    obtain rfl : wl = wl' := by simpa [hwindows] using hwl
    obtain ⟨σ', hexec, hgroup⟩ := group_detach_last_ok hσ hs hwindows
    refine ⟨σ', hexec, ⟨?_, ?_, ?_⟩, ?_⟩
    all_goals simp [hgroup, World.Agree]

def Call.Synchronizes : Call → Prop
  | .attach _ _ => True
  | .detach _ => True
  | _ => False

theorem group_exec_ok (hσ : σ.Together) (hs : s ∈ σ.group) {call : Call}
    (hcall : GroupAdmissible σ s call) :
    ∃ σ', exec σ s call = .ok σ' ∧ σ'.Together ∧ (call.Synchronizes → σ'.Agree) := by
  have h := hσ.members s hs
  have hmove : ∀ {call : Exec (World × Int)}, (∃ σ' r, call = .ok (σ', r) ∧ Moved s σ σ') →
      ∃ σ', (do pure (← call).1 : Exec World) = .ok σ' ∧ σ'.Together ∧ (False → σ'.Agree) := by
    rintro _ ⟨σ', r, rfl, hmoved⟩
    exact ⟨σ', rfl, hmoved.toMoves.changes.together hσ hs hmoved.valid, False.elim⟩
  cases call with
  | attach w idx =>
      obtain ⟨σ', hexec, htogether, hagree⟩ := group_attach_ok hσ hs hcall
      exact ⟨σ', hexec, htogether, fun _ => hagree⟩
  | detach p =>
      obtain ⟨σ', hexec, htogether, hagree⟩ := group_detach_ok hσ hs hcall
      exact ⟨σ', hexec, htogether, fun _ => hagree⟩
  | setCurrent p => exact hmove (sessionSetCurrent_moved h hcall)
  | select idx => exact hmove (sessionSelect_moved h hcall)
  | next alert => exact hmove (sessionNext_moved h alert)
  | previous alert => exact hmove (sessionPrevious_moved h alert)
  | last => exact hmove (sessionLast_moved h)
  | renumber =>
      obtain ⟨σ', hexec, hchanges, hvalid, -, -⟩ := sessionRenumberWindows_ok h hcall
      exact ⟨σ', hexec, hchanges.together hσ hs hvalid, False.elim⟩

/-- One admissible call on a member. -/
def GroupStep (σ σ' : World) : Prop :=
  ∃ s ∈ σ.group, ∃ call, GroupAdmissible σ s call ∧ exec σ s call = .ok σ'

theorem group_run_together (h : σ.Together) (hrun : Relation.ReflTransGen GroupStep σ σ') :
    σ'.Together := by
  induction hrun with
  | refl => exact h
  | tail _ hstep ih =>
      obtain ⟨s, hs, call, hcall, hexec⟩ := hstep
      obtain ⟨σ₁, hexec₁, htogether, -⟩ := group_exec_ok ih hs hcall
      exact Except.ok.inj (hexec.symm.trans hexec₁) ▸ htogether

/-- Along every run of admissible calls on the members of a group, each member that has a window
has a current winlink of its own, and the next admissible call returns; after an attach or a
detach the members have the same windows at the same indexes. -/
theorem group_run (h : σ.Together) (hrun : Relation.ReflTransGen GroupStep σ σ') :
    (∀ s ∈ σ'.group, (σ'.sessions s).windows ≠ [] →
      ∃ p ∈ (σ'.sessions s).ptrs, (σ'.sessions s).curw = some p) ∧
    ∀ s ∈ σ'.group, ∀ call, GroupAdmissible σ' s call →
      ∃ σ₁, exec σ' s call = .ok σ₁ ∧ (call.Synchronizes → σ₁.Agree) := by
  have htogether := group_run_together h hrun
  refine ⟨fun s hs _ => (htogether.members s hs).current, fun s hs call hcall => ?_⟩
  obtain ⟨σ₁, hexec, -, hagree⟩ := group_exec_ok htogether hs hcall
  exact ⟨σ₁, hexec, hagree⟩

/-! ### A member that was renumbered -/

/-- Two members with three windows; the current one of the second member was visited last, after
its third. -/
def pair : World where
  sessions s := if s = 0 then ⟨[⟨0, 0, 0⟩, ⟨1, 5, 1⟩, ⟨2, 7, 2⟩], [], some 0, 0⟩
    else ⟨[⟨3, 0, 0⟩, ⟨4, 5, 1⟩, ⟨5, 7, 2⟩], [5], some 4, 0⟩
  group := [0, 1]
  visited p := p = 5
  alerts _ := 0
  winlinks w := [w, w + 3]
  references w := if w < 3 then 2 else 0
  fresh := 6

theorem pair_together : pair.Together where
  members s hs := by
    rcases List.mem_cons.mp hs with rfl | hs
    · exact ⟨⟨by decide, by decide, by decide, by decide, ⟨by decide, by decide, by decide⟩⟩,
        ⟨0, by decide, rfl⟩⟩
    · obtain rfl := List.mem_singleton.mp hs
      exact ⟨⟨by decide, by decide, by decide, by decide, ⟨by decide, by decide, by decide⟩⟩,
        ⟨4, by decide, rfl⟩⟩
  nodup := by decide
  disjoint := by
    have h : ∀ s ∈ pair.group, ∀ t ∈ pair.group, s ≠ t →
        ∀ p ∈ (pair.sessions s).ptrs, p ∉ (pair.sessions t).ptrs := by decide
    exact fun s hs t ht hne p hp => h s hs t ht hne p hp

/-- When the first member has been renumbered, an attach to it leaves the second without a
current winlink. -/
theorem renumber_attach_pair : pair.Together ∧ ∃ σ₁, exec pair 0 .renumber = .ok σ₁ ∧
    ∃ σ₂, exec σ₁ 0 (.attach 3 3) = .ok σ₂ ∧ (σ₂.sessions 1).windows ≠ [] ∧
      (σ₂.sessions 1).curw = none :=
  ⟨pair_together, _, rfl, _, rfl, by decide, by decide⟩

/-- Both members renumbered, and then a window attached to the first. -/
def pairRenumbered : World := (exec pair 0 .renumber).toOption.getD pair

def bothRenumbered : World := (exec pairRenumbered 1 .renumber).toOption.getD pair

def bothAttached : World := (exec bothRenumbered 0 (.attach 3 3)).toOption.getD pair

theorem group_run_pair : exec bothRenumbered 0 (.attach 3 3) = .ok bothAttached ∧
    bothAttached.Agree ∧
      ∃ p ∈ (bothAttached.sessions 1).ptrs, (bothAttached.sessions 1).curw = some p := by
  have hfirst : GroupStep pair pairRenumbered :=
    ⟨0, by decide, .renumber, ⟨by decide, by decide, by decide⟩, rfl⟩
  have hsecond : GroupStep pairRenumbered bothRenumbered :=
    ⟨1, by decide, .renumber, ⟨by decide, by decide, by decide⟩, rfl⟩
  have hrun := Relation.ReflTransGen.tail (.single hfirst) hsecond
  have hcall : GroupAdmissible bothRenumbered 0 (.attach 3 3) := by
    refine ⟨⟨by decide, by decide⟩, fun t ht hne => ?_⟩
    rcases List.mem_cons.mp ht with rfl | ht
    · exact absurd rfl hne
    · obtain rfl := List.mem_singleton.mp ht
      exact ⟨10, rfl, ⟨10, 1, 1⟩, by decide, by decide, .inl rfl⟩
  have hattach : exec bothRenumbered 0 (.attach 3 3) = .ok bothAttached := rfl
  obtain ⟨σ, hσ, hagree⟩ := (group_run pair_together hrun).2 0 (by decide) _ hcall
  obtain rfl : σ = bothAttached := Except.ok.inj (hσ.symm.trans hattach)
  have hthird : GroupStep bothRenumbered bothAttached := ⟨0, by decide, _, hcall, hattach⟩
  exact ⟨hattach, hagree trivial,
    (group_run pair_together (hrun.tail hthird)).1 1 (by decide) (by decide)⟩

end Ztmux.Sessions
