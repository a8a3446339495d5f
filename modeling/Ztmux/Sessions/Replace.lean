import Ztmux.Sessions.Links

/-!
Replacing the winlinks of a session by new ones.

The new winlinks have addresses that were never used, so they can be built while the old ones
are still there; what is left to check is where the current winlink and the stack end up.
-/

namespace Ztmux.Sessions

/-- The index and the window of each winlink. -/
def links (windows : List Winlink) : List (Int × Window) :=
  windows.map fun wl => (wl.idx, wl.window)

/-- New winlinks for a session have been made, and the session is still as it was. -/
structure Copied (s : SessionId) (σ σ' : World) (new : List Winlink) : Prop where
  sessions : σ'.sessions = σ.sessions
  group : σ'.group = σ.group
  fresh : σ.fresh ≤ σ'.fresh
  ptrs : ∀ p ∈ new.map (·.ptr), σ.fresh ≤ p ∧ p < σ'.fresh
  nodup : (new.map (·.ptr)).Nodup
  visited : ∀ p, p < σ.fresh → p ∉ (σ.sessions s).ptrs → σ'.visited p = σ.visited p
  unvisited : ∀ p ∈ new.map (·.ptr), σ'.visited p = false
  references : ∀ w, σ'.references w =
    σ.references w + UInt32.ofNat (new.countP fun wl => wl.window = w)

variable {σ σ' : World} {s : SessionId} {new : List Winlink}

theorem Copied.start (s : SessionId) (σ : World) : Copied s σ σ [] where
  sessions := rfl
  group := rfl
  fresh := le_rfl
  ptrs _ hp := absurd hp List.not_mem_nil
  nodup := List.nodup_nil
  visited _ _ _ := rfl
  unvisited _ hp := absurd hp List.not_mem_nil
  references _ := (add_zero _).symm

theorem relink_ok (wl : Winlink) {idx : Int} (hidx : IsIndex idx) (hend : ∀ x ∈ new, x.idx < idx) :
    ∃ alerts, relink σ new wl idx = .ok ({ σ.add wl.window with alerts := alerts },
      new ++ [⟨σ.fresh, idx, wl.window⟩], ⟨σ.fresh, idx, wl.window⟩) := by
  have hfree : winlinkIndex new idx = .ok (some idx) := by
    have hnone : (new.find? fun x => x.idx = idx) = none :=
      List.find?_eq_none.mpr fun x hx => by simpa using (hend x hx).ne
    have hneg : ¬idx < 0 := not_lt.mpr hidx.1
    rw [winlinkIndex, if_neg hneg, winlinkFindByIndex, if_neg hneg, hnone]
    rfl
  rw [relink, winlinkAdd_eq, hfree]
  rw [← @rbInsert_end ⟨σ.fresh, idx, wl.window⟩ new hend]
  exact ⟨_, rfl⟩

theorem Copied.snoc (h : Copied s σ σ' new) (idx : Int) (w : Window) (alerts : Nat → BitVec 3) :
    Copied s σ { σ'.add w with alerts := alerts } (new ++ [⟨σ'.fresh, idx, w⟩]) where
  sessions := h.sessions
  group := h.group
  fresh := h.fresh.trans (Nat.le_succ _)
  ptrs p hp := by
    rw [List.map_append, List.mem_append] at hp
    rcases hp with hp | hp
    · exact ⟨(h.ptrs p hp).1, (h.ptrs p hp).2.trans (Nat.lt_succ_self _)⟩
    · obtain rfl : p = σ'.fresh := by simpa using hp
      exact ⟨h.fresh, Nat.lt_succ_self _⟩
  nodup := by
    rw [List.map_append, List.nodup_append]
    refine ⟨h.nodup, List.nodup_singleton _, fun p hp q hq => ?_⟩
    obtain rfl : q = σ'.fresh := by simpa using hq
    exact (h.ptrs p hp).2.ne
  visited p hp hnot := by
    rw [← h.visited p hp hnot]
    exact Function.update_of_ne (hp.trans_le h.fresh).ne _ _
  unvisited p hp := by
    change Function.update σ'.visited σ'.fresh false p = false
    rw [List.map_append, List.mem_append] at hp
    rcases hp with hp | hp
    · rw [Function.update_of_ne (h.ptrs p hp).2.ne, h.unvisited p hp]
    · obtain rfl : p = σ'.fresh := by simpa using hp
      exact Function.update_self _ _ _
  references v := by
    change Function.update σ'.references w (σ'.references w + 1) v = _
    rw [references_update, h.references, List.countP_append, UInt32.ofNat_add,
      List.countP_singleton, add_assoc]
    simp only [decide_eq_true_eq]
    split_ifs <;> rfl

theorem links_snoc (new : List Winlink) (p : Nat) (idx : Int) (w : Window) :
    links (new ++ [⟨p, idx, w⟩]) = links new ++ [(idx, w)] := List.map_append

theorem lt_of_links {a : Winlink} {rest : List (Int × Window)}
    (h : (links new ++ (a.idx, a.window) :: rest).Pairwise fun a b => a.1 < b.1) :
    ∀ x ∈ new, x.idx < a.idx := fun x hx =>
  (List.pairwise_append.mp h).2.2 (x.idx, x.window) (List.mem_map_of_mem hx) _ List.mem_cons_self

theorem copyWindows_ok {wls : List Winlink} (h : Copied s σ σ' new)
    (hsorted : (links new ++ links wls).Pairwise fun a b => a.1 < b.1)
    (hrange : ∀ wl ∈ wls, IsIndex wl.idx) :
    ∃ σ₁ new₁, copyWindows σ' new wls = .ok (σ₁, new₁) ∧ Copied s σ σ₁ new₁ ∧
      links new₁ = links new ++ links wls := by
  induction wls generalizing σ' new with
  | nil => exact ⟨σ', new, rfl, h, (List.append_nil _).symm⟩
  | cons wl wls ih =>
      obtain ⟨alerts, hrelink⟩ := relink_ok (σ := σ') wl (hrange wl List.mem_cons_self)
        (lt_of_links hsorted)
      have happend : links new ++ links (wl :: wls) =
          links (new ++ [⟨σ'.fresh, wl.idx, wl.window⟩]) ++ links wls := by
        rw [links_snoc, List.append_assoc]
        rfl
      obtain ⟨σ₁, new₁, hcopy, hcopied, hlinks⟩ := ih (h.snoc wl.idx wl.window alerts)
        (by rwa [← happend]) fun x hx => hrange x (.tail _ hx)
      refine ⟨σ₁, new₁, ?_, hcopied, hlinks.trans happend.symm⟩
      rw [copyWindows, hrelink]
      exact hcopy

/-- The indexes that renumbering gives. -/
def numbered (idx : Int) : List Winlink → List (Int × Window)
  | [] => []
  | wl :: wls => (idx, wl.window) :: numbered (idx + 1) wls

theorem renumber_ok {wls : List Winlink} {curw : Option Nat} {idx cur : Int} (h : Copied s σ σ' new)
    (h0 : 0 ≤ idx) (hfits : idx + wls.length ≤ 2 ^ 31) (hend : ∀ x ∈ new, x.idx < idx)
    (hnodup : (wls.map (·.ptr)).Nodup) :
    ∃ σ₁ new₁ cur₁, renumber curw σ' new idx cur wls = .ok (σ₁, new₁, cur₁) ∧ Copied s σ σ₁ new₁ ∧
      links new₁ = links new ++ numbered idx wls ∧
      (∀ (i : Nat) wl, wls[i]? = some wl → curw = some wl.ptr → cur₁ = idx + i) ∧
      ((∀ p ∈ wls.map (·.ptr), curw ≠ some p) → cur₁ = cur) ∧
      new₁.map (·.ptr) = new.map (·.ptr) ++ List.range' σ'.fresh wls.length := by
  induction wls generalizing σ' new idx cur with
  | nil =>
      exact ⟨σ', new, cur, rfl, h, (List.append_nil _).symm, by simp, fun _ => rfl,
        (List.append_nil _).symm⟩
  | cons wl wls ih =>
      rw [List.length_cons, Nat.cast_succ] at hfits
      obtain ⟨hwl, hnodup⟩ := List.nodup_cons.mp hnodup
      have hidx : IsIndex idx := by rw [IsIndex, i32Max]; omega
      obtain ⟨alerts, hrelink⟩ := relink_ok (σ := σ') wl hidx hend
      have hcopied := h.snoc idx wl.window alerts
      set new₀ := new ++ [⟨σ'.fresh, idx, wl.window⟩] with hnew₀
      have hend₀ : ∀ x ∈ new₀, x.idx < idx + 1 := by
        intro x hx
        rcases List.mem_append.mp hx with hx | hx
        · exact (hend x hx).trans (lt_add_one idx)
        · rw [List.mem_singleton.mp hx]
          exact lt_add_one idx
      -- Only after the last window can the next index not be an `i32`, and then it is not used.
      obtain ⟨σ₁, new₁, cur₁, hrenumber, hcopied₁, hlinks, hcur, hout, hptrs⟩ :
          ∃ σ₁ new₁ cur₁, renumber curw { σ'.add wl.window with alerts := alerts } new₀
              (wrapI32 (idx + 1)) (if curw = some wl.ptr then idx else cur) wls =
                .ok (σ₁, new₁, cur₁) ∧ Copied s σ σ₁ new₁ ∧
            links new₁ = links new₀ ++ numbered (idx + 1) wls ∧
            (∀ (i : Nat) x, wls[i]? = some x → curw = some x.ptr → cur₁ = idx + 1 + i) ∧
            ((∀ p ∈ wls.map (·.ptr), curw ≠ some p) →
              cur₁ = if curw = some wl.ptr then idx else cur) ∧
            new₁.map (·.ptr) = new₀.map (·.ptr) ++ List.range' (σ'.fresh + 1) wls.length := by
        rcases wls with - | ⟨x, wls⟩
        · exact ⟨_, new₀, _, rfl, hcopied, (List.append_nil _).symm, by simp, fun _ => rfl,
            (List.append_nil _).symm⟩
        · rw [List.length_cons, Nat.cast_succ] at hfits
          rw [wrapI32_of_lt (by omega) (by omega)]
          exact ih hcopied (by omega) (by rw [List.length_cons, Nat.cast_succ]; omega) hend₀ hnodup
      refine ⟨σ₁, new₁, cur₁, ?_, hcopied₁, ?_, fun i x hx hcurw => ?_, fun hnone => ?_, ?_⟩
      · rw [renumber, hrelink]
        exact hrenumber
      · rw [hlinks, hnew₀, links_snoc, List.append_assoc]
        rfl
      · cases i with
        | zero =>
            obtain rfl : wl = x := by simpa using hx
            rw [hout fun p hp heq => absurd hp (Option.some.inj (hcurw.symm.trans heq) ▸ hwl),
              if_pos hcurw]
            simp
        | succ i =>
            rw [hcur i x (by simpa using hx) hcurw]
            push_cast
            omega
      · rw [hout fun p hp => hnone p (.tail _ hp), if_neg (hnone wl.ptr List.mem_cons_self)]
      · rw [hptrs, hnew₀, List.map_append, List.append_assoc, List.length_cons, List.range'_succ]
        rfl

/-! ### The stack -/

/-- The winlink that replaces one of the stack, when `find` returns `f`. -/
def image (old : List Winlink) (f : Winlink → Option Winlink) (p : Nat) : Option Nat :=
  ((old.find? fun wl => wl.ptr = p).bind f).map (·.ptr)

theorem image_eq_some {old : List Winlink} {f : Winlink → Option Winlink} {p q : Nat}
    (h : image old f p = some q) :
    ∃ wl ∈ old, wl.ptr = p ∧ ∃ wl2, f wl = some wl2 ∧ wl2.ptr = q := by
  obtain ⟨wl2, hbind, hq⟩ := Option.map_eq_some_iff.mp h
  obtain ⟨wl, hfind, hf⟩ := Option.bind_eq_some_iff.mp hbind
  exact ⟨wl, List.mem_of_find?_eq_some hfind, by simpa using List.find?_some hfind, wl2, hf, hq⟩

/-- The winlinks of a new stack have the flag. -/
def World.visit (σ : World) (ps : List Nat) : World :=
  { σ with visited := fun p => decide (p ∈ ps) || σ.visited p }

theorem visit_update (σ : World) (p : Nat) (ps : List Nat) :
    { σ with visited := Function.update σ.visited p true }.visit ps = σ.visit (p :: ps) := by
  have hvisited : (fun q => decide (q ∈ ps) || Function.update σ.visited p true q) =
      fun q => decide (q ∈ p :: ps) || σ.visited q := by
    funext q
    rw [Function.update_apply]
    split_ifs with heq <;> simp [heq]
  rw [World.visit, hvisited]
  rfl

theorem restack_ok (σ : World) {old : List Winlink} {find : Winlink → Exec (Option Winlink)}
    {f : Winlink → Option Winlink} (hfind : ∀ wl ∈ old, find wl = .ok (f wl)) {ps : List Nat}
    (hps : ∀ p ∈ ps, p ∈ old.map (·.ptr)) :
    restack σ old find ps =
      .ok (σ.visit (ps.filterMap (image old f)), ps.filterMap (image old f)) := by
  induction ps generalizing σ with
  | nil => simp [restack, World.visit, pure, Except.pure]
  | cons p ps ih =>
      obtain ⟨hp, hps⟩ := List.forall_mem_cons.mp hps
      obtain ⟨wl, hwl, -, hderef⟩ := deref_of_mem hp
      have himage : image old f p = (f wl).map (·.ptr) := by
        rw [deref] at hderef
        rw [image]
        cases hsearch : old.find? fun wl => wl.ptr = p with
        | none => simp [hsearch] at hderef
        | some x =>
            simp only [hsearch, Except.ok.injEq] at hderef
            rw [hderef]
            rfl
      rw [restack, hderef]
      simp only [bind, Except.bind, hfind wl hwl, List.filterMap_cons, himage]
      cases hf : f wl with
      | none => exact ih σ hps
      | some wl2 =>
          simp only [ih _ hps, Option.map_some, pure, Except.pure, visit_update]

/-- A stack keeps its winlinks apart when no two of them are replaced by one. -/
theorem nodup_filterMap {ps : List Nat} {f : Nat → Option Nat} (hps : ps.Nodup)
    (h : ∀ p ∈ ps, ∀ p' ∈ ps, ∀ q, f p = some q → f p' = some q → p = p') :
    (ps.filterMap f).Nodup := by
  refine List.pairwise_filterMap.mpr (hps.imp_of_mem fun {p p'} hp hp' hne q hq q' hq' heq => ?_)
  exact hne (h p hp p' hp' q hq (heq ▸ hq'))

/-! ### The new winlinks take over -/

theorem foldl_unlink (old : List Winlink) (σ : World) :
    (old.foldl unlink σ).sessions = σ.sessions ∧ (old.foldl unlink σ).group = σ.group ∧
      (old.foldl unlink σ).visited = σ.visited ∧ (old.foldl unlink σ).fresh = σ.fresh ∧
      ∀ w, (old.foldl unlink σ).references w =
        σ.references w - UInt32.ofNat (old.countP fun wl => wl.window = w) := by
  induction old generalizing σ with
  | nil => exact ⟨rfl, rfl, rfl, rfl, fun w => (sub_zero _).symm⟩
  | cons wl old ih =>
      obtain ⟨hsessions, hgroup, hvisited, hfresh, hreferences⟩ := ih (unlink σ wl)
      refine ⟨hsessions, hgroup, hvisited, hfresh, fun w => ?_⟩
      rw [List.foldl_cons, hreferences]
      change Function.update σ.references wl.window (σ.references wl.window - 1) w - _ = _
      rw [sub_eq_add_neg (σ.references wl.window), references_update, List.countP_cons,
        UInt32.ofNat_add]
      simp only [decide_eq_true_eq]
      split_ifs
      · rw [← sub_eq_add_neg, sub_sub, add_comm]
        rfl
      · rw [add_zero]
        exact congrArg _ (add_zero _).symm

theorem Copied.unvisit (h : Copied s σ σ' new) {ps : List Nat}
    (hps : ∀ p ∈ ps, p ∈ (σ.sessions s).ptrs) : Copied s σ (unvisit σ' ps) new :=
  { h with
    visited := fun p hp hnot =>
      (if_neg fun hmem => hnot (hps p hmem)).trans (h.visited p hp hnot)
    unvisited := fun p hp => by
      change (if p ∈ ps then false else σ'.visited p) = false
      rw [h.unvisited p hp, ite_self] }

theorem Copied.replace (h : Copied s σ σ' new)
    (hsorted : (links new).Pairwise fun a b => a.1 < b.1) (hrange : ∀ wl ∈ new, IsIndex wl.idx)
    {lastw : List Nat} (hlastw : lastw.Nodup) (hsub : ∀ p ∈ lastw, p ∈ new.map (·.ptr))
    {cur : Winlink} (hcur : cur ∈ new) {σ₁ : World}
    (hσ₁ : replaceWindows (σ'.visit lastw) s (σ.sessions s).windows new lastw (some cur) = σ₁) :
    Changes s σ σ₁ ∧ σ₁.Valid s ∧
      σ₁.sessions s =
        { σ.sessions s with windows := new, lastw := lastw, curw := some cur.ptr } := by
  obtain ⟨hsessions, hgroup, hvisited, hfresh, hreferences⟩ :=
    foldl_unlink (σ.sessions s).windows (σ'.visit lastw)
  set σ₀ := (σ.sessions s).windows.foldl unlink (σ'.visit lastw) with hσ₀
  have hold : σ₀.sessions = σ.sessions := hsessions.trans h.sessions
  have hsession : σ₁.sessions s =
      { σ.sessions s with windows := new, lastw := lastw, curw := some cur.ptr } := by
    have hself : σ₁.sessions s =
        { σ₀.sessions s with windows := new, lastw := lastw, curw := some cur.ptr } := by
      rw [← hσ₁]
      exact Function.update_self s _ σ₀.sessions
    rw [hself, hold]
  have hflags : ∀ p, σ₁.visited p = (decide (p ∈ lastw) || σ'.visited p) := fun p => by
    rw [← hσ₁]
    exact congrFun hvisited p
  refine ⟨⟨fun t ht => ?_, fun p hp hnot => ?_, ?_, fun p hp => ?_, ?_,
    by rw [hsession], fun w => ?_⟩, ⟨⟨?_, ?_, ?_, fun p hp => ?_, ?_⟩, ?_⟩, hsession⟩
  · rw [← hold, ← hσ₁]
    exact Function.update_of_ne ht _ σ₀.sessions
  · have hnew : p ∉ lastw := fun hmem => absurd (h.ptrs p (hsub p hmem)).1 (not_le.mpr hp)
    rw [hflags, h.visited p hp hnot, decide_eq_false hnew, Bool.false_or]
  · rw [← hσ₁]
    exact h.fresh.trans hfresh.ge
  · rw [hsession] at hp
    exact .inr (h.ptrs p hp).1
  · rw [← hσ₁]
    exact hgroup.trans h.group
  · rw [World.contributed, hsession, ← hσ₁]
    change σ₀.references w - UInt32.ofNat (new.countP fun wl => wl.window = w) = _
    rw [hreferences]
    change σ'.references w - _ - _ = _
    rw [h.references, sub_right_comm, add_sub_cancel_right]
    rfl
  · rw [hsession]
    simpa [links, List.pairwise_map] using hsorted
  · rw [hsession]
    exact hrange
  · rw [hsession]
    exact h.nodup
  · rw [hsession] at hp
    rw [← hσ₁]
    exact (h.ptrs p hp).2.trans_le hfresh.ge
  · rw [hsession]
    exact ⟨hlastw, hsub, fun p hp => by rw [hflags, h.unvisited p hp]; simp⟩
  · rw [hsession]
    exact ⟨cur.ptr, List.mem_map_of_mem hcur, rfl⟩

end Ztmux.Sessions
