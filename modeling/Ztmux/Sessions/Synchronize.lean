import Ztmux.Sessions.Renumber

/-!
Keeping a group of sessions together.

Synchronizing a member gives it new winlinks at the indexes of another member. It stays at its
current index, or goes to its replacement when that index is gone, and it has a current winlink
afterwards if one of the two is an index of the other member.
-/

namespace Ztmux.Sessions

/-- The current winlink, or the one that would replace it, is at one of some indexes. -/
def Session.Lands (x : Session) (idxs : List Int) : Prop :=
  ∃ c, x.curw = some c ∧ ∃ wl ∈ x.windows, wl.idx ∈ idxs ∧
    (wl.ptr = c ∨ replacement x c = some wl.ptr)

variable {σ : World} {s target : SessionId} {windows : List Winlink}

/-! ### One member -/

theorem winlinkFindByIndex_isSome {i : Int} (hi : 0 ≤ i) :
    (∃ wl ∈ windows, wl.idx = i ∧ winlinkFindByIndex windows i = .ok (some wl)) ∨
      winlinkFindByIndex windows i = .ok none ∧ i ∉ windows.map (·.idx) := by
  rw [winlinkFindByIndex, if_neg (not_lt.mpr hi)]
  cases hfind : windows.find? fun wl => wl.idx = i with
  | some wl =>
      exact .inl ⟨wl, List.mem_of_find?_eq_some hfind, by simpa using List.find?_some hfind, rfl⟩
  | none =>
      refine .inr ⟨rfl, fun hmem => ?_⟩
      obtain ⟨wl, hwl, hidx⟩ := List.mem_map.mp hmem
      exact absurd hidx (by simpa using List.find?_eq_none.mp hfind wl hwl)

theorem moveOff_ok (h : σ.Valid s) (hlands : (σ.sessions s).Lands (windows.map (·.idx))) :
    ∃ σ', moveOff σ windows s = .ok σ' ∧ Moved s σ σ' ∧
      ∃ wl ∈ (σ'.sessions s).windows, (σ'.sessions s).curw = some wl.ptr ∧
        wl.idx ∈ windows.map (·.idx) := by
  obtain ⟨c, hcurw, wl, hwl, hidx, hland⟩ := hlands
  obtain ⟨c', hc, hcurw'⟩ := h.current
  obtain rfl : c = c' := Option.some.inj (hcurw.symm.trans hcurw')
  obtain ⟨cur, hcur, rfl, hderef⟩ := deref_of_mem hc
  rw [moveOff, hcurw]
  simp only [hderef, bind, Except.bind]
  rcases @winlinkFindByIndex_isSome windows _ (h.range cur hcur).1 with
    ⟨found, hfound, hat, hfind⟩ | ⟨hfind, hgone⟩
  · simp only [hfind]
    exact ⟨σ, rfl, h.moved, cur, hcur, hcurw, List.mem_map.mpr ⟨found, hfound, hat⟩⟩
  · simp only [hfind]
    obtain ⟨σ', p, hp, hleave, hmoved, hnew⟩ := leaveCurrent_ok h hcurw
    refine ⟨σ', hleave, hmoved, wl, by rwa [hmoved.windows], ?_, hidx⟩
    rcases hland with hland | hland
    · have heq : wl = cur := List.inj_on_of_nodup_map h.nodup hwl hcur hland
      exact absurd (heq ▸ hidx) hgone
    · rw [hnew, ← hp, hland]

theorem map_fst_links (windows : List Winlink) :
    (links windows).map (·.1) = windows.map (·.idx) := by
  rw [links, List.map_map]
  rfl

/-- The new winlink at the index of a winlink. -/
def sameIndex (new : List Winlink) (wl : Winlink) : Option Winlink :=
  new.find? fun x => x.idx = wl.idx

theorem eq_of_idx (hsorted : windows.Pairwise fun a b => a.idx < b.idx) {a b : Winlink}
    (ha : a ∈ windows) (hb : b ∈ windows) (h : a.idx = b.idx) : a = b := by
  have hnodup : (windows.map (·.idx)).Nodup :=
    List.pairwise_map.mpr (hsorted.imp fun hlt => hlt.ne)
  exact List.inj_on_of_nodup_map hnodup ha hb h

theorem World.Linked.synchronized_stack {new : List Winlink} (h : σ.Linked s)
    (hnew : (new.map (·.ptr)).Nodup) :
    ((σ.sessions s).lastw.filterMap (image (σ.sessions s).windows (sameIndex new))).Nodup ∧
      ∀ q ∈ (σ.sessions s).lastw.filterMap (image (σ.sessions s).windows (sameIndex new)),
        q ∈ new.map (·.ptr) := by
  refine ⟨nodup_filterMap h.stacked.nodup fun p _ p' _ q hq hq' => ?_, fun q hq => ?_⟩
  · obtain ⟨wl, hwl, rfl, wl2, hfind, hptr⟩ := image_eq_some hq
    obtain ⟨wl', hwl', rfl, wl2', hfind', hptr'⟩ := image_eq_some hq'
    have heq : wl2 = wl2' := List.inj_on_of_nodup_map hnew (List.mem_of_find?_eq_some hfind)
      (List.mem_of_find?_eq_some hfind') (hptr.trans hptr'.symm)
    have hidx : wl2.idx = wl.idx := by simpa using List.find?_some hfind
    have hidx' : wl2'.idx = wl'.idx := by simpa using List.find?_some hfind'
    rw [eq_of_idx h.sorted hwl hwl' (by rw [← hidx, ← hidx', heq])]
  · obtain ⟨p, -, hp⟩ := List.mem_filterMap.mp hq
    obtain ⟨wl, -, rfl, wl2, hfind, rfl⟩ := image_eq_some hp
    exact List.mem_map_of_mem (List.mem_of_find?_eq_some hfind)

theorem sessionGroupSynchronize1_ok (htarget : σ.Valid target) (h : σ.Valid s)
    (hlands : (σ.sessions s).Lands ((σ.sessions target).windows.map (·.idx))) :
    ∃ σ', sessionGroupSynchronize1 σ target s = .ok σ' ∧ Changes s σ σ' ∧ σ'.Valid s ∧
      links (σ'.sessions s).windows = links (σ.sessions target).windows := by
  let ww := (σ.sessions target).windows
  obtain ⟨σ₁, hmove, hmoved, wl, hwl, hcurw, hidx⟩ := moveOff_ok h hlands
  have hvalid := hmoved.valid
  obtain ⟨σ₂, new, hcopy, hcopied, hlinks⟩ := @copyWindows_ok σ₁ σ₁ s [] ww (Copied.start s σ₁)
    (by simpa [links, List.pairwise_map] using htarget.sorted) htarget.range
  replace hlinks : links new = links ww := hlinks
  have hsorted : (links new).Pairwise fun a b => a.1 < b.1 := by
    rw [hlinks]
    simpa [links, List.pairwise_map] using htarget.sorted
  have hindexes : new.map (·.idx) = ww.map (·.idx) := by
    rw [← map_fst_links, hlinks, map_fst_links]
  have hrange : ∀ y ∈ new, IsIndex y.idx := fun y hy => by
    obtain ⟨x, hx, heq⟩ :=
      List.mem_map.mp (hindexes ▸ List.mem_map_of_mem hy : y.idx ∈ ww.map (·.idx))
    exact heq ▸ htarget.range x hx
  -- The current winlink is replaced by the one at its index, and so are those on the stack.
  obtain ⟨y, hy, -, hfindcur⟩ | ⟨-, hgone⟩ :=
    @winlinkFindByIndex_isSome new _ (hvalid.range wl hwl).1
  swap
  · exact absurd hidx (hindexes ▸ hgone)
  have hrestack := @restack_ok σ₂ (σ₁.sessions s).windows (fun wl => winlinkFindByIndex new wl.idx)
    (sameIndex new) (fun x hx => if_neg (not_lt.mpr (hvalid.range x hx).1)) (σ₁.sessions s).lastw
    hvalid.stacked.mem
  obtain ⟨hnodup, hsub⟩ := hvalid.toLinked.synchronized_stack hcopied.nodup
  obtain ⟨hchanges, hvalid', hsession⟩ := hcopied.replace hsorted hrange hnodup hsub hy rfl
  refine ⟨_, ?_, hmoved.toMoves.changes.trans hchanges, hvalid', by rw [hsession]; exact hlinks⟩
  have hne : ww ≠ [] := by
    obtain ⟨p, hp, -⟩ := htarget.current
    exact fun hnil => by simp [Session.ptrs, ww, hnil] at hp
  obtain ⟨wl', hwl', hptr, hderef⟩ := deref_of_mem (List.mem_map_of_mem (f := Winlink.ptr) hwl)
  obtain rfl : wl' = wl := List.inj_on_of_nodup_map hvalid.nodup hwl' hwl hptr
  have hindex : currentIndex σ₁ target s = .ok wl'.idx := by
    rw [currentIndex, hcurw]
    simp only [hderef]
    rfl
  rw [sessionGroupSynchronize1]
  change (if ww = [] then _ else (moveOff σ ww s >>= _)) = _
  rw [if_neg hne, hmove]
  change (currentIndex σ₁ target s >>= _) = _
  rw [hindex]
  change (copyWindows σ₁ [] ww >>= _) = _
  rw [hcopy]
  change (winlinkFindByIndex new wl'.idx >>= _) = _
  rw [hfindcur]
  change (restack σ₂ _ (fun wl => winlinkFindByIndex new wl.idx) _ >>= _) = _
  rw [hrestack]
  rfl

end Ztmux.Sessions
