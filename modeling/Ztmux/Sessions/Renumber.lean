import Ztmux.Sessions.Replace

/-!
Renumbering the windows of a session.

The current winlink is looked up by its new index, so it is found again. The winlinks on the
stack are looked up by their windows, which finds the first winlink to the window.
-/

namespace Ztmux.Sessions

def Session.windowOf (x : Session) (p : Nat) : Option Window :=
  (x.windows.find? fun wl => wl.ptr = p).map (·.window)

def Session.visitedWindows (x : Session) : List Window := x.lastw.filterMap x.windowOf

/-- The new indexes are `i32` and no window is on the stack twice. -/
structure Session.Renumbers (x : Session) : Prop where
  base : 0 ≤ x.baseIndex
  fits : x.baseIndex + x.windows.length ≤ 2 ^ 31
  distinct : x.visitedWindows.Nodup

/-- The current winlink is not the first to a window on the stack. -/
def Session.CurrentKept (x : Session) : Prop :=
  ∀ w ∈ x.visitedWindows, ∀ wl, winlinkFindByWindow x.windows w = some wl → x.curw ≠ some wl.ptr

variable {σ : World} {s : SessionId} {windows new : List Winlink}

/-! ### Positions -/

theorem winlinkFindByIndex_of_mem (hsorted : windows.Pairwise fun a b => a.idx < b.idx)
    {wl : Winlink}
    (hwl : wl ∈ windows) (hidx : 0 ≤ wl.idx) :
    winlinkFindByIndex windows wl.idx = .ok (some wl) := by
  rw [winlinkFindByIndex, if_neg (not_lt.mpr hidx)]
  obtain ⟨front, back, rfl⟩ := List.append_of_mem hwl
  have hfront : ∀ x ∈ front, x.idx ≠ wl.idx := fun x hx =>
    ((List.pairwise_append.mp hsorted).2.2 x hx wl List.mem_cons_self).ne
  have hnone : (front.find? fun x => x.idx = wl.idx) = none :=
    List.find?_eq_none.mpr fun x hx => by simpa using hfront x hx
  rw [List.find?_append, hnone, List.find?_cons_of_pos (by simp)]
  rfl

theorem winlinkFindByWindow_eq (windows : List Winlink) (w : Window) :
    winlinkFindByWindow windows w = windows[(windows.map (·.window)).findIdx fun v => v = w]? := by
  rw [winlinkFindByWindow, List.find?_eq_getElem?_findIdx, List.findIdx_map]
  rfl

theorem numbered_getElem? (idx : Int) (wls : List Winlink) (i : Nat) :
    (numbered idx wls)[i]? = wls[i]?.map fun wl => (idx + i, wl.window) := by
  induction wls generalizing idx i with
  | nil => rfl
  | cons wl wls ih =>
      cases i with
      | zero => simp [numbered]
      | succ i =>
          rw [numbered, List.getElem?_cons_succ, List.getElem?_cons_succ, ih]
          congr 1
          funext x
          push_cast
          rw [add_assoc, add_comm (1 : Int)]

theorem numbered_sorted (idx : Int) (wls : List Winlink) :
    (numbered idx wls).Pairwise (fun a b => a.1 < b.1) ∧
      ∀ l ∈ numbered idx wls, idx ≤ l.1 ∧ l.1 < idx + wls.length := by
  induction wls generalizing idx with
  | nil => exact ⟨List.Pairwise.nil, fun l hl => absurd hl List.not_mem_nil⟩
  | cons wl wls ih =>
      obtain ⟨hsorted, hrange⟩ := ih (idx + 1)
      rw [List.length_cons, Nat.cast_succ]
      refine ⟨List.pairwise_cons.mpr ⟨fun l hl => ?_, hsorted⟩, fun l hl => ?_⟩
      · have := (hrange l hl).1
        dsimp only
        omega
      · rcases List.mem_cons.mp hl with rfl | hl
        · dsimp only
          omega
        · have := hrange l hl
          omega

theorem numbered_windows (idx : Int) (wls : List Winlink) :
    (numbered idx wls).map (·.2) = wls.map (·.window) := by
  induction wls generalizing idx with
  | nil => rfl
  | cons wl wls ih => rw [numbered, List.map_cons, List.map_cons, ih]

/-! ### The call -/

theorem windowOf_eq {x : Session} (hnodup : x.ptrs.Nodup) {wl : Winlink} (hwl : wl ∈ x.windows) :
    x.windowOf wl.ptr = some wl.window := by
  obtain ⟨wl', hwl', hptr, hderef⟩ := deref_of_mem (List.mem_map_of_mem (f := Winlink.ptr) hwl)
  have heq : wl' = wl := List.inj_on_of_nodup_map hnodup hwl' hwl hptr
  rw [deref] at hderef
  rw [Session.windowOf]
  cases hfind : x.windows.find? fun y => y.ptr = wl.ptr with
  | none => simp [hfind] at hderef
  | some y =>
      simp only [hfind, Except.ok.injEq] at hderef
      rw [hderef, heq]
      rfl

/-- Two winlinks on the stack are to different windows. -/
theorem Session.Renumbers.eq_of_windowOf {x : Session} (hr : x.Renumbers) {p q : Nat}
    (hp : p ∈ x.lastw) (hq : q ∈ x.lastw) {w : Window} (hpw : x.windowOf p = some w)
    (hqw : x.windowOf q = some w) : p = q := by
  by_contra hne
  have hpairwise := List.pairwise_filterMap.mp hr.distinct
  have hsymm : Std.Symm fun a b => ∀ v, x.windowOf a = some v → ∀ v', x.windowOf b = some v' →
      v ≠ v' :=
    ⟨fun a b hab v hv v' hv' heq => hab v' hv' v hv heq.symm⟩
  exact hpairwise.forall hp hq hne w hpw w hqw rfl

/-- The first new winlink to the window of a winlink. -/
def firstOf (new : List Winlink) (wl : Winlink) : Option Winlink :=
  winlinkFindByWindow new wl.window

theorem image_firstOf {x : Session} (hnodup : x.ptrs.Nodup) {p q : Nat}
    (h : image x.windows (firstOf new) p = some q) :
    ∃ w, x.windowOf p = some w ∧ ∃ wl2 ∈ new, winlinkFindByWindow new w = some wl2 ∧
      wl2.window = w ∧ wl2.ptr = q := by
  obtain ⟨wl, hwl, rfl, wl2, hfind, hptr⟩ := image_eq_some h
  exact ⟨wl.window, windowOf_eq hnodup hwl, wl2, List.mem_of_find?_eq_some hfind, hfind,
    by simpa using List.find?_some hfind, hptr⟩

theorem Session.Renumbers.stack {x : Session} (hr : x.Renumbers) (hnodup : x.ptrs.Nodup)
    (hlastw : x.lastw.Nodup) (hnew : (new.map (·.ptr)).Nodup) :
    (x.lastw.filterMap (image x.windows (firstOf new))).Nodup ∧
      ∀ q ∈ x.lastw.filterMap (image x.windows (firstOf new)), q ∈ new.map (·.ptr) := by
  refine ⟨nodup_filterMap hlastw fun p hp p' hp' q hq hq' => ?_, fun q hq => ?_⟩
  · obtain ⟨w, hw, wl2, hmem, -, hwindow, hptr⟩ := image_firstOf hnodup hq
    obtain ⟨w', hw', wl2', hmem', -, hwindow', hptr'⟩ := image_firstOf hnodup hq'
    have heq : wl2 = wl2' := List.inj_on_of_nodup_map hnew hmem hmem' (hptr.trans hptr'.symm)
    have hsame : w' = w := by rw [← hwindow, ← hwindow', heq]
    exact hr.eq_of_windowOf hp hp' hw (hsame ▸ hw')
  · obtain ⟨p, -, hp⟩ := List.mem_filterMap.mp hq
    obtain ⟨w, -, wl2, hmem, -, -, rfl⟩ := image_firstOf hnodup hp
    exact List.mem_map_of_mem hmem

/-- The winlink at the same place of the new ones, and the index it has. -/
theorem exists_renumbered {old : List Winlink} {base : Int} (hlinks : links new = numbered base old)
    {i : Nat} {wl : Winlink} (hi : old[i]? = some wl) :
    ∃ y, new[i]? = some y ∧ y.idx = base + i ∧ y.window = wl.window := by
  have hplace := congrArg (·[i]?) hlinks
  simp only [numbered_getElem?, hi, links, List.getElem?_map, Option.map_some] at hplace
  obtain ⟨y, hy, heq⟩ := Option.map_eq_some_iff.mp hplace
  exact ⟨y, hy, Prod.mk.inj heq⟩

/-- What the call makes of a session: the current winlink is replaced by the one at its place, and
those on the stack by the first to their windows. -/
theorem sessionRenumberWindows_eq (h : σ.Valid s) (h0 : 0 ≤ (σ.sessions s).baseIndex)
    (hfits : (σ.sessions s).baseIndex + (σ.sessions s).windows.length ≤ 2 ^ 31) :
    ∃ σ₁ new cur y, ∃ (i : Nat) (wl : Winlink),
      renumber (σ.sessions s).curw σ [] (σ.sessions s).baseIndex 0 (σ.sessions s).windows =
        .ok (σ₁, new, cur) ∧
      Copied s σ σ₁ new ∧
      links new = numbered (σ.sessions s).baseIndex (σ.sessions s).windows ∧
      new.map (·.ptr) = List.range' σ.fresh (σ.sessions s).windows.length ∧
      (σ.sessions s).windows[i]? = some wl ∧ (σ.sessions s).curw = some wl.ptr ∧ new[i]? = some y ∧
      sessionRenumberWindows σ s = .ok (replaceWindows
        ((unvisit σ₁ (σ.sessions s).lastw).visit
          ((σ.sessions s).lastw.filterMap (image (σ.sessions s).windows (firstOf new))))
        s (σ.sessions s).windows new
        ((σ.sessions s).lastw.filterMap (image (σ.sessions s).windows (firstOf new)))
          (some y)) := by
  let x := σ.sessions s
  obtain ⟨σ₁, new, cur₁, hrenumber, hcopied, hlinks, hcur, -, hptrs⟩ :=
    @renumber_ok σ σ s [] x.windows x.curw x.baseIndex 0 (Copied.start s σ) h0 hfits
      (fun y hy => absurd hy List.not_mem_nil) h.nodup
  replace hlinks : links new = numbered x.baseIndex x.windows := hlinks
  have hsorted := (numbered_sorted x.baseIndex x.windows).1
  rw [← hlinks] at hsorted
  obtain ⟨c, hc, hcurw⟩ := h.current
  obtain ⟨wl, hwl, rfl⟩ := List.mem_map.mp hc
  obtain ⟨i, hi⟩ := List.getElem?_of_mem hwl
  obtain ⟨y, hy, hidx, -⟩ := exists_renumbered hlinks hi
  have hfindcur : winlinkFindByIndex new cur₁ = .ok (some y) := by
    rw [hcur i wl hi hcurw, ← hidx]
    refine winlinkFindByIndex_of_mem (by simpa [links, List.pairwise_map] using hsorted)
      (List.mem_of_getElem? hy) ?_
    rw [hidx]
    exact add_nonneg h0 (Int.natCast_nonneg i)
  have hrestack := @restack_ok (unvisit σ₁ x.lastw) x.windows (fun wl => pure (firstOf new wl))
    (firstOf new) (fun _ _ => rfl) x.lastw h.stacked.mem
  refine ⟨σ₁, new, cur₁, y, i, wl, hrenumber, hcopied, hlinks, hptrs, hi, hcurw, hy, ?_⟩
  rw [sessionRenumberWindows]
  change (renumber x.curw σ [] x.baseIndex 0 x.windows >>= _) = _
  rw [hrenumber]
  change (restack (unvisit σ₁ x.lastw) x.windows (fun wl => pure (firstOf new wl)) x.lastw >>= _) =
    _
  rw [hrestack]
  change (winlinkFindByIndex new cur₁ >>= _) = _
  rw [hfindcur]
  rfl

theorem windows_of_links {old : List Winlink} {base : Int}
    (hlinks : links new = numbered base old) :
    new.map (·.window) = old.map (·.window) := by
  rw [← numbered_windows base old, ← hlinks, links, List.map_map]
  rfl

theorem sessionRenumberWindows_ok (h : σ.Valid s) (hr : (σ.sessions s).Renumbers) :
    ∃ σ', sessionRenumberWindows σ s = .ok σ' ∧ Changes s σ σ' ∧ σ'.Valid s ∧
      links (σ'.sessions s).windows = numbered (σ.sessions s).baseIndex (σ.sessions s).windows ∧
      ((σ.sessions s).CurrentKept → σ'.Apart s) := by
  let x := σ.sessions s
  have hbase : 0 ≤ x.baseIndex := hr.base
  have hfits : x.baseIndex + x.windows.length ≤ 2 ^ 31 := hr.fits
  obtain ⟨σ₁, new, cur₁, y, i, wl, -, hcopied, hlinks, -, hi, hcurw, hy, hrun⟩ :=
    sessionRenumberWindows_eq h hbase hfits
  obtain ⟨hsorted, hrange⟩ := numbered_sorted x.baseIndex x.windows
  rw [← hlinks] at hsorted hrange
  have hindex : ∀ y ∈ new, IsIndex y.idx := fun y hy => by
    have := hrange _ (List.mem_map_of_mem hy)
    rw [IsIndex, i32Max]
    omega
  have hymem : y ∈ new := List.mem_of_getElem? hy
  obtain ⟨hnodup, hsub⟩ := hr.stack h.nodup h.stacked.nodup hcopied.nodup
  obtain ⟨hchanges, hvalid, hsession⟩ :=
    (hcopied.unvisit h.stacked.mem).replace hsorted hindex hnodup hsub hymem rfl
  refine ⟨_, hrun, hchanges, hvalid, by rw [hsession]; exact hlinks, fun hkept q hq heq => ?_⟩
  -- The first winlink to the window has the place of the current one, before and after.
  rw [hsession] at hq heq
  obtain ⟨p, hp, hq⟩ := List.mem_filterMap.mp hq
  obtain ⟨w, hw, wl2, hmem, hfind, -, rfl⟩ := image_firstOf h.nodup hq
  have hplace : wl2 = y :=
    List.inj_on_of_nodup_map hcopied.nodup hmem hymem (Option.some.inj heq).symm
  rw [winlinkFindByWindow_eq, windows_of_links hlinks, hplace] at hfind
  have hsame := (List.getElem?_inj (List.getElem?_eq_some_iff.mp hfind).1
    (List.Nodup.of_map _ hcopied.nodup)).mp (hfind.trans hy.symm)
  refine hkept w (List.mem_filterMap.mpr ⟨p, hp, hw⟩) wl ?_ hcurw
  rw [winlinkFindByWindow_eq]
  change x.windows[_]? = _
  rw [hsame, hi]

end Ztmux.Sessions
