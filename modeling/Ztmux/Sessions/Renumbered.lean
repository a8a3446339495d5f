import Ztmux.Sessions.Run

/-!
What renumbering keeps.

Windows, alerts and the current winlink are carried over by place. The stack is carried over by
window, so a winlink on it goes to another place when its window is linked at a lower index too.
-/

namespace Ztmux.Sessions

/-- The winlink at the place that one had. -/
def atPlace (old new : List Winlink) (p : Nat) : Option Nat :=
  new[(old.map (·.ptr)).idxOf p]?.map (·.ptr)

/-- Each winlink of a session is replaced by the one at its place, which is numbered from
base-index. -/
structure World.Renumbered (σ σ' : World) (s : SessionId) : Prop where
  links : links (σ'.sessions s).windows = numbered (σ.sessions s).baseIndex (σ.sessions s).windows
  alerts : ∀ (i : Nat) (wl wl' : Winlink), (σ.sessions s).windows[i]? = some wl →
    (σ'.sessions s).windows[i]? = some wl' → σ'.alerts wl'.ptr = σ.alerts wl.ptr
  current : (σ'.sessions s).curw =
    (σ.sessions s).curw.bind (atPlace (σ.sessions s).windows (σ'.sessions s).windows)
  stack : (σ'.sessions s).lastw.map some =
    (σ.sessions s).lastw.map (atPlace (σ.sessions s).windows (σ'.sessions s).windows)
  distinct : (σ'.sessions s).lastw.Nodup

/-- The indexes fit an `i32`, and a winlink on the stack is the first to its window. -/
structure Session.RenumbersInPlace (x : Session) : Prop where
  fits : x.baseIndex + x.windows.length ≤ 2 ^ 31
  first : ∀ wl ∈ x.windows, wl.ptr ∈ x.lastw → winlinkFindByWindow x.windows wl.window = some wl

variable {σ : World} {s : SessionId} {old new wls : List Winlink}

/-! ### Linking again -/

theorem relink_eq_ok {wl : Winlink} {idx : Int} {r : World × List Winlink × Winlink}
    (h : relink σ new wl idx = .ok r) :
    ∃ i alerts, winlinkIndex new idx = .ok (some i) ∧
      alerts σ.fresh = Function.update σ.alerts σ.fresh 0 wl.ptr ∧
      (∀ p, p < σ.fresh → alerts p = σ.alerts p) ∧
      r = ({ σ.add wl.window with alerts := alerts }, rbInsert ⟨σ.fresh, i, wl.window⟩ new,
        ⟨σ.fresh, i, wl.window⟩) := by
  rw [relink, winlinkAdd_eq] at h
  rcases hindex : winlinkIndex new idx with fault | _ | i
  · simp [hindex, Except.map, bind, Except.bind] at h
  · simp [hindex, Except.map, bind, Except.bind] at h
  · rw [hindex] at h
    refine ⟨i, _, rfl, ?_, fun p hp => ?_, (Except.ok.inj h).symm⟩
    · exact Function.update_self _ _ _
    · have hne : p ≠ σ.fresh := hp.ne
      change Function.update (Function.update σ.alerts σ.fresh 0) σ.fresh _ p = _
      rw [Function.update_of_ne hne, Function.update_of_ne hne]

/-- The new winlinks have the alerts of the old ones. -/
theorem renumber_alerts {curw : Option Nat} {idx cur : Int} {r : World × List Winlink × Int}
    (h : renumber curw σ new idx cur wls = .ok r) (hptrs : ∀ wl ∈ wls, wl.ptr < σ.fresh) :
    (∀ p, p < σ.fresh → r.1.alerts p = σ.alerts p) ∧
      ∀ (i : Nat) wl, wls[i]? = some wl → r.1.alerts (σ.fresh + i) = σ.alerts wl.ptr := by
  induction wls generalizing σ new idx cur with
  | nil =>
      obtain rfl := Except.ok.inj h
      exact ⟨fun _ _ => rfl, fun i wl hi => by simp at hi⟩
  | cons wl wls ih =>
      rw [renumber] at h
      obtain ⟨r₁, hrelink, hrest⟩ := bind_eq_ok.mp h
      obtain ⟨i, alerts, -, hself, hbelow, rfl⟩ := relink_eq_ok hrelink
      obtain ⟨hwl, hwls⟩ := List.forall_mem_cons.mp hptrs
      obtain ⟨hkept, hplaces⟩ := ih hrest fun x hx => (hwls x hx).trans (Nat.lt_succ_self _)
      refine ⟨fun p hp => ?_, fun k x hx => ?_⟩
      · rw [hkept p (hp.trans (Nat.lt_succ_self _))]
        exact hbelow p hp
      · cases k with
        | zero =>
            obtain rfl : wl = x := by simpa using hx
            rw [Nat.add_zero, hkept σ.fresh (Nat.lt_succ_self _)]
            exact hself.trans (Function.update_of_ne hwl.ne _ _)
        | succ k =>
            have hx : wls[k]? = some x := by simpa using hx
            have hfar := hplaces k x hx
            change r.1.alerts (σ.fresh + 1 + k) = alerts x.ptr at hfar
            rw [hbelow x.ptr (hwls x (List.mem_of_getElem? hx)), add_right_comm] at hfar
            exact hfar

theorem renumber_le {curw : Option Nat} {idx cur : Int} {r : World × List Winlink × Int}
    (h : renumber curw σ new idx cur wls = .ok r) (h0 : -2 ^ 31 ≤ idx) (hmax : idx ≤ i32Max)
    (hnew : ∀ x ∈ new, x.idx ≤ i32Max) : ∀ x ∈ r.2.1, x.idx ≤ i32Max := by
  induction wls generalizing σ new idx cur with
  | nil =>
      obtain rfl := Except.ok.inj h
      exact hnew
  | cons wl wls ih =>
      rw [renumber] at h
      obtain ⟨r₁, hrelink, hrest⟩ := bind_eq_ok.mp h
      obtain ⟨i, alerts, hindex, -, -, rfl⟩ := relink_eq_ok hrelink
      obtain ⟨found, hfound, hrange⟩ := winlinkIndex_ok new h0 hmax
      obtain ⟨hwrap0, hwrap⟩ := wrapI32_le (idx + 1)
      refine ih hrest hwrap0 (by rw [i32Max]; omega) fun x hx => ?_
      rcases List.mem_cons.mp ((rbInsert_perm _ new).mem_iff.mp hx) with rfl | hx
      · exact (hrange i (Except.ok.inj (hfound.symm.trans hindex))).1.2
      · exact hnew x hx

/-! ### Places -/

theorem atPlace_eq (hnodup : (old.map (·.ptr)).Nodup) {i : Nat} {wl : Winlink}
    (hi : old[i]? = some wl) : atPlace old new wl.ptr = new[i]?.map (·.ptr) := by
  obtain ⟨hlt, rfl⟩ := List.getElem?_eq_some_iff.mp hi
  have hidx := hnodup.idxOf_getElem i (by simpa using hlt)
  rw [List.getElem_map] at hidx
  rw [atPlace, hidx]

/-- A winlink goes to its own place exactly when it is the first to its window. -/
theorem image_eq_atPlace_iff (hnodup : (old.map (·.ptr)).Nodup) (hnew : (new.map (·.ptr)).Nodup)
    {base : Int} (hlinks : links new = numbered base old) {i : Nat} {wl : Winlink}
    (hi : old[i]? = some wl) :
    image old (firstOf new) wl.ptr = atPlace old new wl.ptr ↔
      winlinkFindByWindow old wl.window = some wl := by
  obtain ⟨y, hy, -, hwindow⟩ := exists_renumbered hlinks hi
  have himage : image old (firstOf new) wl.ptr = (firstOf new wl).map (·.ptr) := by
    obtain ⟨x, hx, hptr, hderef⟩ :=
      deref_of_mem (List.mem_map_of_mem (f := Winlink.ptr) (List.mem_of_getElem? hi))
    obtain rfl := List.inj_on_of_nodup_map hnodup hx (List.mem_of_getElem? hi) hptr
    rw [deref] at hderef
    rw [image]
    cases hfind : old.find? fun z => z.ptr = x.ptr with
    | none => simp [hfind] at hderef
    | some z =>
        simp only [hfind, Except.ok.injEq] at hderef
        rw [hderef]
        rfl
  rw [himage, atPlace_eq hnodup hi, hy, firstOf, winlinkFindByWindow_eq, winlinkFindByWindow_eq,
    windows_of_links hlinks]
  set j := (old.map (·.window)).findIdx fun v => v = wl.window
  constructor
  · intro h
    obtain ⟨z, hz, hptr⟩ := Option.map_eq_some_iff.mp h
    obtain rfl :=
      List.inj_on_of_nodup_map hnew (List.mem_of_getElem? hz) (List.mem_of_getElem? hy) hptr
    have hsame : j = i := (List.getElem?_inj (List.getElem?_eq_some_iff.mp hz).1
      (List.Nodup.of_map _ hnew)).mp (hz.trans hy.symm)
    rw [hsame, hi]
  · intro h
    have hsame : j = i := (List.getElem?_inj (List.getElem?_eq_some_iff.mp h).1
      (List.Nodup.of_map _ hnodup)).mp (h.trans hi.symm)
    rw [hsame, hy]

theorem image_isSome {base : Int} (hlinks : links new = numbered base old) {p : Nat}
    (hp : p ∈ old.map (·.ptr)) : (image old (firstOf new) p).isSome := by
  obtain ⟨wl, hfind⟩ : ∃ wl, (old.find? fun wl => wl.ptr = p) = some wl := by
    obtain ⟨wl, hwl, rfl⟩ := List.mem_map.mp hp
    exact Option.isSome_iff_exists.mp (List.find?_isSome.mpr ⟨wl, hwl, by simp⟩)
  obtain ⟨i, hi⟩ := List.getElem?_of_mem (List.mem_of_find?_eq_some hfind)
  obtain ⟨y, hy, -, hwindow⟩ := exists_renumbered hlinks hi
  rw [image, hfind, Option.bind_some, Option.isSome_map, firstOf, winlinkFindByWindow,
    List.find?_isSome]
  exact ⟨y, List.mem_of_getElem? hy, by simp [hwindow]⟩

theorem map_some_filterMap {f : Nat → Option Nat} {ps : List Nat} (h : ∀ p ∈ ps, (f p).isSome) :
    (ps.filterMap f).map some = ps.map f := by
  induction ps with
  | nil => rfl
  | cons p ps ih =>
      obtain ⟨hp, hps⟩ := List.forall_mem_cons.mp h
      obtain ⟨q, hq⟩ := Option.isSome_iff_exists.mp hp
      rw [List.filterMap_cons_some hq, List.map_cons, List.map_cons, ih hps, hq]

/-! ### The call -/

theorem foldl_unlink_alerts (wls : List Winlink) (σ : World) :
    (wls.foldl unlink σ).alerts = σ.alerts := by
  induction wls generalizing σ with
  | nil => rfl
  | cons wl wls ih => exact ih (unlink σ wl)

theorem replaceWindows_session (σ : World) (s : SessionId) (old new : List Winlink)
    (lastw : List Nat)
    (curw : Option Winlink) : (replaceWindows σ s old new lastw curw).sessions s =
      { σ.sessions s with windows := new, lastw := lastw, curw := curw.map (·.ptr) } := by
  rw [replaceWindows, modify_sessions_self, (foldl_unlink old σ).1]

/-- Where the indexes fit, only the stack can go wrong. -/
theorem renumbered_iff_first (h : σ.Valid s) (h0 : 0 ≤ (σ.sessions s).baseIndex)
    (hfits : (σ.sessions s).baseIndex + (σ.sessions s).windows.length ≤ 2 ^ 31) :
    ∃ σ', sessionRenumberWindows σ s = .ok σ' ∧ (σ.Renumbered σ' s ↔
      ∀ wl ∈ (σ.sessions s).windows, wl.ptr ∈ (σ.sessions s).lastw →
        winlinkFindByWindow (σ.sessions s).windows wl.window = some wl) := by
  obtain ⟨σ₁, new, cur, y, i, wl, hrenumber, hcopied, hlinks, hptrs, hi, hcurw, hy, hrun⟩ :=
    sessionRenumberWindows_eq h h0 hfits
  set x := σ.sessions s with hx
  set stack := x.lastw.filterMap (image x.windows (firstOf new)) with hstack
  obtain ⟨hbelow, halerts⟩ := renumber_alerts hrenumber fun wl hwl =>
    h.fresh wl.ptr (List.mem_map_of_mem hwl)
  refine ⟨_, hrun, ?_⟩
  set σ' := replaceWindows ((unvisit σ₁ x.lastw).visit stack) s x.windows new stack (some y)
  have hsession :=
    replaceWindows_session ((unvisit σ₁ x.lastw).visit stack) s x.windows new stack (some y)
  change σ'.sessions s = _ at hsession
  have hwindows : (σ'.sessions s).windows = new := by rw [hsession]
  have hlastw : (σ'.sessions s).lastw = stack := by rw [hsession]
  have hsome : stack.map some = x.lastw.map (image x.windows (firstOf new)) :=
    map_some_filterMap fun p hp => image_isSome hlinks (h.stacked.mem p hp)
  have hplaces : stack.map some = x.lastw.map (atPlace x.windows new) ↔
      ∀ wl ∈ x.windows, wl.ptr ∈ x.lastw → winlinkFindByWindow x.windows wl.window = some wl := by
    rw [hsome, List.map_inj_left]
    constructor
    · intro hsame wl hwl hmem
      obtain ⟨k, hk⟩ := List.getElem?_of_mem hwl
      exact (image_eq_atPlace_iff h.nodup hcopied.nodup hlinks hk).mp (hsame wl.ptr hmem)
    · intro hfirst p hp
      obtain ⟨wl, hwl, rfl⟩ := List.mem_map.mp (h.stacked.mem p hp)
      obtain ⟨k, hk⟩ := List.getElem?_of_mem hwl
      exact (image_eq_atPlace_iff h.nodup hcopied.nodup hlinks hk).mpr (hfirst wl hwl hp)
  constructor
  · intro hren
    refine hplaces.mp ?_
    have hkept := hren.stack
    rwa [hlastw, hwindows] at hkept
  · intro hfirst
    have hinplace := hplaces.mpr hfirst
    refine ⟨by rw [hwindows]; exact hlinks, fun k wl wl' hk hk' => ?_, ?_, ?_, ?_⟩
    · rw [hwindows] at hk'
      have hptr : wl'.ptr = σ.fresh + k := by
        have hplace := congrArg (·[k]?) hptrs
        simp only [List.getElem?_map, hk', Option.map_some] at hplace
        rw [List.getElem?_range' (List.getElem?_eq_some_iff.mp hk).1, Nat.one_mul] at hplace
        exact Option.some.inj hplace
      have hsame : σ'.alerts = σ₁.alerts := foldl_unlink_alerts x.windows _
      rw [hsame, hptr]
      exact halerts k wl hk
    · rw [hwindows, hcurw, Option.bind_some, atPlace_eq h.nodup hi, hy, hsession]
    · rw [hwindows, hlastw]
      exact hinplace
    · rw [hlastw]
      refine nodup_filterMap h.stacked.nodup fun p hp p' hp' q hq hq' => ?_
      obtain ⟨wl, hwl, rfl⟩ := List.mem_map.mp (h.stacked.mem p hp)
      obtain ⟨wl', hwl', rfl⟩ := List.mem_map.mp (h.stacked.mem p' hp')
      obtain ⟨w, hw, y₁, hy₁, hfind, hwindow, hptr⟩ := image_firstOf h.nodup hq
      obtain ⟨w', hw', y₂, hy₂, hfind', hwindow', hptr'⟩ := image_firstOf h.nodup hq'
      obtain rfl : y₁ = y₂ := List.inj_on_of_nodup_map hcopied.nodup hy₁ hy₂ (hptr.trans hptr'.symm)
      have hsame : wl.window = wl'.window := by
        rw [windowOf_eq h.nodup hwl] at hw
        rw [windowOf_eq h.nodup hwl'] at hw'
        exact (Option.some.inj hw).trans
          ((hwindow.symm.trans hwindow').trans (Option.some.inj hw').symm)
      have hwlfirst := hfirst wl hwl hp
      rw [hsame, hfirst wl' hwl' hp'] at hwlfirst
      rw [Option.some.inj hwlfirst]

/-- The windows of a session are renumbered in place exactly when the indexes fit and each
winlink on the stack is the first to its window. -/
theorem renumbered_iff (h : σ.Valid s) (h0 : 0 ≤ (σ.sessions s).baseIndex)
    (hmax : (σ.sessions s).baseIndex ≤ i32Max) :
    (∃ σ', sessionRenumberWindows σ s = .ok σ' ∧ σ.Renumbered σ' s) ↔
      (σ.sessions s).RenumbersInPlace := by
  constructor
  · rintro ⟨σ', hrun, hren⟩
    have hfits : (σ.sessions s).baseIndex + (σ.sessions s).windows.length ≤ 2 ^ 31 := by
      rw [sessionRenumberWindows] at hrun
      obtain ⟨r, hrenumber, hrun⟩ := bind_eq_ok.mp hrun
      obtain ⟨stack, -, hrun⟩ := bind_eq_ok.mp hrun
      obtain ⟨curw, -, hrun⟩ := bind_eq_ok.mp hrun
      obtain rfl := Except.ok.inj hrun
      have hlinks := hren.links
      rw [replaceWindows_session] at hlinks
      -- The last window would have an index past the greatest.
      by_contra hlong
      have hlen : (σ.sessions s).windows.length - 1 < (σ.sessions s).windows.length := by
        rw [i32Max] at hmax
        omega
      obtain ⟨y, hy, hidx, -⟩ := exists_renumbered hlinks (List.getElem?_eq_getElem hlen)
      have hle := renumber_le hrenumber (by omega) hmax (fun x hx => absurd hx List.not_mem_nil) y
        (List.mem_of_getElem? hy)
      rw [hidx, i32Max] at hle
      omega
    obtain ⟨σ'', hrun', hiff⟩ := renumbered_iff_first h h0 hfits
    obtain rfl := Except.ok.inj (hrun.symm.trans hrun')
    exact ⟨hfits, hiff.mp hren⟩
  · intro hplace
    obtain ⟨σ', hrun, hiff⟩ := renumbered_iff_first h h0 hplace.fits
    exact ⟨σ', hrun, hiff.mpr hplace.first⟩

/-- A session with one window linked at 0 and at 2, another at 1, which is current, and the winlink
at 2 on the stack. -/
def linkedTwice : World where
  sessions _ := ⟨[⟨0, 0, 0⟩, ⟨1, 1, 1⟩, ⟨2, 2, 0⟩], [2], some 1, 0⟩
  group := [0]
  visited p := p = 2
  alerts _ := 0
  winlinks w := if w = 0 then [0, 2] else if w = 1 then [1] else []
  references w := if w = 0 then 2 else if w = 1 then 1 else 0
  fresh := 3

theorem linkedTwice_valid : linkedTwice.Valid 0 where
  sorted := by decide
  range := by decide
  nodup := by decide
  fresh := by decide
  stacked := ⟨by decide, by decide, by decide⟩
  current := ⟨1, by decide, rfl⟩

theorem gapped_renumbered :
    ∃ σ', sessionRenumberWindows gapped 0 = .ok σ' ∧ gapped.Renumbered σ' 0 :=
  (renumbered_iff gapped_sound.toValid (by decide) (by decide)).mpr
    ⟨by decide, by decide⟩

/-- The winlink at 0 is on the new stack, for the one at 2 on the old. -/
theorem linkedTwice_not_renumbered :
    linkedTwice.Valid 0 ∧ 0 ≤ (linkedTwice.sessions 0).baseIndex ∧
      (linkedTwice.sessions 0).baseIndex ≤ i32Max ∧
      ¬∃ σ', sessionRenumberWindows linkedTwice 0 = .ok σ' ∧ linkedTwice.Renumbered σ' 0 := by
  refine ⟨linkedTwice_valid, by decide, by decide, ?_⟩
  rintro ⟨σ', hrun, hren⟩
  have hresult : (sessionRenumberWindows linkedTwice 0).map
      (fun σ => ((σ.sessions 0).lastw, (σ.sessions 0).windows)) =
      .ok ([3], [⟨3, 0, 0⟩, ⟨4, 1, 1⟩, ⟨5, 2, 0⟩]) := by decide +kernel
  rw [hrun] at hresult
  obtain ⟨hlastw, hwindows⟩ := Prod.mk.inj (Except.ok.inj hresult)
  have hstack := hren.stack
  rw [hlastw, hwindows] at hstack
  exact absurd hstack (by decide)

end Ztmux.Sessions
