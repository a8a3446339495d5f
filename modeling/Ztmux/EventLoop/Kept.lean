import Ztmux.EventLoop.Registered

/-!
Every call on the base keeps its books, and so do a wait and a turn of the dispatch. A
registration that is replaced takes what is queued for it along, except where `event_set` finds
it gone already.
-/

namespace Ztmux.EventLoop

variable {κ : Type} {ev : Nat}

namespace Base

theorem isPending_eq {s : Base κ} {e : Event κ} {pending : Bool} (h : s.events ev = e)
    (he : e.flags.has evlistPending = pending) : s.isPending ev = pending := by
  rw [isPending, h, he]

theorem isPending_congr {s s' : Base κ} (h : s'.events ev = s.events ev) :
    s'.isPending ev = s.isPending ev := by
  rw [isPending, isPending, h]

theorem write_events (s : Base κ) (ev : Nat) (f : Event κ → Event κ) :
    (s.write ev f).events ev = f (s.events ev) := Function.update_self ..

theorem isPending_eventDel (s : Base κ) (ev : Nat) : (eventDel s ev).isPending ev = false :=
  isPending_eq (Function.update_self ..) (has_cleared _)

theorem queued_scrub_self (s : Base κ) (ev : Nat) : (s.scrub ev).queued ev = [] := by
  rw [queued, scrub, List.filter_filter, List.filter_eq_nil_iff]
  intro a _
  by_cases h : a.ev = ev <;> simp [h]

theorem queued_scrub_of_ne (s : Base κ) {ev e : Nat} (h : e ≠ ev) :
    (s.scrub ev).queued e = s.queued e := by
  rw [queued, scrub, List.filter_filter]
  refine List.filter_congr fun a _ => ?_
  by_cases ha : a.ev = e
  · rw [ha, beq_self_eq_true, bne_iff_ne.mpr h, Bool.true_and]
  · rw [beq_false_of_ne ha, Bool.false_and]

end Base

open Base

variable {s s' : Recorded κ}

/-- One more note, which is no call, and a queue with nothing new. -/
theorem Kept.of_note (h : Kept s) {n : Note κ} (hevent : ∀ ev, KeptAt s' ev)
    (hlog : s'.log = n :: s.log) (hn : ∀ a call pending, n ≠ .called a call pending)
    (hactive : s'.active.Sublist s.active) (hactivations : s'.activations = s.activations) :
    Kept s' where
  event := hevent
  calls := by
    rw [hlog]
    exact ⟨fun a call pending heq => absurd heq (hn a call pending), h.calls⟩
  once := h.once.sublist hactive
  fresh a ha := hactivations ▸ h.fresh a (hactive.subset ha)

theorem Kept.delEvent (h : Kept s) (ev : Nat) : Kept (s.delEvent ev) := by
  refine h.of_note ?_ rfl ?_ List.filter_sublist rfl
  · intro e
    by_cases he : e = ev
    · subst he
      exact (h.event e).idle (Function.update_self ..) (isPending_eventDel s.toBase e)
        (s.queued_scrub_self e) rfl (Or.inl rfl)
    · exact (h.event e).frame (Function.update_of_ne he ..)
        (isPending_congr (Function.update_of_ne he ..)) (s.queued_scrub_of_ne he) rfl (Ne.symm he)
  · intro a call pending heq
    cases heq

/-- An event with nothing registered or queued may be configured afresh. -/
theorem Kept.configured (h : Kept s) (hpending : s.isPending ev = false)
    (hqueued : s.queued ev = []) (fd : Int) (events : EventBits) (callback : Option (Handler κ))
    (arg : Nat) :
    Kept (s.next (s.write ev (configured fd events callback arg)) [.initialised ev]) := by
  refine h.of_note ?_ rfl ?_ (List.Sublist.refl _) rfl
  · intro e
    by_cases he : e = ev
    · subst he
      have hflag := (h.event e).flag
      rw [hpending] at hflag
      have hnone : s.pending e = none :=
        Option.isNone_iff_eq_none.mp (Option.isSome_eq_false_iff.mp hflag.symm)
      refine (h.event e).idle hnone ?_ hqueued rfl (Or.inr rfl)
      exact isPending_eq (Function.update_self ..)
        (by decide : evlistInit.has evlistPending = false)
    · exact (h.event e).frame rfl (isPending_congr (Function.update_of_ne he ..)) rfl rfl
        (Ne.symm he)
  · intro a call pending heq
    cases heq

/-- Nothing registered is left behind, and nothing queued where the event is registered. -/
theorem Kept.setEvent (h : Kept s) (hset : s.isPending ev ∨ s.queued ev = []) (fd : Int)
    (events : EventBits) (callback : Option (Handler κ)) (arg : Nat) :
    Kept (s.setEvent ev fd events callback arg) := by
  rw [Recorded.setEvent, eventSet]
  by_cases hpending : s.isPending ev
  · rw [if_pos hpending, if_pos hpending]
    exact (h.delEvent ev).configured (isPending_eventDel s.toBase ev) (s.queued_scrub_self ev) fd
      events callback arg
  · rw [if_neg hpending, if_neg hpending]
    exact h.configured (Bool.eq_false_iff.mpr hpending) (hset.resolve_left hpending) fd events
      callback arg

theorem Kept.addEvent (h : Kept s) (ev : Nat) (timeout : Option Timeval) (now : Nat) :
    Kept (s.addEvent ev timeout now) := by
  refine h.of_note ?_ rfl ?_ List.filter_sublist rfl
  · intro e
    by_cases he : e = ev
    · subst he
      exact .added _ (Function.update_self ..)
        (isPending_eq (Function.update_self ..) (has_set _)) (s.queued_scrub_self e) rfl
    · exact (h.event e).frame (Function.update_of_ne he ..)
        (isPending_congr (Function.update_of_ne he ..)) (s.queued_scrub_of_ne he) rfl (Ne.symm he)
  · intro a call pending heq
    cases heq

/-- One more activation at the back of the queue, with a number of its own. -/
theorem Kept.of_queue (h : Kept s) {a : Active} (hevent : ∀ ev, KeptAt s' ev)
    (hid : a.id = s.activations) (hactive : s'.active = s.active ++ [a])
    (hlog : s'.log = .activated a :: s.log) (hactivations : s'.activations = s.activations + 1) :
    Kept s' where
  event := hevent
  calls := by
    rw [hlog]
    refine ⟨fun b call pending heq => ?_, h.calls⟩
    cases heq
  once := by
    rw [hactive]
    refine h.once.append (List.nodup_singleton a) ?_
    intro b hb hba
    have hfresh := h.fresh b hb
    rw [List.mem_singleton.mp hba, hid] at hfresh
    exact lt_irrefl _ hfresh
  fresh b hb := by
    rw [hactive] at hb
    rw [hactivations]
    rcases List.mem_append.mp hb with hb | hb
    · exact Nat.lt_succ_of_lt (h.fresh b hb)
    · rw [List.mem_singleton.mp hb, hid]
      exact Nat.lt_succ_self _

theorem queued_append_self {a : Active} (hactive : s'.active = s.active ++ [a]) (h : a.ev = ev) :
    s'.queued ev = s.queued ev ++ [a] := by
  have hkept : [a].filter (fun b => b.ev == ev) = [a] := by simp [h]
  rw [Base.queued, hactive, List.filter_append, hkept]
  rfl

theorem queued_append_of_ne {a : Active} (hactive : s'.active = s.active ++ [a]) (h : a.ev ≠ ev) :
    s'.queued ev = s.queued ev := by
  rw [Base.queued, hactive, List.filter_append,
    List.filter_cons_of_neg (by rw [beq_false_of_ne h]; exact Bool.false_ne_true), List.filter_nil,
    List.append_nil]
  rfl

theorem Kept.activateEvent (h : Kept s) (ev : Nat) (res : EventBits) :
    Kept (s.activateEvent ev res) := by
  refine h.of_queue ?_ rfl rfl rfl rfl
  intro e
  by_cases he : ev = e
  · subst he
    exact (h.event ev).queue (h.event ev).flag (fun p' hp' => ⟨p', hp', rfl⟩) (h.event ev).stays
      (fun _ => (Nat.zero_add _).le) (queued_append_self rfl rfl) rfl
  · exact (h.event e).frame rfl rfl (queued_append_of_ne rfl he) rfl he

theorem adds_of_changes {log : List (Note κ)} {persist : Bool}
    (h : log.find? (Note.changes ev) = some (.added ev persist)) :
    log.find? (Note.adds ev) = some (.added ev persist) := by
  induction log with
  | nil => cases h
  | cons n log ih =>
    rw [List.find?_cons] at h ⊢
    by_cases hchanges : n.changes ev
    · rw [hchanges] at h
      obtain rfl := Option.some.inj h
      rw [Note.adds, beq_self_eq_true]
    · rw [Bool.not_eq_true] at hchanges
      have hadds : n.adds ev = false := by
        rw [Bool.eq_false_iff]
        intro hadds
        rw [Note.changes_of_adds hadds] at hchanges
        cases hchanges
      rw [hchanges] at h
      rw [hadds]
      exact ih h

/-- What a registration that is ready turns into. -/
theorem Kept.activateOne (h : Kept s) {p : Pending} (hp : s.pending ev = some p) (now : Nat)
    (generation : UInt64) (res : EventBits) :
    Kept (s.next (activateOne now s.toBase (ev, generation, res))
      [.activated ⟨ev, generation, res, s.activations, true⟩]) := by
  have hflag : s.isPending ev = true := by
    rw [(h.event ev).flag, hp]
    rfl
  have hregistered := (h.event ev).registered p hp
  rw [EventLoop.activateOne]
  dsimp only
  rw [hp, Option.any_some]
  split_ifs with hpersist
  · refine h.of_queue ?_ rfl rfl rfl rfl
    intro e
    by_cases he : ev = e
    · subst he
      have hpending : Function.update s.pending ev ((some p).map (rearm now)) ev =
          some (rearm now p) := Function.update_self ..
      refine (h.event ev).queue ?_ ?_ ?_ ?_ (queued_append_self rfl rfl) rfl
      · exact hflag.trans (congrArg Option.isSome hpending).symm
      · intro p' hp'
        obtain rfl := Option.some.inj (hpending.symm.trans hp')
        exact ⟨p, hp, rfl⟩
      · exact fun _ => congrArg Option.isSome hpending
      -- what was added last is persistent
      · intro hlast
        rw [adds_of_changes hregistered, hpersist] at hlast
        cases hlast
    · exact (h.event e).frame (Function.update_of_ne (Ne.symm he) ..) rfl
        (queued_append_of_ne rfl he)
        rfl he
  · refine h.of_queue ?_ rfl rfl rfl rfl
    intro e
    by_cases he : ev = e
    · subst he
      have hpending : Function.update s.pending ev none ev = none := Function.update_self ..
      have hcleared : ∀ s' : Base κ, s'.events ev =
          { s.events ev with flags := (s.events ev).flags &&& ~~~evlistPending } →
          s'.isPending ev = false := fun s' hs' => isPending_eq hs' (has_cleared _)
      refine (h.event ev).queue ?_ ?_ ?_ ?_ (queued_append_self rfl rfl) rfl
      · exact (hcleared _ (Function.update_self ..)).trans (congrArg Option.isSome hpending).symm
      · intro p' hp'
        exact absurd (hpending.symm.trans hp') (Option.some_ne_none p').symm
      · intro hlast
        rw [hregistered] at hlast
        exact absurd (Note.added.inj (Option.some.inj hlast)).2 hpersist
      · intro _
        rw [if_neg (Bool.eq_false_iff.mp (hcleared _ (Function.update_self ..))), hflag]
        exact le_rfl
    · exact (h.event e).frame (Function.update_of_ne (Ne.symm he) ..)
        (isPending_congr (Function.update_of_ne (Ne.symm he) ..)) (queued_append_of_ne rfl he) rfl
          he

theorem activateOne_pending_of_ne (now : Nat) (s : Base κ) {r : Nat × UInt64 × EventBits} {e : Nat}
    (h : e ≠ r.1) : (activateOne now s r).pending e = s.pending e := by
  rw [activateOne]
  split_ifs
  · exact Function.update_of_ne h ..
  · exact Function.update_of_ne h ..

theorem activateOne_active (now : Nat) (s : Base κ) (r : Nat × UInt64 × EventBits) :
    (activateOne now s r).active = s.active ++ [⟨r.1, r.2.1, r.2.2, s.activations, true⟩] := by
  rw [activateOne]
  split_ifs
  · rfl
  · rfl

/-- Ready registrations are activated one after another; each is still there when its turn
comes. -/
theorem Kept.activateAll (h : Kept s) (now : Nat) (ready : List (Nat × UInt64 × EventBits))
    (hnodup : (ready.map Prod.fst).Nodup) (hpending : ∀ r ∈ ready, (s.pending r.1).isSome) :
    ∃ queued, (ready.foldl (EventLoop.activateOne now) s.toBase).active = s.active ++ queued ∧
      Kept (s.next (ready.foldl (EventLoop.activateOne now) s.toBase)
        (queued.reverse.map .activated)) := by
  induction ready generalizing s with
  | nil => exact ⟨[], (List.append_nil _).symm, h⟩
  | cons r ready ih =>
    obtain ⟨p, hp⟩ := Option.isSome_iff_exists.mp (hpending r List.mem_cons_self)
    rw [List.map_cons, List.nodup_cons] at hnodup
    have hleft : ∀ r' ∈ ready, ((EventLoop.activateOne now s.toBase r).pending r'.1).isSome := by
      intro r' hr'
      have hne : r'.1 ≠ r.1 := fun heq => hnodup.1 (heq ▸ List.mem_map_of_mem hr')
      rw [activateOne_pending_of_ne now s.toBase hne]
      exact hpending r' (List.mem_cons_of_mem _ hr')
    obtain ⟨queued, hactive, hkept⟩ := ih (h.activateOne hp now r.2.1 r.2.2) hnodup.2 hleft
    refine ⟨⟨r.1, r.2.1, r.2.2, s.activations, true⟩ :: queued, ?_, ?_⟩
    · rw [List.foldl_cons]
      refine hactive.trans ?_
      rw [Recorded.next, activateOne_active, List.append_assoc, List.singleton_append]
    · rw [List.reverse_cons, List.map_append]
      rw [Recorded.next, Recorded.next, ← List.append_assoc] at hkept
      exact hkept

/-- The keys of the map, in whatever order it hands them out. -/
structure Keys (s : Base κ) (order : List Nat) : Prop where
  nodup : order.Nodup
  mem : ∀ ev, ev ∈ order ↔ (s.pending ev).isSome

theorem mem_readyIn {s : Base κ} {report : Report} {order : List Nat} {r : Nat × UInt64 × EventBits}
    (h : r ∈ readyIn s report order) : r.1 ∈ order ∧ (s.pending r.1).isSome := by
  obtain ⟨e, he, hr⟩ := List.mem_filterMap.mp h
  obtain ⟨p, hp, hr⟩ := Option.bind_eq_some_iff.mp hr
  split_ifs at hr with hres
  obtain rfl := Option.some.inj hr
  exact ⟨he, Option.isSome_iff_exists.mpr ⟨p, hp⟩⟩

theorem readyIn_nodup (s : Base κ) (report : Report) {order : List Nat} (h : order.Nodup) :
    ((readyIn s report order).map Prod.fst).Nodup := by
  refine h.sublist ?_
  induction order with
  | nil => exact List.Sublist.refl _
  | cons e order ih =>
    rw [readyIn, List.filterMap_cons]
    split
    · exact (ih (List.nodup_cons.mp h).2).cons _
    · rename_i r hr
      obtain ⟨p, -, hr⟩ := Option.bind_eq_some_iff.mp hr
      split_ifs at hr with hres
      obtain rfl := Option.some.inj hr
      exact (ih (List.nodup_cons.mp h).2).cons_cons _

theorem Kept.wait (h : Kept s) (report : Report) {order : List Nat} (hdue : s.active = [])
    (horder : Keys s.toBase order) : Kept (s.wait report order) := by
  have hperm := List.mergeSort_perm (readyIn s.toBase report order) fun r r' => r.2.1 ≤ r'.2.1
  have hnodup := (hperm.map Prod.fst).nodup_iff.mpr (readyIn_nodup s.toBase report horder.nodup)
  obtain ⟨queued, hactive, hkept⟩ := h.activateAll report.now _ hnodup fun r hr =>
    (mem_readyIn (hperm.mem_iff.mp hr)).2
  rw [hdue, List.nil_append] at hactive
  rw [Recorded.wait, activateReady, hactive]
  exact hkept

/-- A change that no event and no note takes part in. -/
theorem Kept.congr (h : Kept s) (hpending : s'.pending = s.pending)
    (hflag : ∀ ev, s'.isPending ev = s.isPending ev) (hactive : s'.active = s.active)
    (hlog : s'.log = s.log) (hactivations : s'.activations = s.activations) : Kept s' where
  event ev :=
    (h.event ev).congr (by rw [hpending]) (hflag ev) (by rw [Base.queued, hactive]; rfl) hlog
  calls := hlog ▸ h.calls
  once := hactive ▸ h.once
  fresh a ha := by
    rw [hactive] at ha
    exact hactivations ▸ h.fresh a ha

/-- Nothing in the base refers to the memory at `ev`. -/
structure Free (s : Base κ) (ev : Nat) : Prop where
  onces : s.onces ev = none
  pending : s.pending ev = none
  queued : s.queued ev = []

theorem Kept.zeroed (h : Kept s) (hpending : s.pending ev = none) :
    Kept (s.next (s.write ev fun _ => zeroed κ) []) := by
  refine h.congr rfl (fun e => ?_) rfl rfl rfl
  by_cases he : e = ev
  · subst he
    rw [(h.event e).flag, hpending]
    exact isPending_eq (Function.update_self ..)
      (by decide : (0 : EventBits).has evlistPending = false)
  · exact isPending_congr (Function.update_of_ne he ..)

theorem has_not_evPersist (events : EventBits) :
    (events &&& ~~~evPersist).has evPersist = false := by
  have hbit : evPersist = BitVec.twoPow 16 4 := by decide
  rw [EventBits.has, hbit, BitVec.and_twoPow]
  simp

theorem eventSet_idle {s : Base κ} (h : s.isPending ev = false) (fd : Int) (events : EventBits)
    (callback : Option (Handler κ)) (arg : Nat) :
    eventSet s ev fd events callback arg = s.write ev (configured fd events callback arg) := by
  rw [eventSet, if_neg (Bool.eq_false_iff.mp h)]

theorem addEvent_eq {persist : Bool} (h : (s.events ev).events.has evPersist = persist)
    (timeout : Option Timeval) (now : Nat) :
    s.addEvent ev timeout now = s.next (eventAdd s.toBase ev timeout now) [.added ev persist] := by
  rw [Recorded.addEvent, h]

theorem activateEvent_eq {generation : UInt64} (h : (s.events ev).gen = generation)
    (res : EventBits) :
    s.activateEvent ev res = s.next (eventActive s.toBase ev res)
      [.activated ⟨ev, generation, res, s.activations, false⟩] := by
  rw [Recorded.activateEvent, h]

/-- The new event is configured, added, and where it is due at once activated. -/
theorem Kept.onceEvent (h : Kept s) (hfree : Free s.toBase ev) (fd : Int) (events : EventBits)
    (callback : Option κ) (arg : Nat) (tv : Option Timeval) (now : Nat) :
    Kept (s.onceEvent ev fd events callback arg tv now) := by
  let stored : Base κ :=
    { s.toBase with onces := Function.update s.onces ev (some ⟨callback, arg⟩) }
  have hstored : Kept (s.next stored []) := h.congr rfl (fun _ => rfl) rfl rfl rfl
  let fresh := stored.write ev fun _ => EventLoop.zeroed κ
  have hidle : fresh.isPending ev = false :=
    isPending_eq (Function.update_self ..) (by decide : (0 : EventBits).has evlistPending = false)
  let ready := fresh.write ev
    (EventLoop.configured fd (events &&& ~~~evPersist) (some .eventOnceTrampoline) ev)
  have hready : Kept (s.next ready [.initialised ev]) :=
    (hstored.zeroed hfree.pending).configured hidle hfree.queued ..
  have hpersist : (ready.events ev).events.has evPersist = false := by
    rw [write_events]
    exact has_not_evPersist events
  have hadded : ∀ timeout, Kept (s.next (eventAdd ready ev timeout now)
      [.added ev false, .initialised ev]) := by
    intro timeout
    have hkept := hready.addEvent ev timeout now
    rwa [addEvent_eq (s := s.next ready [.initialised ev]) hpersist] at hkept
  have hgen : ((eventAdd ready ev none now).events ev).gen = s.nextGen := by
    rw [eventAdd, write_events]
    rfl
  rw [Recorded.onceEvent, eventOnce, eventSet_idle hidle]
  split_ifs
  · have hkept := (hadded none).activateEvent ev evTimeout
    rwa [activateEvent_eq (s := s.next (eventAdd ready ev none now)
      [.added ev false, .initialised ev]) hgen] at hkept
  · exact hadded tv

/-- An entry is taken off the queue, and a call noted where there is one. -/
theorem Kept.taken (h : Kept s) {a : Active} {active : List Active}
    (hactive : s.active = a :: active)
    (hpending : s'.pending = s.pending) (hflag : ∀ ev, s'.isPending ev = s.isPending ev)
    (hactive' : s'.active = active)
    (hlog : s'.log = s.log ∨ ∃ call, s'.log = .called a call (s.isPending a.ev) :: s.log)
    (hactivations : s'.activations = s.activations) : Kept s' := by
  have hqueued : s.queued a.ev = a :: s'.queued a.ev := by
    rw [Base.queued, hactive, List.filter_cons, if_pos (beq_self_eq_true a.ev), Base.queued,
      hactive']
  have hnodup := h.once
  rw [hactive, List.nodup_cons] at hnodup
  have hcurrent : Current s.log a := by
    refine (h.event a.ev).current a ?_
    rw [hqueued]
    exact List.mem_cons_self
  refine ⟨fun ev => ?_, ?_, hactive' ▸ hnodup.2, fun b hb => ?_⟩
  · by_cases hev : a.ev = ev
    · subst hev
      refine (h.event a.ev).taken hqueued (by rw [hpending]) (hflag _) ?_ hlog
      rw [Base.queued, hactive']
      exact fun hmem => hnodup.1 (List.mem_filter.mp hmem).1
    · have hsame : s'.queued ev = s.queued ev := by
        rw [Base.queued, Base.queued, hactive, hactive',
          List.filter_cons_of_neg (by rw [beq_false_of_ne hev]; exact Bool.false_ne_true)]
      rcases hlog with hlog | ⟨call, hlog⟩
      · exact (h.event ev).congr (by rw [hpending]) (hflag ev) hsame hlog
      · exact (h.event ev).frame (by rw [hpending]) (hflag ev) hsame hlog hev
  · rcases hlog with hlog | ⟨call, hlog⟩
    · rw [hlog]
      exact h.calls
    · rw [hlog]
      refine ⟨fun b call' pending heq => ?_, h.calls⟩
      obtain ⟨rfl, -, -⟩ := Note.called.inj heq
      exact hcurrent
  · rw [hactive'] at hb
    rw [hactivations]
    exact h.fresh b (hactive ▸ List.mem_cons_of_mem _ hb)

/-- The memory of a once event is given back when nothing is registered there any more. -/
theorem Kept.eventOnceFree (h : Kept s) (ev : Nat) :
    Kept (s.next (eventOnceFree s.toBase ev) [.deleted ev]) := by
  have hdeleted : Kept ((s.delEvent ev).next { (s.delEvent ev).toBase with
      onces := Function.update (s.delEvent ev).onces ev none } []) :=
    (h.delEvent ev).congr rfl (fun _ => rfl) rfl rfl rfl
  exact hdeleted.zeroed (Function.update_self ..)

theorem Kept.dispatch (h : Kept s) : Kept s.dispatch := by
  rw [Recorded.dispatch, dispatchOne]
  split
  · rename_i hactive
    rw [hactive]
    exact h
  · rename_i a active hactive
    rw [hactive, List.head?_cons, Option.bind_some]
    have hflag : ∀ ev, (Base.write { s.toBase with active := active } a.ev fun e =>
        { e with res := a.res }).isPending ev = s.isPending ev := by
      intro ev
      by_cases hev : ev = a.ev
      · subst hev
        exact isPending_eq (Function.update_self ..) rfl
      · exact isPending_congr (Function.update_of_ne hev ..)
    have hcalled : ∀ call : Option (Call κ),
        Kept (s.next (Base.write { s.toBase with active := active } a.ev fun e =>
          { e with res := a.res })
            (call.map fun call => .called a call (s.isPending a.ev)).toList) := by
      intro call
      refine h.taken hactive rfl hflag rfl ?_ rfl
      cases call with
      | none => exact Or.inl rfl
      | some call => exact Or.inr ⟨call, rfl⟩
    dsimp only
    split_ifs with hstale
    · exact h.taken hactive rfl (fun _ => rfl) rfl (Or.inl rfl) rfl
    · rw [runCallback]
      split
      · exact hcalled none
      · exact hcalled _
      · exact (hcalled _).eventOnceFree _

end Ztmux.EventLoop
