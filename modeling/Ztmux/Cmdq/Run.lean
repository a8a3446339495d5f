import Ztmux.Cmdq.Schedule

/-!
Runs of a queue follow its order.
-/

namespace Ztmux.Cmdq

variable {base : Client → Int32} {r : Run}

/-! ### The front of the queue -/

/-- The item at the front and those behind it. -/
structure Front (queue : CmdqList) (x : CmdqItem) (xs : List CmdqItem) : Prop where
  list : queue.list = x :: xs
  other : ∀ y ∈ xs, y.id ≠ x.id
  fresh : ∀ y ∈ xs, y.fired = false ∧ y.waiting = false

theorem Run.Sound.front (h : r.Sound base) {x : CmdqItem} (hx : r.queue.list.head? = some x) :
    ∃ xs, Front r.queue x xs := by
  cases hlist : r.queue.list with
  | nil => simp [hlist] at hx
  | cons y xs =>
      obtain rfl : y = x := by simpa [hlist] using hx
      have hnodup := h.nodup_list
      rw [hlist, List.map_cons, List.nodup_cons] at hnodup
      refine ⟨xs, hlist, fun z hz heq => hnodup.1 (heq ▸ List.mem_map_of_mem hz), fun z hz => ?_⟩
      exact h.shape.tail z (by rw [hlist]; exact hz)

variable {x : CmdqItem} {xs : List CmdqItem}

theorem Front.head {queue : CmdqList} (h : Front queue x xs) : queue.list.head? = some x := by
  rw [h.list]
  rfl

theorem Front.modify {queue : CmdqList} (h : Front queue x xs) (f : CmdqItem → CmdqItem) :
    (queue.modify x.id f).list = f x :: xs := by
  rw [CmdqList.modify, h.list, List.map_cons, if_pos rfl]
  rw [List.map_congr_left fun y hy => if_neg (h.other y hy), List.map_id']

theorem CmdqList.modify_modify (queue : CmdqList) (id : Nat) (f g : CmdqItem → CmdqItem)
    (hf : ∀ x, (f x).id = x.id) :
    (queue.modify id f).modify id g = queue.modify id fun x => g (f x) := by
  rw [CmdqList.modify, CmdqList.modify, CmdqList.modify, List.map_map]
  have hmap : ((fun x => if x.id = id then g x else x) ∘ fun x => if x.id = id then f x else x) =
      fun x => if x.id = id then g (f x) else x := by
    funext x
    simp only [Function.comp_apply]
    split_ifs with hx hfx
    · rfl
    · exact absurd ((hf x).trans hx) hfx
    · rfl
  rw [hmap]

theorem Front.made {queue : CmdqList} (h : Front queue x xs) :
    queue.made = queue.phase.made x :: xs.map queue.phase.made := by
  rw [CmdqList.made, h.list, List.map_cons]

theorem Front.started {queue : CmdqList} (h : Front queue x xs) :
    queue.started = if x.fired || queue.phase.running then [queue.phase.made x] else [] := by
  rw [CmdqList.started, h.head]

theorem Phase.made_of_ne {phase : Phase} {y : CmdqItem}
    (h : ∀ items id saved, phase = .firing items id saved → y.id ≠ id) :
    phase.made y = { y with fired := false, waiting := false } := by
  cases phase with
  | firing items id saved => exact if_neg (h items id saved rfl)
  | outside items => rfl
  | looping items => rfl
  | returned items id retval => rfl

theorem Phase.made_of_not_running {phase : Phase} (h : phase.running = false) (y : CmdqItem) :
    phase.made y = { y with fired := false, waiting := false } :=
  Phase.made_of_ne fun _ _ _ hphase => by simp [hphase, Phase.running] at h

theorem Shape.of_front {x : CmdqItem} {xs : List CmdqItem} {queue : CmdqList}
    (hlist : queue.list = x :: xs)
    (hfresh : ∀ y ∈ xs, y.fired = false ∧ y.waiting = false) (hhead : x.waiting → x.fired)
    (hrun : ∀ items id, (∃ saved, queue.phase = .firing items id saved) ∨
      (∃ retval, queue.phase = .returned items id retval) → x.id = id ∧ x.fired = false) :
    queue.Shape where
  tail y hy := hfresh y (by rwa [hlist] at hy)
  head y hy := by
    obtain rfl : x = y := by simpa [hlist] using hy
    exact hhead
  running items id h := ⟨x, by rw [hlist]; rfl, hrun items id h⟩

/-! ### Steps that fire and remove nothing -/

theorem Run.Sound.of_map (h : r.Sound base) {queue : CmdqList} {f : CmdqItem → CmdqItem}
    (hlist : queue.list = r.queue.list.map f) (hreferences : queue.references = r.queue.references)
    (hshape : queue.Shape)
    (hmade : ∀ x ∈ r.queue.list, queue.phase.made (f x) = r.queue.phase.made x)
    (hstarted : ∀ x, r.queue.list.head? = some x →
      ((f x).fired || queue.phase.running) = (x.fired || r.queue.phase.running)) :
    ({ r with queue := queue } : Run).Sound base := by
  refine h.of_same hshape ?_ ?_ hreferences
  · rw [CmdqList.made, CmdqList.made, hlist, List.map_map]
    exact List.map_congr_left hmade
  · rw [CmdqList.started, CmdqList.started, hlist, List.head?_map]
    cases hhead : r.queue.list.head? with
    | none => rfl
    | some x => simp only [Option.map_some, hstarted x hhead, hmade x (List.mem_of_head? hhead)]

theorem Run.Sound.continue (h : r.Sound base) (id : Nat) :
    ({ r with queue := cmdqContinue r.queue id } : Run).Sound base := by
  have hmade : ∀ x, r.queue.phase.made (if x.id = id then { x with waiting := false } else x) =
      r.queue.phase.made x := by
    intro x
    split_ifs
    · cases r.queue.phase <;> rfl
    · rfl
  have hfired : ∀ x : CmdqItem,
      (if x.id = id then { x with waiting := false } else x).fired = x.fired := by
    intro x
    split_ifs <;> rfl
  refine h.of_map rfl rfl ?_ (fun x _ => hmade x) fun x _ => by rw [hfired]; rfl
  cases hhead : r.queue.list.head? with
  | none =>
      have hnil := List.head?_eq_none_iff.mp hhead
      have hnil' : (cmdqContinue r.queue id).list = [] := by
        rw [cmdqContinue, CmdqList.modify, hnil]
        rfl
      refine ⟨by simp [hnil'], by simp [hnil'], fun k id hrun => ?_⟩
      obtain ⟨x, hx, -⟩ := h.shape.running k id hrun
      simp [hnil] at hx
  | some x =>
      obtain ⟨xs, hfront⟩ := h.front hhead
      refine @Shape.of_front _ (xs.map fun x => if x.id = id then { x with waiting := false }
        else x) _
        (by rw [cmdqContinue, CmdqList.modify, hfront.list, List.map_cons]) (fun y hy => ?_) ?_
        fun k id' hrun => ?_
      · obtain ⟨z, hz, rfl⟩ := List.mem_map.mp hy
        obtain ⟨hzfired, hzwaiting⟩ := hfront.fresh z hz
        split_ifs
        · exact ⟨hzfired, rfl⟩
        · exact ⟨hzfired, hzwaiting⟩
      · split_ifs
        · exact fun hwait => by cases hwait
        · exact h.shape.head x hhead
      · obtain ⟨y, hy, hid, hyfired⟩ := h.shape.running k id' hrun
        obtain rfl : x = y := Option.some.inj (hhead.symm.trans hy)
        rw [hfired]
        refine ⟨?_, hyfired⟩
        split_ifs <;> exact hid

/-- The call is somewhere else, and no item runs before or after. -/
theorem Run.Sound.setPhase (h : r.Sound base) (hidle : r.queue.phase.running = false)
    {phase : Phase}
    (hphase : phase.running = false) :
    ({ r with queue := { r.queue with phase := phase } } : Run).Sound base := by
  refine h.of_map (f := id) (List.map_id _).symm rfl
    ⟨h.shape.tail, h.shape.head, fun k id hrun => ?_⟩
    (fun x _ => ?_) fun x _ => ?_
  · rcases hrun with
        ⟨saved, heq⟩ | ⟨retval, heq⟩ <;> simp [show phase = _ from heq, Phase.running] at hphase
  · rw [Phase.made_of_not_running hphase, Phase.made_of_not_running hidle]
    rfl
  · change (x.fired || phase.running) = _
    rw [hphase, hidle]

theorem Run.Sound.next (h : r.Sound base) {items : UInt32}
    (hphase : r.queue.phase = .outside items) :
    ({ r with queue := cmdqNext r.queue } : Run).Sound base := by
  have hidle : r.queue.phase.running = false := by rw [hphase]; rfl
  rw [cmdqNext]
  split
  · exact h.setPhase hidle rfl
  · split_ifs
    · exact h.setPhase hidle rfl
    · exact h.setPhase hidle rfl

/-- What was run has returned, and the item has its own client again. -/
theorem Run.Sound.return (h : r.Sound base) {items : UInt32} {id : Nat} {saved : Option Client}
    (retval : CmdRetval) (hphase : r.queue.phase = .firing items id saved) :
    ({ r with queue := cmdqReturn r.queue items id saved retval } : Run).Sound base := by
  obtain ⟨x, hx, hid, hfired⟩ := h.shape.running items id (.inl ⟨saved, hphase⟩)
  subst hid
  obtain ⟨xs, hfront⟩ := h.front hx
  refine h.of_map (f := fun y => if y.id = x.id then { y with client := saved } else y) rfl rfl
    (Shape.of_front (hfront.modify _) hfront.fresh (h.shape.head x hx) fun k id hrun => ?_)
    (fun y _ => ?_) fun y _ => ?_
  · rcases hrun with ⟨_, heq⟩ | ⟨_, heq⟩
    · simp [cmdqReturn] at heq
    · simp only [cmdqReturn, Phase.returned.injEq] at heq
      exact ⟨heq.2.1, hfired⟩
  · rw [hphase]
    simp only [cmdqReturn, Phase.made]
    split_ifs <;> rfl
  · rw [hphase]
    simp [cmdqReturn, Phase.running]

/-! ### Steps that fire or remove an item -/

theorem CmdqItem.unflagged {x : CmdqItem} (hfired : x.fired = false)
    (hwaiting : x.waiting = false) :
    ({ x with fired := false, waiting := false } : CmdqItem) = x := by
  cases x
  simp only at hfired hwaiting
  rw [hfired, hwaiting]

theorem Run.Sound.fire (h : r.Sound base) {items : UInt32} (hphase : r.queue.phase = .looping items)
    (hfront : Front r.queue x xs) (hfired : x.fired = false) (hwaiting : x.waiting = false)
    (client : Option Client) {queue : CmdqList}
    (hlist : queue.list = { x with client := client } :: xs)
    (hreferences : queue.references = r.queue.references)
    (hphase' : queue.phase = .firing items x.id x.client) :
    ({ r with queue := queue, fired := r.fired ++ [x] } : Run).Sound base := by
  have hx : r.queue.phase.made x = x := by
    rw [hphase]
    exact CmdqItem.unflagged hfired hwaiting
  have hmadex : queue.phase.made { x with client := client } = x := by
    rw [hphase', Phase.made, if_pos rfl]
    exact CmdqItem.unflagged hfired hwaiting
  have hmade : queue.made = r.queue.made := by
    rw [hfront.made, hx, CmdqList.made, hlist, List.map_cons, hmadex]
    refine congrArg (x :: ·) (List.map_congr_left fun y hy => ?_)
    rw [hphase', hphase, Phase.made, if_neg (hfront.other y hy)]
    rfl
  obtain ⟨before, hbefore, hsub⟩ := h.schedule
  have hnone : r.queue.started = [] := by
    rw [hfront.started, hfired, hphase]
    rfl
  have hsome : queue.started = [x] := by
    rw [CmdqList.started, hlist]
    simp only [List.head?_cons, hphase', Phase.running, Bool.or_true, if_true]
    rw [← hphase', hmadex]
  refine ⟨h.nodup, Shape.of_front hlist hfront.fresh (fun hwait => ?_) fun k id hrun => ?_,
    ⟨before, ?_, ?_⟩, fun c => ?_, fun o ho => ?_, h.known⟩
  · exact absurd hwait (by simp [hwaiting])
  · rcases hrun with ⟨_, heq⟩ | ⟨_, heq⟩
    · rw [show queue.phase = _ from hphase', Phase.firing.injEq] at heq
      exact ⟨heq.2.1, hfired⟩
    · rw [show queue.phase = _ from hphase'] at heq
      cases heq
  · rw [hbefore, hnone, List.append_nil, hsome]
  · change (before ++ queue.made).Sublist r.order
    rwa [hmade]
  · change queue.references c = base c + Int32.ofNat (queue.made.countP (holds c))
    rw [hmade, hreferences]
    exact h.references c
  · rw [← h.removed o ho]
    change (o ∉ r.fired ++ [x] ∧ o ∉ queue.made) ↔ _
    have hmem : x ∈ r.queue.made := by
      rw [hfront.made, hx]
      exact List.mem_cons_self
    rw [hmade, List.mem_append, List.mem_singleton]
    constructor
    · exact fun hgone => ⟨fun ho => hgone.1 (.inl ho), hgone.2⟩
    · exact fun hgone => ⟨fun hor => hor.elim hgone.1 fun heq => hgone.2 (heq ▸ hmem), hgone.2⟩

theorem Run.Sound.remove (h : r.Sound base) (hfront : Front r.queue x xs)
    (hstarted : x.fired || r.queue.phase.running)
    (hfiring : ∀ items id saved, r.queue.phase ≠ .firing items id saved) {phase : Phase}
    (hphase : phase.running = false) :
    ({ r with queue := { cmdqRemove r.queue x with phase := phase } } : Run).Sound base := by
  have hmade : ∀ y, r.queue.phase.made y = { y with fired := false, waiting := false } := fun y =>
    Phase.made_of_ne fun items id saved heq => absurd heq (hfiring items id saved)
  have hlist : (cmdqRemove r.queue x).list = xs := by
    rw [cmdqRemove, hfront.list, List.filter_cons, if_neg (by simp)]
    exact List.filter_eq_self.mpr fun y hy => by simpa using hfront.other y hy
  let queue : CmdqList := { cmdqRemove r.queue x with phase := phase }
  have hmade' : queue.made = xs.map r.queue.phase.made := by
    change (cmdqRemove r.queue x).list.map phase.made = _
    rw [hlist]
    exact List.map_congr_left fun y _ => (Phase.made_of_not_running hphase y).trans (hmade y).symm
  have hnone : queue.started = [] := by
    have hqueue : queue.list = xs := hlist
    rw [CmdqList.started, hqueue]
    cases hxs : xs.head? with
    | none => rfl
    | some y =>
        have hfired := (hfront.fresh y (List.mem_of_head? hxs)).1
        have hidle : queue.phase.running = false := hphase
        simp [hfired, hidle]
  obtain ⟨before, hbefore, hsub⟩ := h.schedule
  rw [hfront.started, if_pos hstarted] at hbefore
  have hx : r.queue.phase.made x ∈ r.fired := by
    rw [hbefore]
    exact List.mem_append_right _ List.mem_cons_self
  refine ⟨h.nodup, ⟨fun y hy => ?_, fun y hy hwait => ?_, fun k id hrun => ?_⟩,
    ⟨before ++ [r.queue.phase.made x], ?_, ?_⟩, fun c => ?_, fun o ho => ?_, h.known⟩
  · change y ∈ (cmdqRemove r.queue x).list.tail at hy
    rw [hlist] at hy
    exact hfront.fresh y (List.mem_of_mem_tail hy)
  · change (cmdqRemove r.queue x).list.head? = some y at hy
    rw [hlist] at hy
    exact absurd hwait (by simp [(hfront.fresh y (List.mem_of_head? hy)).2])
  · rcases hrun with ⟨_, heq⟩ | ⟨_, heq⟩ <;> rw [show phase = _ from heq] at hphase <;> cases hphase
  · change r.fired = _ ++ queue.started
    rw [hnone, List.append_nil, hbefore]
  · change (_ ++ queue.made).Sublist r.order
    rw [hmade', List.append_assoc]
    rwa [hfront.made] at hsub
  · change serverClientUnref r.queue.references x.client c =
      base c + Int32.ofNat (queue.made.countP (holds c))
    have hclient : (r.queue.phase.made x).client = x.client := by rw [hmade]
    rw [serverClientUnref_apply, h.references, hfront.made, ofNat_countP_cons, hclient, hmade',
      ← Int32.add_assoc, Int32.add_sub_cancel]
  · rw [← h.removed o ho, hfront.made]
    change (o ∉ r.fired ∧ o ∉ queue.made) ↔ _
    rw [hmade', List.mem_cons]
    constructor
    · exact fun hgone => ⟨hgone.1, fun hor => hor.elim (fun heq => hgone.1 (heq ▸ hx)) hgone.2⟩
    · exact fun hgone => ⟨hgone.1, fun ho => hgone.2 (.inr ho)⟩

theorem Run.Sound.iterate (h : r.Sound base) {items : UInt32} (found : Option Client)
    (hphase : r.queue.phase = .looping items) :
    ({ r with
      queue := cmdqIterate r.queue items found
      fired := r.fired ++ r.queue.fires } : Run).Sound base := by
  have hidle : r.queue.phase.running = false := by rw [hphase]; rfl
  cases hhead : r.queue.list.head? with
  | none =>
      simp only [cmdqIterate, CmdqList.fires, hhead, List.append_nil]
      exact h.setPhase hidle rfl
  | some x =>
      obtain ⟨xs, hfront⟩ := h.front hhead
      simp only [cmdqIterate, CmdqList.fires, hhead]
      by_cases hwaiting : x.waiting
      · simp only [hwaiting, if_true, true_or, List.append_nil]
        exact h.setPhase hidle rfl
      · by_cases hfired : x.fired
        · simp only [hwaiting, hfired, or_true, if_true, if_false, Bool.not_true, List.append_nil,
            Bool.false_eq_true]
          have hremove := h.remove hfront (by simp [hfired])
            (fun _ _ _ heq => by rw [hphase] at heq; cases heq) hidle
          exact hremove
        · rw [Bool.not_eq_true] at hwaiting hfired
          simp only [hwaiting, hfired, Bool.not_false, if_true, Bool.false_eq_true, or_self,
            if_false]
          cases htype : x.type with
          | command => exact h.fire hphase hfront hfired hwaiting _ (hfront.modify _) rfl rfl
          | callback =>
              exact h.fire hphase hfront hfired hwaiting x.client hfront.list rfl rfl

/-! ### The end of an iteration -/

/-- Removing the items of a group from behind the front, one after the other. -/
theorem foldl_cmdqRemove (group : UInt32) (rest : List CmdqItem) {queue : CmdqList}
    (kept : List CmdqItem) (hlist : queue.list = kept ++ rest)
    (hnodup : (queue.list.map (·.id)).Nodup) :
    let queue' := rest.foldl
      (fun queue this => if this.group = group then cmdqRemove queue this else queue) queue
    queue'.list = kept ++ rest.filter (fun y => y.group ≠ group) ∧ queue'.phase = queue.phase ∧
      ∀ c, queue'.references c =
        queue.references c - Int32.ofNat
          ((rest.filter fun y => y.group = group).countP (holds c)) := by
  induction rest generalizing queue kept with
  | nil => exact ⟨by simpa using hlist, rfl, fun c => by simp⟩
  | cons y rest ih =>
      have hids := hnodup
      rw [hlist, List.map_append, List.map_cons] at hids
      by_cases hy : y.group = group
      · -- The other items have other ids, so only this one goes.
        have hremove : (cmdqRemove queue y).list = kept ++ rest := by
          have hmiddle := List.nodup_middle.mp hids
          rw [List.nodup_cons, List.mem_append] at hmiddle
          change queue.list.filter (fun x => x.id ≠ y.id) = kept ++ rest
          rw [hlist, List.filter_append, List.filter_cons, if_neg (by simp), ← List.filter_append]
          refine List.filter_eq_self.mpr fun z hz => ?_
          simp only [ne_eq, decide_eq_true_eq]
          rintro heq
          rcases List.mem_append.mp hz with hz | hz
          · exact hmiddle.1 (.inl (heq ▸ List.mem_map_of_mem hz))
          · exact hmiddle.1 (.inr (heq ▸ List.mem_map_of_mem hz))
        have hsub : ((cmdqRemove queue y).list.map (·.id)).Nodup :=
          ((List.filter_sublist.map _).nodup hnodup)
        obtain ⟨hlist', hphase', hrefs'⟩ := ih kept hremove hsub
        simp only [List.foldl_cons, if_pos hy]
        refine ⟨by simpa [hy] using hlist', hphase', fun c => ?_⟩
        rw [hrefs' c, List.filter_cons, if_pos (by simpa using hy), ofNat_countP_cons]
        change serverClientUnref queue.references y.client c - _ = _
        rw [serverClientUnref_apply, Int32.sub_sub, Int32.add_comm]
      · obtain ⟨hlist', hphase', hrefs'⟩ := ih (kept ++ [y]) (by simpa using hlist) hnodup
        simp only [List.foldl_cons, if_neg hy]
        refine ⟨by simpa [hy] using hlist', hphase', fun c => ?_⟩
        rw [hrefs' c, List.filter_cons, if_neg (by simpa using hy)]

theorem Front.behind {queue : CmdqList} (h : Front queue x xs) : behind x queue.list = xs := by
  rw [Cmdq.behind, h.list, List.dropWhile_cons_of_neg (by simp), List.tail_cons]

/-- In a list without duplicates nothing behind `x` is before it in a sublist. -/
theorem not_mem_of_split {a before after rest : List CmdqItem} {o : CmdqItem}
    (hnodup : (a ++ x :: after).Nodup) (hsub : (before ++ x :: rest).Sublist (a ++ x :: after))
    (ho : o ∈ after) : o ∉ before := by
  intro hbefore
  obtain ⟨-, hcons, hdisj⟩ := List.nodup_append.mp hnodup
  obtain ⟨l₁, l₂, hl, hl₁, hl₂⟩ := List.append_sublist_iff.mp hsub
  have hx : x ∈ l₂ := hl₂.subset List.mem_cons_self
  have ho₁ : o ∈ l₁ := hl₁.subset hbefore
  rcases List.append_eq_append_iff.mp hl with ⟨c, rfl, hc⟩ | ⟨c, rfl, rfl⟩
  · cases c with
    | nil => exact hdisj o (by simpa using ho₁) o (List.mem_cons_of_mem _ ho) rfl
    | cons y c =>
        obtain ⟨rfl, rfl⟩ := List.cons_eq_cons.mp hc
        exact (List.nodup_cons.mp hcons).1 (List.mem_append_right _ hx)
  · exact hdisj o (List.mem_append_left _ ho₁) o (List.mem_cons_of_mem _ ho) rfl

theorem Run.Sound.nodup_order (h : r.Sound base) : r.order.Nodup := List.Nodup.of_map _ h.nodup

/-- The items behind `x` that go when it fails. -/
def drops (x : CmdqItem) (retval : CmdRetval) (y : CmdqItem) : Bool :=
  x.type = .command ∧ retval = .error ∧ x.group ≠ 0 ∧ y.group = x.group

theorem Front.afterError {queue : CmdqList} (h : Front queue x xs)
    (hnodup : (queue.list.map (·.id)).Nodup) (retval : CmdRetval) :
    (queue.afterError x retval).list = x :: xs.filter (fun y => !drops x retval y) ∧
      (queue.afterError x retval).phase = queue.phase ∧
      ∀ c, (queue.afterError x retval).references c = queue.references c -
        Int32.ofNat ((xs.filter (drops x retval)).countP (holds c)) := by
  rw [CmdqList.afterError]
  by_cases herror : (x.type = .command ∧ retval = .error) ∧ x.group ≠ 0
  · obtain ⟨⟨htype, hretval⟩, hgroup⟩ := herror
    obtain ⟨hlist, hphase, hrefs⟩ := foldl_cmdqRemove x.group xs [x] h.list
      hnodup
    have hdrops : drops x retval = fun y => decide (y.group = x.group) := by
      funext y
      simp [drops, htype, hretval, hgroup]
    rw [if_pos ⟨htype, hretval⟩, cmdqRemoveGroup, if_neg hgroup, h.behind, hdrops]
    exact ⟨by simpa using hlist, hphase, hrefs⟩
  · have hdrops : drops x retval = fun _ => false := by
      funext y
      rw [drops, decide_eq_false_iff_not]
      exact fun hy => herror ⟨⟨hy.1, hy.2.1⟩, hy.2.2.1⟩
    have hsame : (if x.type = .command ∧ retval = .error then cmdqRemoveGroup queue x else queue) =
        queue := by
      split_ifs with hfail
      · rw [cmdqRemoveGroup, if_pos (not_not.mp fun hgroup => herror ⟨hfail, hgroup⟩)]
      · rfl
    rw [hsame, hdrops]
    simp [h.list]

/-- A failure is noted, and the items it drops are removed. -/
theorem Run.Sound.fail (h : r.Sound base) {items : UInt32} {retval : CmdRetval}
    (hphase : r.queue.phase = .returned items x.id retval) (hfront : Front r.queue x xs) :
    ({ r with
      queue := r.queue.afterError x retval
      failed :=
        if retval = .error then (x, r.order) :: r.failed else r.failed } : Run).Sound base := by
  obtain ⟨hlist, hphase', hrefs⟩ := hfront.afterError h.nodup_list retval
  obtain ⟨y, hy, -, hfired⟩ := h.shape.running items x.id (.inr ⟨retval, hphase⟩)
  obtain rfl : x = y := Option.some.inj (hfront.head.symm.trans hy)
  have hwaiting : x.waiting = false := by
    by_contra hwait
    have := h.shape.head x hfront.head (by simpa using hwait)
    rw [hfired] at this
    cases this
  let made : CmdqItem → CmdqItem := fun y => { y with fired := false, waiting := false }
  have hx : made x = x := CmdqItem.unflagged hfired hwaiting
  have hold : r.queue.made = x :: xs.map made := by
    rw [hfront.made, hphase]
    exact congrArg (· :: xs.map made) hx
  have hnew : (r.queue.afterError x retval).made =
      x :: (xs.filter fun y => !drops x retval y).map made := by
    rw [CmdqList.made, hphase', hphase, hlist]
    exact congrArg (· :: _) hx
  have hcount : ∀ c (l : List CmdqItem), (l.map made).countP (holds c) = l.countP (holds c) := by
    intro c l
    rw [List.countP_map]
    rfl
  obtain ⟨before, hbefore, hsub⟩ := h.schedule
  have hstarted : r.queue.started = [x] := by
    rw [hfront.started, hphase]
    simp only [Phase.running, Bool.or_true, if_true]
    exact congrArg (fun y => [y]) hx
  have hmemx : x ∈ r.fired := by
    rw [hbefore, hstarted]
    exact List.mem_append_right _ List.mem_cons_self
  refine ⟨h.nodup, Shape.of_front hlist (fun y hy => hfront.fresh y (List.mem_of_mem_filter hy))
    (h.shape.head x hfront.head) (fun k id hrun => ?_), ⟨before, ?_, ?_⟩, fun c => ?_, fun o ho =>
      ?_,
    fun failure hfailure o ho => ?_⟩
  · rw [hphase'] at hrun
    obtain ⟨y, hy, hid, hyfired⟩ := h.shape.running k id hrun
    obtain rfl : x = y := Option.some.inj (hfront.head.symm.trans hy)
    exact ⟨hid, hyfired⟩
  · change r.fired = before ++ (r.queue.afterError x retval).started
    rw [CmdqList.started, hlist, hphase', hphase, hbefore, hstarted]
    simp only [List.head?_cons, Phase.running, Bool.or_true, if_true]
    exact congrArg (fun y => before ++ [y]) hx.symm
  · change (before ++ (r.queue.afterError x retval).made).Sublist r.order
    rw [hnew]
    rw [hold] at hsub
    exact ((List.Sublist.refl before).append
      ((List.filter_sublist.map made).cons_cons x)).trans hsub
  · change (r.queue.afterError x retval).references c = _ + Int32.ofNat
      ((r.queue.afterError x retval).made.countP (holds c))
    rw [hrefs, h.references, hold, hnew, ofNat_countP_cons, ofNat_countP_cons, hcount, hcount,
      List.countP_eq_countP_filter_add xs (holds c) (drops x retval), Int32.ofNat_add]
    generalize Int32.ofNat ((xs.filter (drops x retval)).countP (holds c)) = a
    have hfilter : (xs.filter fun y => !drops x retval y) =
        xs.filter fun y => decide ¬ drops x retval y := by
      congr 1
      funext y
      simp
    rw [hfilter]
    generalize Int32.ofNat ((xs.filter fun y => decide ¬ drops x retval y).countP (holds c)) = b
    generalize Int32.ofNat (if x.client = some c then 1 else 0) = d
    rw [Int32.add_comm a b, Int32.add_assoc b a d, Int32.add_comm a d, ← Int32.add_assoc b d a,
      ← Int32.add_assoc (base c), Int32.add_sub_cancel]
  · -- What is gone now was gone before or is dropped by this failure.
    have hdropped : (o ∉ r.fired ∧ o ∉ (r.queue.afterError x retval).made) ↔
        (o ∉ r.fired ∧ o ∉ r.queue.made) ∨ (retval = .error ∧ Drops (x, r.order) o) := by
      rw [hold, hnew]
      constructor
      · rintro ⟨hofired, homade⟩
        by_cases hin : o ∈ x :: xs.map made
        · have hox : o ≠ x := fun heq => hofired (heq ▸ hmemx)
          have hrest := (List.mem_cons.mp hin).resolve_left hox
          obtain ⟨y, hy, rfl⟩ := List.mem_map.mp hrest
          have hdrop : drops x retval y := by
            by_contra hkeep
            exact homade (List.mem_cons_of_mem _
              (List.mem_map_of_mem (List.mem_filter.mpr ⟨hy, by simpa using hkeep⟩)))
          rw [drops, decide_eq_true_eq] at hdrop
          obtain ⟨l₁, l₂, horder, -, hl₂⟩ := List.append_sublist_iff.mp (hold ▸ hsub)
          obtain ⟨m₁, m₂, rfl, hm₁, hm₂⟩ := List.cons_sublist_iff.mp hl₂
          obtain ⟨n₁, n₂, rfl⟩ := List.append_of_mem hm₁
          exact .inr ⟨hdrop.2.1, hdrop.1, hdrop.2.2.1, hdrop.2.2.2, l₁ ++ n₁, n₂ ++ m₂,
            by rw [horder]; simp, List.mem_append_right _ (hm₂.subset hrest)⟩
        · exact .inl ⟨hofired, hin⟩
      · rintro (⟨hofired, homade⟩ | ⟨hretval, htype, hgroup, hogroup, a, after, hsplit, hafter⟩)
        · refine ⟨hofired, fun hin => homade ?_⟩
          exact ((List.filter_sublist.map made).cons_cons x).subset hin
        · simp only at hsplit hgroup hogroup htype
          have hnodup := h.nodup_order
          rw [hold, hsplit] at hsub
          rw [hsplit] at hnodup
          have hox : o ≠ x := by
            rintro rfl
            exact (List.nodup_cons.mp (List.nodup_append.mp hnodup).2.1).1 hafter
          refine ⟨fun hofired => ?_, fun hin => ?_⟩
          · rw [hbefore, hstarted] at hofired
            rcases List.mem_append.mp hofired with hob | hob
            · exact not_mem_of_split hnodup hsub hafter hob
            · exact hox (List.mem_singleton.mp hob)
          · obtain ⟨y, hy, rfl⟩ := List.mem_map.mp ((List.mem_cons.mp hin).resolve_left hox)
            have hkeep := (List.mem_filter.mp hy).2
            rw [Bool.not_eq_true', drops, decide_eq_false_iff_not] at hkeep
            exact hkeep ⟨htype, hretval, hgroup, hogroup⟩
    change (o ∉ r.fired ∧ o ∉ (r.queue.afterError x retval).made) ↔
      ∃ failure ∈ (if retval = .error then (x, r.order) :: r.failed else r.failed), Drops failure o
    rw [hdropped, h.removed o ho]
    split_ifs with hretval
    · simp [hretval, or_comm]
    · simp [hretval]
  · change failure ∈ (if retval = .error then (x, r.order) :: r.failed else r.failed) at hfailure
    split_ifs at hfailure
    · rcases List.mem_cons.mp hfailure with rfl | hfailure
      · exact ho
      · exact h.known failure hfailure o ho
    · exact h.known failure hfailure o ho

theorem Run.Sound.finish (h : r.Sound base) {items : UInt32} {item : CmdqItem} {retval : CmdRetval}
    (hphase : r.queue.phase = .returned items item.id retval) (hitem : item ∈ r.queue.list) :
    ({ r with
      queue := cmdqFinish r.queue items item retval
      failed := if retval = .error then (item, r.order) :: r.failed else r.failed } : Run).Sound
        base := by
  obtain ⟨x, hx, hid, -⟩ := h.shape.running items item.id (.inr ⟨retval, hphase⟩)
  obtain rfl : x = item := eq_of_id h.nodup_list (List.mem_of_head? hx) hitem hid
  obtain ⟨xs, hfront⟩ := h.front hx
  have hfail := h.fail hphase hfront
  obtain ⟨hlist, hphase', -⟩ := hfront.afterError h.nodup_list retval
  rw [hphase] at hphase'
  have hrunning : (r.queue.afterError x retval).phase.running := by rw [hphase']; rfl
  obtain ⟨rest, hfront'⟩ := hfail.front (x := x) (by rw [hlist]; rfl)
  have hmade : ∀ y, (r.queue.afterError x retval).phase.made y =
      { y with fired := false, waiting := false } := fun y =>
    Phase.made_of_ne fun _ _ _ heq => by rw [hphase'] at heq; cases heq
  by_cases hwait : retval = .wait
  · -- The item stays at the front and waits.
    let mark : CmdqItem → CmdqItem := fun y =>
      if y.id = x.id then { y with fired := true, waiting := true } else y
    have hqueue : cmdqFinish r.queue items x retval =
        { r.queue.afterError x retval with
          list := (r.queue.afterError x retval).list.map mark
          phase := .outside items } := by
      rw [cmdqFinish, if_pos hwait, CmdqList.modify_modify _ _ (fun y => { y with fired := true })
        (fun y => { y with waiting := true }) fun _ => rfl]
      rfl
    rw [hqueue]
    refine hfail.of_map (f := mark) rfl rfl ?_ (fun y _ => ?_) fun y hy => ?_
    · refine @Shape.of_front { x with fired := true, waiting := true } rest _ ?_
        hfront'.fresh (fun _ => rfl) fun k id hrun => ?_
      · exact hfront'.modify fun y => { y with fired := true, waiting := true }
      · rcases hrun with ⟨_, heq⟩ | ⟨_, heq⟩ <;> cases heq
    · change ({ mark y with fired := false, waiting := false } : CmdqItem) =
        (r.queue.afterError x retval).phase.made y
      rw [hmade]
      simp only [mark]
      split_ifs <;> rfl
    · obtain rfl : x = y := Option.some.inj (hfront'.head.symm.trans hy)
      change ((mark x).fired || false) = (x.fired || (r.queue.afterError x retval).phase.running)
      rw [hrunning]
      simp [mark]
  · -- The item is removed.
    have hqueue : cmdqFinish r.queue items x retval =
        { cmdqRemove (r.queue.afterError x retval) x with phase := .looping (items + 1) } := by
      have hfilter : ((r.queue.afterError x retval).modify x.id
          fun x => { x with fired := true }).list.filter (fun y => y.id ≠ x.id) =
          (r.queue.afterError x retval).list.filter fun y => y.id ≠ x.id := by
        rw [hfront'.modify, hfront'.list, List.filter_cons, List.filter_cons, if_neg (by simp),
          if_neg (by simp)]
      rw [cmdqFinish, if_neg hwait, cmdqRemove, cmdqRemove, hfilter]
      rfl
    rw [hqueue]
    exact hfail.remove hfront' (by simp [hrunning])
      (fun _ _ _ heq => by rw [show _ = _ from hphase'] at heq; cases heq) rfl

theorem Step.sound {c : Option Client} {r' : Run} (hstep : Step c r r') (h : r.Sound base) :
    r'.Sound base := by
  cases hstep with
  | append _ hfresh => exact h.append hfresh c
  | insertAfter _ hfresh hafter => exact h.insertAfter hfresh hafter
  | «continue» id _ => exact h.continue id
  | next hphase => exact h.next hphase
  | iterate found hphase => exact h.iterate found hphase
  | «return» retval hphase => exact h.return retval hphase
  | finish hphase hitem => exact h.finish hphase hitem

theorem Run.sound {c : Option Client} (h : Relation.ReflTransGen (Step c) (Run.start base) r) :
    r.Sound base := by
  induction h with
  | refl => exact Run.start_sound base
  | tail _ hstep ih => exact hstep.sound ih

/-! ### Waiting -/

/-- While an item waits nothing is fired, until it is continued. -/
theorem Step.waiting {c : Option Client} {r' : Run} (hstep : Step c r r') (h : r.Sound base)
    (hx : x ∈ r.queue.list) (hwaiting : x.waiting) (hheld : r'.queue ≠ cmdqContinue r.queue x.id) :
    r'.fired = r.fired ∧ x ∈ r'.queue.list := by
  -- The item that waits is at the front.
  obtain ⟨hhead, hfired⟩ : r.queue.list.head? = some x ∧ x.fired := by
    cases hlist : r.queue.list with
    | nil => rw [hlist] at hx; cases hx
    | cons y ys =>
        rcases List.mem_cons.mp (hlist ▸ hx) with rfl | hy
        · exact ⟨rfl, h.shape.head x (by rw [hlist]; rfl) hwaiting⟩
        · have := (h.shape.tail x (by rw [hlist]; exact hy)).2
          rw [hwaiting] at this
          cases this
  have hrunning : ∀ items id, ¬ ((∃ saved, r.queue.phase = .firing items id saved) ∨
      ∃ retval, r.queue.phase = .returned items id retval) := by
    intro items id hrun
    obtain ⟨y, hy, -, hyfired⟩ := h.shape.running items id hrun
    obtain rfl : x = y := Option.some.inj (hhead.symm.trans hy)
    rw [hyfired] at hfired
    cases hfired
  cases hstep with
  | @append items _ _ =>
      refine ⟨rfl, ?_⟩
      rw [(cmdqAppend_added c r.queue items).1]
      exact List.mem_append_left _ hx
  | @insertAfter after items _ hfresh hafter =>
      refine ⟨rfl, ?_⟩
      have hadded := (insertItems_added after.client r.queue after.id ⟨after, hafter, rfl⟩
        (fun item hitem => hfresh.not_mem_list h hitem) hfresh.nodup).1
      rw [cmdqInsertAfter, hadded]
      exact (mem_insertAfter ⟨after, hafter, by simp⟩).mpr (.inr hx)
  | «continue» id _ =>
      refine ⟨rfl, List.mem_map.mpr ⟨x, hx, if_neg ?_⟩⟩
      rintro rfl
      exact hheld rfl
  | next _ =>
      refine ⟨rfl, ?_⟩
      rw [cmdqNext, hhead]
      simp only [hwaiting, if_true]
      exact hx
  | iterate found _ =>
      refine ⟨?_, ?_⟩
      · simp [CmdqList.fires, hhead, hwaiting]
      · rw [cmdqIterate, hhead]
        simp only [hwaiting, if_true]
        exact hx
  | «return» retval hphase => exact absurd (.inl ⟨_, hphase⟩) (hrunning _ _)
  | finish hphase _ => exact absurd (.inr ⟨_, hphase⟩) (hrunning _ _)

theorem Run.waiting {c : Option Client} {r' : Run} (h : r.Sound base) (hx : x ∈ r.queue.list)
    (hwaiting : x.waiting)
    (hrun : Relation.ReflTransGen
      (fun a b => Step c a b ∧ b.queue ≠ cmdqContinue a.queue x.id) r r') :
    r'.fired = r.fired ∧ x ∈ r'.queue.list := by
  suffices hall : r'.Sound base ∧ r'.fired = r.fired ∧ x ∈ r'.queue.list from hall.2
  induction hrun with
  | refl => exact ⟨h, rfl, hx⟩
  | tail _ hstep ih =>
      obtain ⟨hsound, hfired, hmem⟩ := ih
      obtain ⟨hfired', hmem'⟩ := hstep.1.waiting hsound hmem hwaiting hstep.2
      exact ⟨hstep.1.sound hsound, hfired'.trans hfired, hmem'⟩

/-! ### The queue -/

/-- The items that are still to be fired. -/
def CmdqList.pending (queue : CmdqList) : List CmdqItem := queue.made.drop queue.started.length

theorem Run.Sound.pending (h : r.Sound base) : (r.fired ++ r.queue.pending).Sublist r.order := by
  obtain ⟨before, hfired, hsub⟩ := h.schedule
  have hmade : r.queue.made = r.queue.started ++ r.queue.pending := by
    rw [CmdqList.pending]
    cases hhead : r.queue.list.head? with
    | none =>
        have hnil : r.queue.started = [] := by rw [CmdqList.started, hhead]
        rw [hnil]
        rfl
    | some x =>
        obtain ⟨xs, hfront⟩ := h.front hhead
        rw [hfront.started, hfront.made]
        split_ifs <;> rfl
  rw [hfired, List.append_assoc, ← hmade]
  exact hsub

/-- In every run items have been fired at most once and in the order in which they were put on
the queue, with those that are to come behind them; a client is referenced once for each of
its items; an item is gone without having been fired exactly when a command before it
failed while it was there; and as long as an item waits nothing is fired. -/
theorem queue_run {c : Option Client}
    (h : Relation.ReflTransGen (Step c) (Run.start base) r) :
    r.fired.Nodup ∧ (r.fired ++ r.queue.pending).Sublist r.order ∧
    (∀ d, r.queue.references d = base d + Int32.ofNat (r.queue.made.countP (holds d))) ∧
    (∀ o ∈ r.order, (o ∉ r.fired ∧ o ∉ r.queue.made) ↔ ∃ failure ∈ r.failed, Drops failure o) ∧
    ∀ x ∈ r.queue.list, x.waiting → ∀ r', Relation.ReflTransGen
      (fun a b => Step c a b ∧ b.queue ≠ cmdqContinue a.queue x.id) r r' → r'.fired = r.fired := by
  have hr := Run.sound h
  refine ⟨?_, hr.pending, hr.references, hr.removed, fun x hx hwaiting r' hrun =>
    (Run.waiting hr hx hwaiting hrun).1⟩
  exact ((List.sublist_append_left _ _).trans hr.pending).nodup hr.nodup_order

/-- Two commands of one list. -/
def firstItem : NewItem := ⟨0, .command, 5⟩
def secondItem : NewItem := ⟨1, .command, 5⟩

def noReferences : Client → Int32 := fun _ => 0

/-- A command of a list of its own. -/
def thirdItem : NewItem := ⟨2, .command, 6⟩

/-- The first of two commands of a list fails, and the command behind them is fired and waits. -/
theorem queue_run_fails : ∃ r, Relation.ReflTransGen (Step (some 3)) (Run.start noReferences) r ∧
    r.fired = [firstItem, thirdItem].map (NewItem.queued (some 3)) ∧ r.fired.Nodup ∧
    r.queue.references 3 = 1 ∧ (∃ failure ∈ r.failed, Drops failure (secondItem.queued (some 3))) ∧
    ∃ x ∈ r.queue.list, x.waiting ∧ ∀ r', Relation.ReflTransGen
      (fun a b => Step (some 3) a b ∧ b.queue ≠ cmdqContinue a.queue x.id) r r' →
        r'.fired = r.fired := by
  have added : Step (some 3) (Run.start noReferences) _ :=
    @Step.append (some 3) _ [firstItem, secondItem, thirdItem] trivial
      ⟨by decide, fun _ _ _ hx => absurd hx List.not_mem_nil⟩
  have failed := ((((Relation.ReflTransGen.single added).tail (.next rfl)).tail
    (.iterate none rfl)).tail (.return .error rfl)).tail (.finish rfl List.mem_cons_self)
  have waits := ((failed.tail (.iterate none rfl)).tail (.return .wait rfl)).tail
    (.finish rfl List.mem_cons_self)
  obtain ⟨hnodup, -, hreferences, hdropped, hwaiting⟩ := queue_run waits
  refine ⟨_, waits, rfl, hnodup, (hreferences 3).trans (by decide), ?_, _, List.mem_cons_self, rfl,
    hwaiting _ List.mem_cons_self rfl⟩
  exact (hdropped (secondItem.queued (some 3)) (by decide)).mp (by decide)

/-- A command that is queued after another one of its group has failed is fired. -/
theorem later_item_fires : ∃ r, Relation.ReflTransGen (Step none) (Run.start noReferences) r ∧
    ∃ failure ∈ r.failed, ∃ o ∈ r.fired, failure.1.type = .command ∧ failure.1.group ≠ 0 ∧
      o.group = failure.1.group ∧ [failure.1, o].Sublist r.order := by
  have first : Step none (Run.start noReferences) _ := @Step.append none _ [firstItem] trivial
    ⟨by decide, fun _ _ _ hx => absurd hx List.not_mem_nil⟩
  have run :=
    ((((Relation.ReflTransGen.single first).tail (.next rfl)).tail (.iterate none rfl)).tail
    (.return .error rfl)).tail (.finish rfl List.mem_cons_self)
  have second := run.tail (.iterate none rfl)
  have third := second.tail (@Step.append none _ [secondItem] trivial
    ⟨by decide, by decide⟩)
  have last := (third.tail (.next rfl)).tail (.iterate none rfl)
  refine ⟨_, last, _, List.mem_cons_self, ⟨1, none, .command, 5, false, false⟩, ?_, rfl,
    by decide, rfl, ?_⟩
  · decide
  · decide

end Ztmux.Cmdq
