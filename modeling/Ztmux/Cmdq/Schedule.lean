import Ztmux.Cmdq.Insert

/-!
The order in which the items of a queue run.

A run keeps beside the queue what has happened to it: every item that was ever put on it, in
the order they are to run, the items that were fired, and for each item that returned an
error the items there were at that time. The order is fixed by the calls that add items alone;
that the queue follows it is what is shown.
-/

namespace Ztmux.Cmdq

structure Run where
  queue : CmdqList
  order : List CmdqItem
  fired : List CmdqItem
  failed : List (CmdqItem × List CmdqItem)

/-- Items that have not been on the queue. -/
structure Run.Fresh (r : Run) (items : List NewItem) : Prop where
  nodup : (items.map (·.id)).Nodup
  unused : ∀ item ∈ items, ∀ x ∈ r.order, x.id ≠ item.id

/-- The item that an iteration fires. -/
def CmdqList.fires (queue : CmdqList) : List CmdqItem :=
  match queue.list.head? with
  | some item => if item.waiting ∨ item.fired then [] else [item]
  | none => []

/-- The steps of a queue whose client is `c`. -/
inductive Step (c : Option Client) : Run → Run → Prop
  | append {r : Run} {items : List NewItem} : r.queue.phase.Open → r.Fresh items →
      Step c r { r with
        queue := cmdqAppend c r.queue items
        order := r.order ++ items.map (NewItem.queued c) }
  | insertAfter {r : Run} {after : CmdqItem} {items : List NewItem} : r.queue.phase.Open →
      r.Fresh items → after ∈ r.queue.list →
      Step c r { r with
        queue := cmdqInsertAfter r.queue after items
        order := Cmdq.insertAfter (fun x => x.id = after.id)
          (items.map (NewItem.queued after.client)) r.order }
  | continue {r : Run} (id : Nat) : r.queue.phase.Open →
      Step c r { r with queue := cmdqContinue r.queue id }
  | next {r : Run} {items : UInt32} : r.queue.phase = .outside items →
      Step c r { r with queue := cmdqNext r.queue }
  | iterate {r : Run} {items : UInt32} (found : Option Client) : r.queue.phase = .looping items →
      Step c r { r with
        queue := cmdqIterate r.queue items found
        fired := r.fired ++ r.queue.fires }
  | return {r : Run} {items : UInt32} {id : Nat} {saved : Option Client} (retval : CmdRetval) :
      r.queue.phase = .firing items id saved →
      Step c r { r with queue := cmdqReturn r.queue items id saved retval }
  | finish {r : Run} {items : UInt32} {item : CmdqItem} {retval : CmdRetval} :
      r.queue.phase = .returned items item.id retval → item ∈ r.queue.list →
      Step c r { r with
        queue := cmdqFinish r.queue items item retval
        failed := if retval = .error then (item, r.order) :: r.failed else r.failed }

/-- An empty queue outside `cmdq_next`. -/
def Run.start (references : Client → Int32) : Run :=
  ⟨⟨[], references, .outside 0⟩, [], [], []⟩

/-! ### What an item was when it was queued -/

/-- A command without a client has borrowed one while it runs. -/
def Phase.made (phase : Phase) (x : CmdqItem) : CmdqItem :=
  match phase with
  | .firing _ id saved =>
      if x.id = id then { x with client := saved, fired := false, waiting := false }
      else { x with fired := false, waiting := false }
  | _ => { x with fired := false, waiting := false }

def CmdqList.made (queue : CmdqList) : List CmdqItem := queue.list.map queue.phase.made

def Phase.running : Phase → Bool
  | .firing _ _ _ | .returned _ _ _ => true
  | _ => false

/-- The item at the front, when it was fired. -/
def CmdqList.started (queue : CmdqList) : List CmdqItem :=
  match queue.list.head? with
  | some x => if x.fired || queue.phase.running then [queue.phase.made x] else []
  | none => []

@[simp] theorem Phase.made_id (phase : Phase) (x : CmdqItem) : (phase.made x).id = x.id := by
  cases phase <;> simp only [Phase.made]
  split_ifs <;> rfl

@[simp] theorem Phase.made_group (phase : Phase) (x : CmdqItem) :
    (phase.made x).group = x.group := by
  cases phase <;> simp only [Phase.made]
  split_ifs <;> rfl

/-- Only the item at the front was fired or waits, and it is the one that runs. -/
structure CmdqList.Shape (queue : CmdqList) : Prop where
  tail : ∀ x ∈ queue.list.tail, x.fired = false ∧ x.waiting = false
  head : ∀ x, queue.list.head? = some x → x.waiting → x.fired
  running : ∀ items id, (∃ saved, queue.phase = .firing items id saved) ∨
    (∃ retval, queue.phase = .returned items id retval) →
      ∃ x, queue.list.head? = some x ∧ x.id = id ∧ x.fired = false

/-- The item `o` is dropped because of the item that failed. -/
def Drops (failure : CmdqItem × List CmdqItem) (o : CmdqItem) : Prop :=
  failure.1.type = .command ∧ failure.1.group ≠ 0 ∧ o.group = failure.1.group ∧
    ∃ before after, failure.2 = before ++ failure.1 :: after ∧ o ∈ after

structure Run.Sound (base : Client → Int32) (r : Run) : Prop where
  nodup : (r.order.map (·.id)).Nodup
  shape : r.queue.Shape
  schedule : ∃ before, r.fired = before ++ r.queue.started ∧
    (before ++ r.queue.made).Sublist r.order
  references : ∀ c, r.queue.references c = base c + Int32.ofNat (r.queue.made.countP (holds c))
  removed : ∀ o ∈ r.order, (o ∉ r.fired ∧ o ∉ r.queue.made) ↔ ∃ failure ∈ r.failed, Drops failure o
  known : ∀ failure ∈ r.failed, ∀ o ∈ failure.2, o ∈ r.order

theorem Run.start_sound (references : Client → Int32) :
    (Run.start references).Sound references where
  nodup := List.nodup_nil
  shape := ⟨fun x hx => absurd hx List.not_mem_nil, fun x hx => absurd hx (by simp [Run.start]),
    fun items id h => by simp [Run.start] at h⟩
  schedule := ⟨[], rfl, .slnil⟩
  references c := by simp [Run.start, CmdqList.made]
  removed o ho := absurd ho List.not_mem_nil
  known _ h := absurd h List.not_mem_nil

variable {base : Client → Int32} {r : Run}

/-! ### Items have their own ids -/

theorem Run.Sound.made_sublist (h : r.Sound base) : r.queue.made.Sublist r.order := by
  obtain ⟨before, -, hsub⟩ := h.schedule
  exact (List.sublist_append_right _ _).trans hsub

theorem CmdqList.made_ids (queue : CmdqList) : queue.made.map (·.id) = queue.list.map (·.id) := by
  rw [CmdqList.made, List.map_map]
  exact List.map_congr_left fun x _ => Phase.made_id queue.phase x

theorem Run.Sound.nodup_list (h : r.Sound base) : (r.queue.list.map (·.id)).Nodup := by
  rw [← CmdqList.made_ids]
  exact (h.made_sublist.map (·.id)).nodup h.nodup

theorem eq_of_id {l : List CmdqItem} (h : (l.map (·.id)).Nodup) {x y : CmdqItem} (hx : x ∈ l)
    (hy : y ∈ l) (heq : x.id = y.id) : x = y :=
  List.inj_on_of_nodup_map h hx hy heq

/-- Nothing is counted twice when the queue changes where the run does not. -/
theorem Run.Sound.of_same {queue : CmdqList} (h : r.Sound base) (hshape : queue.Shape)
    (hmade : queue.made = r.queue.made) (hstarted : queue.started = r.queue.started)
    (hreferences : queue.references = r.queue.references) :
    ({ r with queue := queue } : Run).Sound base where
  nodup := h.nodup
  shape := hshape
  schedule := by
    change ∃ before, r.fired = before ++ queue.started ∧ (before ++ queue.made).Sublist r.order
    rw [hmade, hstarted]
    exact h.schedule
  references c := by
    change queue.references c = base c + Int32.ofNat (queue.made.countP (holds c))
    rw [hmade, hreferences]
    exact h.references c
  removed := by
    change ∀ o ∈ r.order, (o ∉ r.fired ∧ o ∉ queue.made) ↔ ∃ failure ∈ r.failed, Drops failure o
    rw [hmade]
    exact h.removed
  known := h.known

/-! ### Adding items -/

theorem Phase.made_queued {queue : CmdqList} (h : queue.Shape) {item : NewItem}
    (hitem : ∀ x ∈ queue.list, x.id ≠ item.id) (c : Option Client) :
    queue.phase.made (item.queued c) = item.queued c := by
  cases hphase : queue.phase with
  | firing items id saved =>
      obtain ⟨x, hx, rfl, -⟩ := h.running items id (.inl ⟨saved, hphase⟩)
      have hne := hitem x (List.mem_of_head? hx)
      rw [Phase.made, if_neg fun heq => hne heq.symm]
      rfl
  | outside items => rfl
  | looping items => rfl
  | returned items id retval => rfl

theorem Run.Fresh.not_mem_list {items : List NewItem} (hfresh : r.Fresh items) (h : r.Sound base)
    {item : NewItem} (hitem : item ∈ items) : ∀ x ∈ r.queue.list, x.id ≠ item.id := by
  intro x hx
  have hmade : r.queue.phase.made x ∈ r.order :=
    h.made_sublist.subset (List.mem_map_of_mem hx)
  have := hfresh.unused item hitem _ hmade
  rwa [Phase.made_id] at this

theorem Run.Fresh.made_news {items : List NewItem} (hfresh : r.Fresh items) (h : r.Sound base)
    (c : Option Client) :
    (items.map (NewItem.queued c)).map r.queue.phase.made = items.map (NewItem.queued c) := by
  rw [List.map_map]
  exact List.map_congr_left fun item hitem =>
    Phase.made_queued h.shape (hfresh.not_mem_list h hitem) c

/-- What a queue with new items behind the front needs to be sound. -/
theorem Run.Sound.added (h : r.Sound base) {items : List NewItem} (hfresh : r.Fresh items)
    {c : Option Client} {queue : CmdqList} {order : List CmdqItem}
    (hadded : Added r.queue queue (items.map (NewItem.queued c)))
    (hlist : queue.list.Perm (items.map (NewItem.queued c) ++ r.queue.list))
    (hhead : ∀ x, r.queue.list.head? = some x → queue.list.head? = some x)
    (horder : order.Perm (items.map (NewItem.queued c) ++ r.order))
    (hsub : ∀ before, (before ++ r.queue.made).Sublist r.order →
      (before ++ queue.made).Sublist order) :
    ({ r with queue := queue, order := order } : Run).Sound base := by
  let news := items.map (NewItem.queued c)
  have hnews : ∀ x ∈ news, x.fired = false ∧ x.waiting = false := by
    intro x hx
    obtain ⟨item, -, rfl⟩ := List.mem_map.mp hx
    exact ⟨rfl, rfl⟩
  have hmade : queue.made.Perm (news ++ r.queue.made) := by
    have hmap := hlist.map r.queue.phase.made
    rw [List.map_append, hfresh.made_news h] at hmap
    rwa [CmdqList.made, hadded.phase]
  have hunused : ∀ x ∈ news, x ∉ r.order := by
    intro x hx hmem
    obtain ⟨item, hitem, rfl⟩ := List.mem_map.mp hx
    exact hfresh.unused item hitem _ hmem rfl
  have hstarted : queue.started = r.queue.started := by
    cases hold : r.queue.list.head? with
    | some x => rw [CmdqList.started, hhead x hold, CmdqList.started, hold, hadded.phase]
    | none =>
        have hidle : r.queue.phase.running = false := by
          by_contra hrun
          cases hphase : r.queue.phase with
          | firing items id saved =>
              obtain ⟨x, hx, -⟩ := h.shape.running items id (.inl ⟨saved, hphase⟩)
              rw [hold] at hx
              cases hx
          | returned items id retval =>
              obtain ⟨x, hx, -⟩ := h.shape.running items id (.inr ⟨retval, hphase⟩)
              rw [hold] at hx
              cases hx
          | outside items => simp [hphase, Phase.running] at hrun
          | looping items => simp [hphase, Phase.running] at hrun
        rw [CmdqList.started, CmdqList.started, hold]
        cases hnew : queue.list.head? with
        | none => rfl
        | some x =>
            have hx := hlist.subset (List.mem_of_head? hnew)
            rw [List.head?_eq_none_iff.mp hold, List.append_nil] at hx
            simp [(hnews x hx).1, hadded.phase, hidle]
  refine ⟨?_, ⟨fun x hx => ?_, fun x hx hwait => ?_, fun k id hrun => ?_⟩, ?_, fun d => ?_,
    fun o ho => ?_, fun failure hf o ho => ?_⟩
  · have hids : (news.map (·.id)).Nodup := by
      rw [List.map_map]
      exact hfresh.nodup
    rw [(horder.map _).nodup_iff, List.map_append]
    refine hids.append h.nodup fun id hnew hold => ?_
    obtain ⟨item, hitem, rfl⟩ : ∃ item ∈ items, item.id = id := by
      simpa [news, NewItem.queued] using hnew
    obtain ⟨x, hx, heq⟩ := List.mem_map.mp hold
    exact hfresh.unused item hitem x hx heq
  · cases hold : r.queue.list with
    | nil =>
        rw [hold, List.append_nil] at hlist
        exact hnews x (hlist.subset (List.mem_of_mem_tail hx))
    | cons y ys =>
        have hy := hhead y (by rw [hold]; rfl)
        obtain ⟨zs, hzs⟩ : ∃ zs, queue.list = y :: zs := by
          cases hq : queue.list with
          | nil => simp [hq] at hy
          | cons z zs => exact ⟨zs, by simpa [hq] using hy⟩
        rw [hzs, hold] at hlist
        rw [hzs, List.tail_cons] at hx
        have hperm : zs.Perm (news ++ ys) := (hlist.trans List.perm_middle).cons_inv
        rcases List.mem_append.mp (hperm.subset hx) with hx | hx
        · exact hnews x hx
        · exact h.shape.tail x (by rw [hold]; exact hx)
  · cases hold : r.queue.list.head? with
    | some y =>
        obtain rfl : y = x := Option.some.inj ((hhead y hold).symm.trans hx)
        exact h.shape.head y hold hwait
    | none =>
        have hmem := hlist.subset (List.mem_of_head? hx)
        rw [List.head?_eq_none_iff.mp hold, List.append_nil] at hmem
        rw [(hnews x hmem).2] at hwait
        cases hwait
  · rw [hadded.phase] at hrun
    obtain ⟨x, hx, hid, hfired⟩ := h.shape.running k id hrun
    exact ⟨x, hhead x hx, hid, hfired⟩
  · obtain ⟨before, hfired, hbefore⟩ := h.schedule
    exact ⟨before, hstarted ▸ hfired, hsub before hbefore⟩
  · change queue.references d = base d + Int32.ofNat (queue.made.countP (holds d))
    rw [hadded.references, h.references, hmade.countP_eq, List.countP_append, Int32.ofNat_add,
      Int32.add_assoc, Int32.add_comm (Int32.ofNat (r.queue.made.countP _))]
  · change (o ∉ r.fired ∧ o ∉ queue.made) ↔ _
    rw [hmade.mem_iff, List.mem_append]
    rcases List.mem_append.mp (horder.subset ho) with hnew | hold
    · constructor
      · exact fun hgone => absurd (.inl hnew) hgone.2
      · rintro ⟨failure, hfailure, -, -, -, before, after, hsplit, hafter⟩
        refine absurd (h.known failure hfailure o ?_) (hunused o hnew)
        rw [hsplit]
        exact List.mem_append_right _ (List.mem_cons_of_mem _ hafter)
    · rw [← h.removed o hold]
      have : o ∉ news := fun hnew => hunused o hnew hold
      simp [this, news]
  · exact horder.symm.subset (List.mem_append_right _ (h.known failure hf o ho))

theorem Run.Sound.append (h : r.Sound base) {items : List NewItem} (hfresh : r.Fresh items)
    (c : Option Client) :
    ({ r with
      queue := cmdqAppend c r.queue items
      order := r.order ++ items.map (NewItem.queued c) } : Run).Sound base := by
  obtain ⟨hlist, hadded⟩ := cmdqAppend_added c r.queue items
  refine h.added hfresh hadded (hlist ▸ List.perm_append_comm) (fun x hx => ?_)
    List.perm_append_comm fun before hsub => ?_
  · rw [hlist, List.head?_append, hx]
    rfl
  · rw [CmdqList.made, hadded.phase, hlist, List.map_append,
      hfresh.made_news h, ← List.append_assoc]
    exact hsub.append (List.Sublist.refl _)

theorem Run.Sound.insertAfter (h : r.Sound base) {items : List NewItem} (hfresh : r.Fresh items)
    {after : CmdqItem} (hafter : after ∈ r.queue.list) :
    ({ r with
      queue := cmdqInsertAfter r.queue after items
      order := Cmdq.insertAfter (fun x => x.id = after.id)
        (items.map (NewItem.queued after.client)) r.order } : Run).Sound base := by
  let p : CmdqItem → Bool := fun x => x.id = after.id
  obtain ⟨hlist, hadded⟩ := insertItems_added after.client r.queue after.id
    ⟨after, hafter, rfl⟩ (fun item hitem => hfresh.not_mem_list h hitem)
    hfresh.nodup
  have hmem : r.queue.phase.made after ∈ r.queue.made := List.mem_map_of_mem hafter
  have hp : p (r.queue.phase.made after) := by simp [p]
  have hanchor : ∃ x ∈ r.order, p x := ⟨_, h.made_sublist.subset hmem, hp⟩
  refine h.added hfresh hadded ?_ (fun x hx => ?_) (insertAfter_perm hanchor) fun before hsub => ?_
  · rw [cmdqInsertAfter, hlist]
    exact insertAfter_perm ⟨after, hafter, by simp⟩
  · rw [cmdqInsertAfter, hlist]
    cases hold : r.queue.list with
    | nil => simp [hold] at hx
    | cons y ys =>
        obtain rfl : y = x := by simpa [hold] using hx
        rw [Cmdq.insertAfter]
        split_ifs <;> rfl
  · have hmade : (cmdqInsertAfter r.queue after items).made =
        Cmdq.insertAfter p (items.map (NewItem.queued after.client)) r.queue.made := by
      rw [CmdqList.made, cmdqInsertAfter, hadded.phase, hlist,
        map_insertAfter (q := p) fun x => by simp [p], hfresh.made_news h]
      rfl
    have huniq : r.order.Pairwise fun x y => ¬ (p x ∧ p y) := by
      refine (List.pairwise_map.mp h.nodup).imp fun hne hxy => hne ?_
      simp only [p, decide_eq_true_eq] at hxy
      exact hxy.1.trans hxy.2.symm
    have hbefore : ∀ x ∈ before, p x = false := by
      intro x hx
      have hdisj := List.pairwise_append.mp (huniq.sublist hsub)
      simpa [hp] using hdisj.2.2 x hx _ hmem
    rw [hmade, ← insertAfter_append hbefore]
    exact insertAfter_sublist hsub ⟨_, List.mem_append_right _ hmem, hp⟩ huniq

end Ztmux.Cmdq
