import Ztmux.Cmdq.Queue

/-!
Adding items to a queue, and taking them off it, as operations on its list.
-/

namespace Ztmux.Cmdq

section Insert

variable {α β : Type} {p : α → Bool} {xs l : List α}

theorem mem_insertAfter {x : α} (hp : ∃ y ∈ l, p y) :
    x ∈ insertAfter p xs l ↔ x ∈ xs ∨ x ∈ l := by
  induction l with
  | nil => obtain ⟨y, hy, -⟩ := hp; cases hy
  | cons y ys ih =>
      rw [insertAfter]
      split_ifs with hy
      · simp only [List.mem_cons, List.mem_append]
        grind
      · obtain ⟨z, hz, hpz⟩ := hp
        have hz : z ∈ ys := (List.mem_cons.mp hz).resolve_left fun heq => hy (heq ▸ hpz)
        rw [List.mem_cons, ih ⟨z, hz, hpz⟩, List.mem_cons]
        grind

theorem insertAfter_perm (hp : ∃ y ∈ l, p y) : (insertAfter p xs l).Perm (xs ++ l) := by
  induction l with
  | nil => obtain ⟨y, hy, -⟩ := hp; cases hy
  | cons y ys ih =>
      rw [insertAfter]
      split_ifs with hy
      · exact List.perm_middle.symm
      · obtain ⟨z, hz, hpz⟩ := hp
        have hz : z ∈ ys := (List.mem_cons.mp hz).resolve_left fun heq => hy (heq ▸ hpz)
        exact ((ih ⟨z, hz, hpz⟩).cons y).trans List.perm_middle.symm

theorem insertAfter_nil (p : α → Bool) (l : List α) : insertAfter p [] l = l := by
  induction l with
  | nil => rfl
  | cons y ys ih => rw [insertAfter, ih, List.nil_append, ite_self]

theorem insertAfter_append (hpre : ∀ y ∈ xs, p y = false) (news l : List α) :
    insertAfter p news (xs ++ l) = xs ++ insertAfter p news l := by
  induction xs with
  | nil => rfl
  | cons y ys ih =>
      rw [List.cons_append, insertAfter, hpre y List.mem_cons_self, if_neg (by simp),
        ih fun z hz => hpre z (List.mem_cons_of_mem _ hz), List.cons_append]

theorem map_insertAfter {q : β → Bool} {f : α → β} (h : ∀ x, q (f x) = p x) :
    (insertAfter p xs l).map f = insertAfter q (xs.map f) (l.map f) := by
  induction l with
  | nil => rfl
  | cons y ys ih =>
      rw [insertAfter, List.map_cons, insertAfter, h]
      split_ifs
      · simp
      · rw [List.map_cons, ih]

theorem insertAfter_sublist {l' : List α} (h : l.Sublist l') (hp : ∃ y ∈ l, p y)
    (huniq : l'.Pairwise fun y z => ¬ (p y ∧ p z)) :
    (insertAfter p xs l).Sublist (insertAfter p xs l') := by
  induction h with
  | slnil => exact .slnil
  | cons y h ih =>
      obtain ⟨hfirst, hrest⟩ := List.pairwise_cons.mp huniq
      obtain ⟨z, hz, hpz⟩ := hp
      have hy : ¬ p y := fun hpy => hfirst z (h.subset hz) ⟨hpy, hpz⟩
      rw [insertAfter, if_neg hy]
      exact (ih ⟨z, hz, hpz⟩ hrest).cons y
  | cons_cons y h ih =>
      obtain ⟨hfirst, hrest⟩ := List.pairwise_cons.mp huniq
      rw [insertAfter, insertAfter]
      split_ifs with hy
      · exact ((List.Sublist.refl xs).append h).cons_cons y
      · obtain ⟨z, hz, hpz⟩ := hp
        have hz := (List.mem_cons.mp hz).resolve_left fun heq => hy (heq ▸ hpz)
        exact (ih ⟨z, hz, hpz⟩ hrest).cons_cons y

/-- Inserting behind an element that was inserted before. -/
theorem insertAfter_insertAfter {q : α → Bool} {x : α} (hp : ∃ y ∈ l, p y) (hx : q x)
    (hne : ∀ y ∈ l, q y = false) (ys : List α) :
    insertAfter q ys (insertAfter p [x] l) = insertAfter p (x :: ys) l := by
  induction l with
  | nil => obtain ⟨y, hy, -⟩ := hp; cases hy
  | cons y zs ih =>
      have hy : ¬ q y := by simp [hne y List.mem_cons_self]
      rw [insertAfter, insertAfter]
      split_ifs with hpy
      · rw [List.singleton_append, insertAfter, if_neg hy, insertAfter, if_pos hx]
        rfl
      · obtain ⟨z, hz, hpz⟩ := hp
        have hz := (List.mem_cons.mp hz).resolve_left fun heq => hpy (heq ▸ hpz)
        rw [insertAfter, if_neg hy, ih ⟨z, hz, hpz⟩ fun w hw => hne w (List.mem_cons_of_mem _ hw)]

end Insert

/-- The items that hold a reference to the client `c`. -/
def holds (c : Client) (x : CmdqItem) : Bool := x.client = some c

theorem reference_apply (references : Client → Int32) (c : Option Client) (d : Client) :
    reference references c d = references d + Int32.ofNat (if c = some d then 1 else 0) := by
  cases c with
  | none => simp [reference]
  | some c =>
      rw [reference, Function.update_apply]
      by_cases h : d = c
      · subst h
        simp
      · simp [h, Ne.symm h]

theorem serverClientUnref_apply (references : Client → Int32) (c : Option Client) (d : Client) :
    serverClientUnref references c d =
      references d - Int32.ofNat (if c = some d then 1 else 0) := by
  cases c with
  | none => simp [serverClientUnref]
  | some c =>
      rw [serverClientUnref, Function.update_apply]
      by_cases h : d = c
      · subst h
        simp
      · simp [h, Ne.symm h]

theorem ofNat_countP_cons (c : Client) (x : CmdqItem) (xs : List CmdqItem) :
    Int32.ofNat ((x :: xs).countP (holds c)) =
      Int32.ofNat (xs.countP (holds c)) + Int32.ofNat (if x.client = some c then 1 else 0) := by
  rw [List.countP_cons, Int32.ofNat_add]
  congr 2
  simp [holds]

/-! ### Adding -/

/-- What adding items does to a queue. -/
structure Added (queue queue' : CmdqList) (news : List CmdqItem) : Prop where
  phase : queue'.phase = queue.phase
  references : ∀ c, queue'.references c =
    queue.references c + Int32.ofNat (news.countP (holds c))

theorem Added.of_cons {queue queue' : CmdqList} {c : Option Client} {item : NewItem}
    {list : List CmdqItem} {news : List CmdqItem}
    (h : Added { queue with references := reference queue.references c, list := list } queue'
      news) :
    Added queue queue' (item.queued c :: news) where
  phase := h.phase
  references d := by
    rw [h.references d, ofNat_countP_cons]
    change reference queue.references c d + _ = _ + (_ + Int32.ofNat (if c = some d then 1 else 0))
    rw [reference_apply, Int32.add_assoc, Int32.add_comm (Int32.ofNat (news.countP (holds d)))]

theorem cmdqAppend_added (c : Option Client) (queue : CmdqList) (items : List NewItem) :
    (cmdqAppend c queue items).list = queue.list ++ items.map (NewItem.queued c) ∧
      Added queue (cmdqAppend c queue items) (items.map (NewItem.queued c)) := by
  induction items generalizing queue with
  | nil => exact ⟨by simp [cmdqAppend], rfl, fun d => by simp [cmdqAppend]⟩
  | cons item next ih =>
      obtain ⟨hlist, hadded⟩ := ih
        { queue with
          references := reference queue.references c
          list := queue.list ++ [item.queued c] }
      exact ⟨by rw [cmdqAppend, hlist]; simp, hadded.of_cons⟩

/-- Items that are inserted one after the other stand in their own order after the first anchor. -/
theorem insertItems_added (c : Option Client) (queue : CmdqList) (after : Nat)
    {items : List NewItem} (hafter : ∃ x ∈ queue.list, x.id = after)
    (hfresh : ∀ item ∈ items, ∀ x ∈ queue.list, x.id ≠ item.id)
    (hnodup : (items.map (·.id)).Nodup) :
    (insertItems c queue after items).list =
        insertAfter (fun x => x.id = after) (items.map (NewItem.queued c)) queue.list ∧
      Added queue (insertItems c queue after items) (items.map (NewItem.queued c)) := by
  induction items generalizing queue after with
  | nil =>
      exact ⟨(insertAfter_nil _ _).symm, rfl, fun d => by simp [insertItems]⟩
  | cons item next ih =>
      obtain ⟨hitem, hnodup⟩ := List.nodup_cons.mp hnodup
      let list := insertAfter (fun x => x.id = after) [item.queued c] queue.list
      have hmem : ∀ x, x ∈ list ↔ x = item.queued c ∨ x ∈ queue.list := fun x => by
        rw [mem_insertAfter (by simpa using hafter), List.mem_singleton]
      obtain ⟨hlist, hadded⟩ :=
        ih { queue with references := reference queue.references c, list := list } item.id
        ⟨item.queued c, (hmem _).mpr (.inl rfl), rfl⟩ (fun new hnew x hx => by
          rcases (hmem x).mp hx with rfl | hx
          · intro heq
            exact hitem (List.mem_map.mpr ⟨new, hnew, heq.symm⟩)
          · exact hfresh new (List.mem_cons_of_mem _ hnew) x hx) hnodup
      refine ⟨?_, hadded.of_cons⟩
      rw [insertItems, hlist, List.map_cons]
      -- The new item is the only one with its id, so what follows goes right behind it.
      exact insertAfter_insertAfter (by simpa using hafter) (by simp [NewItem.queued])
        (fun x hx => by simpa using hfresh item List.mem_cons_self x hx) _

end Ztmux.Cmdq
