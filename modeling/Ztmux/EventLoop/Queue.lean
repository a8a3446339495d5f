import Ztmux.EventLoop.Lines

/-!
A buffer refines a byte queue: whatever it grew to and however often it was compacted, its
bytes are those appended less those taken off the front. A drain whose count does not fit
behind the head is the exception.
-/

namespace Ztmux.EventLoop

variable {b b' : Evbuffer}

namespace Evbuffer

theorem length_visible (b : Evbuffer) : b.visible.length = b.data.bytes.length - b.off :=
  List.length_drop

theorem visible_grown (b : Evbuffer) {data : Vec} {bs : List UInt8} (h)
    (hdata : data.bytes = b.data.bytes ++ bs) : (b.grown data h).visible = b.visible ++ bs := by
  change data.bytes.drop b.off = _
  rw [hdata, List.drop_append_of_le_length b.within]
  rfl

theorem visible_sealed (h : b.sealed = some b') : b'.visible = b.visible := by
  obtain ⟨data, -, rfl⟩ := Option.map_eq_some_iff.mp h
  change data.1.bytes.drop b.off = _
  rw [data.2.1]
  rfl

/-- A drain leaves what stands behind where it moves the head. -/
theorem visible_drain (b : Evbuffer) (n : Nat) :
    (b.drain n).visible = b.data.bytes.drop ((b.off + n) % usizeRange) := by
  have hdrop : b.data.bytes.drop (b.advanced n) = b.data.bytes.drop ((b.off + n) % usizeRange) := by
    rw [advanced]
    rcases le_total ((b.off + n) % usizeRange) b.data.bytes.length with h | h
    · rw [min_eq_left h]
    · rw [min_eq_right h, List.drop_length, List.drop_of_length_le h]
  rw [drain, ← hdrop]
  split_ifs with hall hcompact
  · rw [hall, List.drop_length]
    rfl
  · rfl
  · rfl

/-- The count fits behind the head exactly where a drain drops that many bytes: one that wraps
brings drained bytes back. -/
theorem visible_drain_iff (b : Evbuffer) {n : Nat} (hn : n < usizeRange) :
    (b.drain n).visible = b.visible.drop n ↔ b.off + n < usizeRange := by
  have hoff : b.off < usizeRange := b.compact.trans (by decide)
  rw [visible_drain]
  constructor
  · intro h
    by_contra hwrap
    have hlength := congrArg List.length h
    have hmod : (b.off + n) % usizeRange = b.off + n - usizeRange := by
      rw [Nat.mod_eq_sub_mod (by omega), Nat.mod_eq_of_lt (by omega)]
    have hwithin := b.within
    have hsmall := b.data.fits.trans b.data.small
    rw [List.length_drop, List.length_drop, length_visible, hmod] at hlength
    have hrange : isizeMax < usizeRange := by decide
    omega
  · intro h
    rw [Nat.mod_eq_of_lt h, visible, List.drop_drop]

theorem visible_drain_of_le (b : Evbuffer) {n : Nat} (hn : n ≤ b.visible.length) :
    (b.drain n).visible = b.visible.drop n := by
  have hwithin := b.within
  have hsmall := b.data.fits.trans b.data.small
  have hrange : isizeMax < usizeRange := by decide
  rw [length_visible] at hn
  exact (b.visible_drain_iff (by omega)).mpr (by omega)

/-- Taken at the head, a pointer reads the first bytes of the buffer. -/
theorem load_head (b : Evbuffer) {n : Nat} (hn : n ≤ b.visible.length) :
    b.load ⟨b.data.place, b.off⟩ n = some (b.visible.take n) := by
  have hwithin := b.within
  rw [length_visible] at hn
  rw [load]
  dsimp only
  rw [if_pos ⟨rfl, by rw [List.length_append]; omega⟩, List.drop_append_of_le_length hwithin,
    List.take_append_of_le_length (by rw [List.length_drop]; omega)]
  rfl

end Evbuffer

theorem visible_add {bs : List UInt8} (h : evbufferAdd b bs = some b') :
    b'.visible = b.visible ++ bs := by
  rw [evbufferAdd] at h
  split_ifs at h with hbs
  · obtain ⟨data, -, rfl⟩ := Option.map_eq_some_iff.mp h
    exact b.visible_grown _ data.2
  · obtain rfl := Option.some.inj h
    rw [not_not.mp hbs, List.append_nil]

/-- How many bytes the kernel takes; an empty buffer offers none. -/
def taken (fd : Accepts) (len : Nat) : Nat :=
  match fd len with
  | none => 0
  | some n => n.val

theorem taken_le (fd : Accepts) (len : Nat) : taken fd len ≤ len := by
  rw [taken]
  split
  · exact Nat.zero_le _
  · exact Nat.le_of_lt_succ (Fin.is_lt _)

theorem visible_write (b : Evbuffer) (fd : Accepts) :
    (evbufferWrite b fd).1.visible = b.visible.drop (taken fd b.visible.length) := by
  have hle := taken_le fd b.visible.length
  rw [evbufferWrite]
  split_ifs with hempty
  · rw [hempty] at hle ⊢
    rw [Nat.le_zero.mp hle, List.drop_zero]
  · rw [taken] at hle ⊢
    cases hfd : fd b.visible.length with
    | none => rfl
    | some n =>
      rw [hfd] at hle
      show (if 0 < n.val then b.drain n.val else b).visible = b.visible.drop n.val
      split_ifs with hpos
      · exact b.visible_drain_of_le hle
      · rw [Nat.eq_zero_of_not_pos hpos, List.drop_zero]

theorem visible_read {fd : Delivers} {howmuch n : Int}
    (h : evbufferRead b fd howmuch = some (b', n)) :
    b'.visible = b.visible ++ gotBytes (fd (want howmuch)) := by
  rw [evbufferRead] at h
  by_cases hnone : want howmuch = 0
  · rw [if_pos hnone] at h
    obtain ⟨rfl, -⟩ := Prod.mk.inj (Option.some.inj h)
    have hlength := gotBytes_length (fd (want howmuch))
    rw [List.eq_nil_of_length_eq_zero (by omega : (gotBytes (fd (want howmuch))).length = 0),
      List.append_nil]
  · rw [if_neg hnone] at h
    obtain ⟨data, -, heq⟩ := Option.map_eq_some_iff.mp h
    obtain ⟨rfl, -⟩ := Prod.mk.inj heq
    refine b.visible_grown _ ?_
    rw [Vec.received_bytes, data.2, List.take_left]

theorem visible_pullup {size : Int} {p : Option Pointer}
    (h : evbufferPullup b size = some (b', p)) :
    b'.visible = b.visible ∧ (p = none ↔ 0 < size ∧ b.visible.length < size.toNat) := by
  rw [evbufferPullup] at h
  split_ifs at h with hsize
  · obtain ⟨rfl, rfl⟩ := Prod.mk.inj (Option.some.inj h)
    exact ⟨rfl, fun _ => hsize, fun _ => rfl⟩
  · obtain ⟨c, hc, heq⟩ := Option.map_eq_some_iff.mp h
    obtain ⟨rfl, rfl⟩ := Prod.mk.inj heq
    refine ⟨Evbuffer.visible_sealed hc, fun hp => ?_, fun hp => absurd hp hsize⟩
    cases hp

theorem readln_some {style : EolStyle} {line : List UInt8}
    (h : (evbufferReadln b style).2 = some line) :
    FirstLine (Ending style) b.visible line (evbufferReadln b style).1.visible := by
  rw [evbufferReadln] at h ⊢
  cases hfind : findEol b.visible style with
  | none =>
    rw [hfind] at h
    cases h
  | some r =>
    rw [hfind] at h
    obtain rfl := Option.some.inj h
    show FirstLine _ _ _ (b.drain (r.1 + r.2)).visible
    rw [b.visible_drain_of_le (findEol_le hfind)]
    exact findEol_some hfind

theorem readln_none {style : EolStyle} (h : (evbufferReadln b style).2 = none) :
    (evbufferReadln b style).1.visible = b.visible ∧
      ∀ i, ¬EndsAt (Ending style) b.visible i := by
  rw [evbufferReadln] at h ⊢
  cases hfind : findEol b.visible style with
  | none => exact ⟨rfl, findEol_none hfind⟩
  | some r =>
    rw [hfind] at h
    cases h

/-- The calls on a buffer. The kernel's answer is part of a call that reads or writes. -/
inductive Op
  | add (bs : List UInt8)
  | drain (len : UInt64)
  | readln (style : EolStyle)
  | pullup (size : Int)
  | write (fd : Accepts)
  | read (fd : Delivers) (howmuch : Int)

inductive Answer
  | done
  | line (line : Option (List UInt8))
  | pointer (p : Option Pointer)
  | count (n : Int)

/-- The buffer and the answer after a call; `none` where an allocation aborts. -/
def apply (b : Evbuffer) (op : Op) : Option (Evbuffer × Answer) :=
  match op with
  | .add bs => (evbufferAdd b bs).map fun b => (b, .done)
  | .drain len => some (evbufferDrain b len, .done)
  | .readln style => some ((evbufferReadln b style).1, .line (evbufferReadln b style).2)
  | .pullup size => (evbufferPullup b size).map fun r => (r.1, .pointer r.2)
  | .write fd => some ((evbufferWrite b fd).1, .count (evbufferWrite b fd).2)
  | .read fd howmuch => (evbufferRead b fd howmuch).map fun r => (r.1, .count r.2)

/-- One call on a byte queue. A line is the first of the queue, and leaves with its ending. -/
inductive QueueStep : List UInt8 → Op → Answer → List UInt8 → Prop
  | add {q bs} : QueueStep q (.add bs) .done (q ++ bs)
  | drain {q len} : QueueStep q (.drain len) .done (q.drop len.toNat)
  | line {q style line rest} (h : FirstLine (Ending style) q line rest) :
      QueueStep q (.readln style) (.line (some line)) rest
  | noLine {q style} (h : ∀ i, ¬EndsAt (Ending style) q i) :
      QueueStep q (.readln style) (.line none) q
  | pullup {q size p} (h : p = none ↔ 0 < size ∧ q.length < size.toNat) :
      QueueStep q (.pullup size) (.pointer p) q
  | write {q fd n} : QueueStep q (.write fd) (.count n) (q.drop (taken fd q.length))
  | read {q fd howmuch n} :
      QueueStep q (.read fd howmuch) (.count n) (q ++ gotBytes (fd (want howmuch)))

/-- What a queue holds after the calls of `history`, first to last, from an empty one. -/
inductive QueueRun : List (Op × Answer) → List UInt8 → Prop
  | nil : QueueRun [] []
  | step {history q op a q'} (h : QueueRun history q) (hstep : QueueStep q op a q') :
      QueueRun (history ++ [(op, a)]) q'

/-- The runs of a buffer from a new one, whose calls are all as `P` has them. -/
inductive BufferRun (P : Evbuffer → Op → Prop) : List (Op × Answer) → Evbuffer → Prop
  | new : BufferRun P [] evbufferNew
  | step {history b op b' a} (h : BufferRun P history b) (hop : P b op)
      (hstep : apply b op = some (b', a)) : BufferRun P (history ++ [(op, a)]) b'

/-- A count to drain fits behind the head, where it does not wrap. -/
def DrainFits (b : Evbuffer) (op : Op) : Prop :=
  ∀ len, op = .drain len → b.off + len.toNat < usizeRange

theorem apply_queueStep {op : Op} {a : Answer} (hfits : DrainFits b op)
    (h : apply b op = some (b', a)) : QueueStep b.visible op a b'.visible := by
  cases op with
  | add bs =>
    obtain ⟨c, hc, heq⟩ := Option.map_eq_some_iff.mp h
    obtain ⟨rfl, rfl⟩ := Prod.mk.inj heq
    rw [visible_add hc]
    exact .add
  | drain len =>
    obtain ⟨rfl, rfl⟩ := Prod.mk.inj (Option.some.inj h)
    rw [evbufferDrain, (b.visible_drain_iff len.toNat_lt).mpr (hfits len rfl)]
    exact .drain
  | readln style =>
    obtain ⟨rfl, rfl⟩ := Prod.mk.inj (Option.some.inj h)
    cases hline : (evbufferReadln b style).2 with
    | none =>
      obtain ⟨hvisible, hnone⟩ := readln_none hline
      rw [hvisible]
      exact .noLine hnone
    | some line => exact .line (readln_some hline)
  | pullup size =>
    obtain ⟨⟨c, p⟩, hc, heq⟩ := Option.map_eq_some_iff.mp h
    obtain ⟨rfl, rfl⟩ := Prod.mk.inj heq
    obtain ⟨hvisible, hp⟩ := visible_pullup hc
    rw [hvisible]
    exact .pullup hp
  | write fd =>
    obtain ⟨rfl, rfl⟩ := Prod.mk.inj (Option.some.inj h)
    rw [visible_write]
    exact .write
  | read fd howmuch =>
    obtain ⟨⟨c, n⟩, hc, heq⟩ := Option.map_eq_some_iff.mp h
    obtain ⟨rfl, rfl⟩ := Prod.mk.inj heq
    rw [visible_read hc]
    exact .read

theorem BufferRun.queueRun {history : List (Op × Answer)} (h : BufferRun DrainFits history b) :
    QueueRun history b.visible := by
  induction h with
  | new => exact .nil
  | step _ hop hstep ih => exact .step ih (apply_queueStep hop hstep)

theorem sealed_room (h : b.sealed = some b') : b'.data.bytes.length + 1 ≤ b'.data.cap := by
  obtain ⟨data, -, rfl⟩ := Option.map_eq_some_iff.mp h
  have hlength : data.1.bytes.length = b.data.bytes.length := congrArg List.length data.2.1
  exact hlength.symm ▸ data.2.2

/-- Bytes there is room for do not move the others. -/
theorem add_in_place {bs : List UInt8} (hroom : b.data.bytes.length + bs.length ≤ b.data.cap)
    (h : evbufferAdd b bs = some b') : b'.data.place = b.data.place ∧ b'.off = b.off := by
  rw [evbufferAdd] at h
  split_ifs at h with hbs
  · obtain ⟨grown, hgrown, rfl⟩ := Option.map_eq_some_iff.mp h
    obtain ⟨room, hreserve, rfl⟩ := Option.map_eq_some_iff.mp hgrown
    rw [Vec.reserve, dif_pos hroom] at hreserve
    obtain rfl := Option.some.inj hreserve
    exact ⟨rfl, rfl⟩
  · obtain rfl := Option.some.inj h
    exact ⟨rfl, rfl⟩

theorem pullup_sealed {size : Int} {p : Pointer} (h : evbufferPullup b size = some (b', some p)) :
    b.sealed = some b' ∧ p = ⟨b'.data.place, b'.off⟩ := by
  rw [evbufferPullup] at h
  split_ifs at h with hsize
  · cases (Prod.mk.inj (Option.some.inj h)).2
  · obtain ⟨c, hc, heq⟩ := Option.map_eq_some_iff.mp h
    obtain ⟨rfl, hp⟩ := Prod.mk.inj heq
    exact ⟨hc, (Option.some.inj hp).symm⟩

theorem pullup_load {size : Int} {p : Pointer} (h : evbufferPullup b size = some (b', some p)) :
    b'.load p b.visible.length = some b.visible := by
  obtain ⟨hsealed, rfl⟩ := pullup_sealed h
  have hvisible := Evbuffer.visible_sealed hsealed
  rw [b'.load_head (congrArg List.length hvisible).ge, hvisible, List.take_length]

/-- It still reads them after one more byte has been added, and is still where they are. -/
theorem pullup_add {size : Int} {p : Pointer} {byte : UInt8} {b'' : Evbuffer}
    (h : evbufferPullup b size = some (b', some p)) (hadd : evbufferAdd b' [byte] = some b'') :
    p = ⟨b''.data.place, b''.off⟩ ∧ b''.load p b.visible.length = some b.visible := by
  obtain ⟨hsealed, rfl⟩ := pullup_sealed h
  have hvisible := Evbuffer.visible_sealed hsealed
  have hadded := visible_add hadd
  obtain ⟨hplace, hoff⟩ := add_in_place (sealed_room hsealed) hadd
  have hlength : b.visible.length ≤ b''.visible.length := by
    rw [hadded, hvisible, List.length_append]
    exact Nat.le_add_right ..
  refine ⟨by rw [hplace, hoff], ?_⟩
  rw [← hplace, ← hoff, b''.load_head hlength, hadded, hvisible, List.take_left]

/-- In a run whose drains fit behind the head, the buffer holds what a queue does after the
same calls, and a pullup gives its bytes for as long as one more byte is added. -/
theorem evbuffer_queue {history : List (Op × Answer)} (h : BufferRun DrainFits history b) :
    ∃ q, QueueRun history q ∧ b.visible = q ∧ evbufferGetLength b = q.length ∧
      (∀ len : UInt64, q.length ≤ len.toNat → b.off + len.toNat < usizeRange →
        (evbufferDrain b len).visible = []) ∧
      ∀ size b' p byte b'', evbufferPullup b size = some (b', some p) →
        evbufferAdd b' [byte] = some b'' →
          p = ⟨b''.data.place, b''.off⟩ ∧ b'.load p q.length = some q ∧
            b''.load p q.length = some q := by
  refine ⟨b.visible, h.queueRun, rfl, rfl, ?_, ?_⟩
  · intro len hlen hfits
    rw [evbufferDrain, (b.visible_drain_iff len.toNat_lt).mpr hfits]
    exact List.drop_of_length_le hlen
  · intro size b' p byte b'' hpullup hadd
    obtain ⟨hp, hload⟩ := pullup_add hpullup hadd
    exact ⟨hp, pullup_load hpullup, hload⟩

/-- Two bytes of which one has been drained. -/
def halfDrained : Evbuffer :=
  ⟨⟨[97, 98], 8, 1, none, by decide, by decide⟩, 1, by decide, by decide⟩

theorem halfDrained_run :
    BufferRun DrainFits [(.add [97, 98], .done), (.drain 1, .done)] halfDrained := by
  refine @BufferRun.step _ [(.add [97, 98], .done)] _ _ _ _ (.step .new ?_ rfl) ?_ rfl
  · intro len hlen
    cases hlen
  · intro len hlen
    obtain rfl := Op.drain.inj hlen
    decide

theorem evbuffer_queue_halfDrained :
    ∃ q, QueueRun [(.add [97, 98], .done), (.drain 1, .done)] q ∧ halfDrained.visible = q := by
  obtain ⟨q, hq, hvisible, -⟩ := evbuffer_queue halfDrained_run
  exact ⟨q, hq, hvisible⟩

/-- A count that wraps brings the drained byte back where it should empty the buffer. -/
theorem drain_wraps :
    ∃ history b, BufferRun DrainFits history b ∧ b.visible.length ≤
      (18446744073709551615 : UInt64).toNat ∧
      (evbufferDrain b 18446744073709551615).visible = [97, 98] :=
  ⟨_, halfDrained, halfDrained_run, by decide, by decide⟩

end Ztmux.EventLoop
