import Ztmux.Paste.Linked

/-!
What each operation does to a store whose trees are linked.
-/

namespace Ztmux.Paste

open Ztmux Ztmux.Layout

variable {σ : Store}

/-! ### Freeing -/

def Store.without (σ : Store) (pb : Ptr) : Store :=
  { σ with
    byName := σ.byName.erase pb, byTime := σ.byTime.erase pb,
    numAutomatic := if (buf σ.heap pb).automatic then σ.numAutomatic - 1 else σ.numAutomatic,
    heap := Function.update σ.heap pb none }

theorem pasteFree_eq {pb : Ptr} (hpb : σ.heap pb ≠ none) : pasteFree σ pb = .ok (σ.without pb) := by
  rw [pasteFree, notifyOwn_eq hpb, rbRemove_eq hpb, rbRemove_eq hpb, deref_eq hpb]
  rfl

theorem Store.Linked.without (h : σ.Linked) (pb : Ptr) : (σ.without pb).Linked where
  mem_byName q := by
    change q ∈ σ.byName.erase pb ↔ Function.update σ.heap pb none q ≠ none
    rw [h.nodup_byName.mem_erase_iff, live_update_none, h.mem_byName]
  mem_byTime q := by
    change q ∈ σ.byTime.erase pb ↔ Function.update σ.heap pb none q ≠ none
    rw [h.nodup_byTime.mem_erase_iff, live_update_none, h.mem_byTime]
  names := by
    refine (h.names.erase pb).imp_of_mem fun {p q} hp hq hlt => ?_
    have hp' := (h.nodup_byName.mem_erase_iff.mp hp).1
    have hq' := (h.nodup_byName.mem_erase_iff.mp hq).1
    rwa [Store.without, buf_update_of_ne _ hp', buf_update_of_ne _ hq']
  times := by
    refine (h.times.erase pb).imp_of_mem fun {p q} hp hq hlt => ?_
    have hp' := (h.nodup_byTime.mem_erase_iff.mp hp).1
    have hq' := (h.nodup_byTime.mem_erase_iff.mp hq).1
    rwa [Store.without, buf_update_of_ne _ hp', buf_update_of_ne _ hq']
  fresh q hq := h.fresh q (live_update_none.mp hq).2

theorem Store.Linked.countP_erase (h : σ.Linked) (hcount : σ.Counted) {pb : Ptr}
    (hpb : σ.heap pb ≠ none) :
    (if (buf σ.heap pb).automatic then σ.numAutomatic - 1 else σ.numAutomatic).toNat =
      (σ.byTime.erase pb).countP fun q => (buf σ.heap q).automatic := by
  have hsum := (List.perm_cons_erase ((h.mem_byTime pb).mpr hpb)).countP_eq
    fun q => (buf σ.heap q).automatic
  rw [List.countP_cons, ← hcount] at hsum
  split_ifs at hsum ⊢ with hauto
  · rw [UInt32.toNat_sub_of_le _ _ (by
      change 1 ≤ σ.numAutomatic.toNat
      omega)]
    have : (1 : UInt32).toNat = 1 := rfl
    omega
  · omega

theorem Store.Linked.counted_without (h : σ.Linked) (hcount : σ.Counted) {pb : Ptr}
    (hpb : σ.heap pb ≠ none) : (σ.without pb).Counted := by
  have hsame : (σ.byTime.erase pb).countP (fun q => (buf (σ.without pb).heap q).automatic) =
      (σ.byTime.erase pb).countP fun q => (buf σ.heap q).automatic := by
    refine List.countP_congr fun q hq => ?_
    rw [Store.without, buf_update_of_ne _ (h.nodup_byTime.mem_erase_iff.mp hq).1]
  exact (h.countP_erase hcount hpb).trans hsame.symm

/-! ### Making a buffer -/

theorem rbInsert_names {heap : Heap} {elm : Ptr} (tree : List Ptr) (helm : heap elm ≠ none)
    (hlive : ∀ pb ∈ tree, heap pb ≠ none)
    (hsorted : tree.Pairwise fun p q => (buf heap p).name < (buf heap q).name)
    (hname : ∀ pb ∈ tree, (buf heap pb).name ≠ (buf heap elm).name) :
    ∃ tree', rbInsert heap pasteCmpNames elm tree = .ok tree' ∧ tree'.Perm (elm :: tree) ∧
      tree'.Pairwise fun p q => (buf heap p).name < (buf heap q).name := by
  obtain ⟨tree', hok, hperm, hpw⟩ := rbInsert_ok pasteCmpNames helm hlive
    fun pb hpb heq => hname pb hpb ((compareOfLessAndEq_eq_eq le_refl not_le).mp heq).symm
  refine ⟨tree', hok, hperm, hpw _ (fun p q r => lt_trans) hsorted (fun pb _ hlt => ?_)
    fun pb _ hgt => ?_⟩
  · exact compareOfLessAndEq_eq_lt.mp hlt
  · exact (compareOfLessAndEq_eq_gt le_antisymm le_total not_le _ _).mp hgt

theorem rbInsert_times {heap : Heap} {elm : Ptr} (tree : List Ptr) (helm : heap elm ≠ none)
    (hlive : ∀ pb ∈ tree, heap pb ≠ none)
    (horder : ∀ pb ∈ tree, (buf heap pb).order < (buf heap elm).order) :
    rbInsert heap pasteCmpTimes elm tree = .ok (elm :: tree) := by
  cases tree with
  | nil => rfl
  | cons pb rest =>
      have hcmp : pasteCmpTimes (buf heap elm) (buf heap pb) = .lt :=
        compareOfLessAndEq_eq_lt.mpr (horder pb List.mem_cons_self)
      rw [rbInsert, deref_eq helm, deref_eq (hlive pb List.mem_cons_self)]
      simp [hcmp, bind, Except.bind, pure, Except.pure]

/-- A new buffer is linked when its name is free and its order number the highest. -/
theorem Store.Linked.link (h : σ.Linked) {b : PasteBuffer}
    (hname : ∀ pb, σ.heap pb ≠ none → (buf σ.heap pb).name ≠ b.name)
    (horder : ∀ pb, σ.heap pb ≠ none → (buf σ.heap pb).order < b.order) :
    ∃ σ', σ.link b = .ok σ' ∧ σ'.Linked ∧ σ'.heap = Function.update σ.heap σ.fresh (some b) ∧
      σ'.byTime = σ.fresh :: σ.byTime ∧ σ'.numAutomatic = σ.numAutomatic := by
  have hfresh : ∀ pb, σ.heap pb ≠ none → pb ≠ σ.fresh := fun pb hpb => (h.fresh pb hpb).ne
  let heap := Function.update σ.heap σ.fresh (some b)
  have hold : ∀ pb, σ.heap pb ≠ none → buf heap pb = buf σ.heap pb :=
    fun pb hpb => buf_update_of_ne _ (hfresh pb hpb) _
  have hnew : buf heap σ.fresh = b := by rw [buf_update, if_pos rfl]
  have hlive : ∀ pb, σ.heap pb ≠ none → heap pb ≠ none := fun pb hpb =>
    live_update_some.mpr (.inr hpb)
  have helm : heap σ.fresh ≠ none := live_update_some.mpr (.inl rfl)
  obtain ⟨byName, hbyName, hperm, hsorted⟩ := rbInsert_names σ.byName helm
    (fun pb hpb => hlive pb ((h.mem_byName pb).mp hpb))
    (h.names.imp_of_mem fun {p q} hp hq hlt => by
      rwa [hold p ((h.mem_byName p).mp hp), hold q ((h.mem_byName q).mp hq)])
    (fun pb hpb => by
      rw [hold pb ((h.mem_byName pb).mp hpb), hnew]
      exact hname pb ((h.mem_byName pb).mp hpb))
  have hbyTime := rbInsert_times σ.byTime helm
    (fun pb hpb => hlive pb ((h.mem_byTime pb).mp hpb)) fun pb hpb => by
      rw [hold pb ((h.mem_byTime pb).mp hpb), hnew]
      exact horder pb ((h.mem_byTime pb).mp hpb)
  refine ⟨{ σ with
      heap := heap, fresh := σ.fresh + 1, byName := byName, byTime :=
        σ.fresh :: σ.byTime }, ?_, ⟨fun pb => ?_, fun pb => ?_, hsorted, ?_, fun pb hpb => ?_⟩,
    rfl, rfl, rfl⟩
  · rw [Store.link]
    simp only [heap] at hbyName hbyTime
    rw [hbyName]
    simp only [bind, Except.bind]
    rw [hbyTime]
    simp only [heap] at helm
    rw [notifyOwn_eq helm]
    rfl
  · rw [hperm.mem_iff, List.mem_cons, h.mem_byName, live_update_some]
  · rw [List.mem_cons, h.mem_byTime, live_update_some]
  · refine List.pairwise_cons.mpr ⟨fun q hq => ?_, h.times.imp_of_mem fun {p q} hp hq hlt => ?_⟩
    · have hq := (h.mem_byTime q).mp hq
      rw [hold q hq, hnew]
      exact ⟨h.fresh q hq, horder q hq⟩
    · rwa [hold p ((h.mem_byTime p).mp hp), hold q ((h.mem_byTime q).mp hq)]
  · rcases live_update_some.mp hpb with rfl | hpb
    · exact Nat.lt_succ_self _
    · exact Nat.lt_succ_of_lt (h.fresh pb hpb)

/-! ### Making room -/

/-- The loop goes past every automatic buffer unless it stops for having made room. -/
theorem evict_ok {limit : Int} (hlimit : 1 ≤ limit) {pbs : List Ptr} (h : σ.Linked)
    (hcount : σ.Counted) (hnodup : pbs.Nodup) (hlive : ∀ pb ∈ pbs, σ.heap pb ≠ none)
    (hall : ∀ pb, σ.heap pb ≠ none → (buf σ.heap pb).automatic → pb ∈ pbs) :
    ∃ σ', evict limit σ pbs = .ok σ' ∧ σ'.Linked ∧ σ'.Counted ∧
      (σ'.numAutomatic.toNat : Int) < limit := by
  induction pbs generalizing σ with
  | nil =>
      have hzero : σ.numAutomatic.toNat = 0 := by
        rw [hcount, List.countP_eq_zero]
        exact fun pb hpb hauto => absurd (hall pb ((h.mem_byTime pb).mp hpb) hauto) List.not_mem_nil
      exact ⟨σ, rfl, h, hcount, by omega⟩
  | cons pb rest ih =>
      obtain ⟨hpbrest, hnodup⟩ := List.nodup_cons.mp hnodup
      have hpb := hlive pb List.mem_cons_self
      rw [evict]
      by_cases hroom : (σ.numAutomatic.toNat : Int) < limit
      · exact ⟨σ, if_pos hroom, h, hcount, hroom⟩
      · rw [if_neg hroom, deref_eq hpb]
        simp only [bind, Except.bind]
        split_ifs with hauto
        · rw [pasteFree_eq hpb]
          have hne : ∀ q ∈ rest, q ≠ pb := fun q hq heq => hpbrest (heq ▸ hq)
          refine ih (h.without pb) (h.counted_without hcount hpb) hnodup (fun q hq => ?_)
            fun q hq hqauto => ?_
          · exact live_update_none.mpr ⟨hne q hq, hlive q (List.mem_cons_of_mem _ hq)⟩
          · obtain ⟨hqpb, hqlive⟩ := live_update_none.mp hq
            rw [Store.without, buf_update_of_ne _ hqpb] at hqauto
            exact (List.mem_cons.mp (hall q hqlive hqauto)).resolve_left hqpb
        · refine ih h hcount hnodup (fun q hq => hlive q (List.mem_cons_of_mem _ hq))
            fun q hqlive hqauto => ?_
          refine (List.mem_cons.mp (hall q hqlive hqauto)).resolve_left fun hqpb => hauto ?_
          rwa [← hqpb]

theorem makeRoom_ok {limit : Int} (hlimit : 1 ≤ limit) (h : σ.Linked) (hcount : σ.Counted) :
    ∃ σ', makeRoom limit σ = .ok σ' ∧ σ'.Linked ∧ σ'.Counted ∧
      (σ'.numAutomatic.toNat : Int) < limit :=
  evict_ok hlimit h hcount (List.nodup_reverse.mpr h.nodup_byTime)
    (fun pb hpb => (h.mem_byTime pb).mp (List.mem_reverse.mp hpb))
    fun pb hpb _ => List.mem_reverse.mpr ((h.mem_byTime pb).mpr hpb)

/-! ### Picking a name -/

/-- Every live buffer that is kept has a lower order number than the next one. -/
def Store.Sequenced (σ : Store) (keep : PasteBuffer → Prop) : Prop :=
  ∀ pb, σ.heap pb ≠ none → keep (buf σ.heap pb) → (buf σ.heap pb).order < σ.nextOrder

theorem Store.Linked.length_le (h : σ.Linked) (hseq : σ.Sequenced fun _ => True) :
    σ.byTime.length ≤ σ.nextOrder.toNat := by
  have hnodup : (σ.byTime.map fun pb => (buf σ.heap pb).order.toNat).Nodup :=
    List.pairwise_map.mpr (h.times.imp fun hlt => (Nat.ne_of_lt hlt.2).symm)
  have hsub : (σ.byTime.map fun pb => (buf σ.heap pb).order.toNat) ⊆
      List.range σ.nextOrder.toNat := by
    intro n hn
    obtain ⟨pb, hpb, rfl⟩ := List.mem_map.mp hn
    exact List.mem_range.mpr (hseq pb ((h.mem_byTime pb).mp hpb) trivial)
  simpa using (List.subperm_of_subset hnodup hsub).length_le

theorem Store.Linked.perm (h : σ.Linked) : σ.byName.Perm σ.byTime :=
  (List.perm_ext_iff_of_nodup h.nodup_byName h.nodup_byTime).mpr fun pb =>
    (h.mem_byName pb).trans (h.mem_byTime pb).symm

theorem decimal_inj {m n : UInt32} (h : decimal m = decimal n) : m = n := by
  have heq := congrArg (fun cs => Nat.ofDigitChars 10 cs 0) h
  simp only [decimal, Nat.ofDigitChars_ten_toDigits] at heq
  exact UInt32.toNat.inj heq

/-- There are more numbers than buffers. -/
theorem Store.Linked.exists_free (h : σ.Linked) (hlen : σ.byName.length < 2 ^ 32) (pre : Text)
    (tmp : UInt32) : ∃ k, σ.named (pre ++ decimal (tmp + UInt32.ofNat k)) = none := by
  by_contra hall
  push Not at hall
  let name := fun k : Nat => pre ++ decimal (tmp + UInt32.ofNat k)
  have hnodup : ((List.range (σ.byName.length + 1)).map name).Nodup := by
    refine List.Nodup.map_on (fun j hj k hk heq => ?_) List.nodup_range
    have hsum := decimal_inj (List.append_cancel_left heq)
    have hjk := congrArg UInt32.toNat (add_left_cancel hsum)
    rw [List.mem_range] at hj hk
    rwa [UInt32.toNat_ofNat_of_lt' (by simp [UInt32.size]; omega),
      UInt32.toNat_ofNat_of_lt' (by simp [UInt32.size]; omega)] at hjk
  have hsub : (List.range (σ.byName.length + 1)).map name ⊆
      σ.byName.map fun pb => (buf σ.heap pb).name := by
    intro x hx
    obtain ⟨k, -, rfl⟩ := List.mem_map.mp hx
    obtain ⟨pb, hpb⟩ := Option.ne_none_iff_exists'.mp (hall k)
    obtain ⟨hlive, hname⟩ := h.named_eq_some hpb
    exact List.mem_map.mpr ⟨pb, (h.mem_byName pb).mpr hlive, hname⟩
  have hle := (List.subperm_of_subset hnodup hsub).length_le
  simp at hle

theorem pickName_returns (h : σ.Linked) (pre : Text) {k : Nat} {tmp : UInt32}
    (hk : σ.named (pre ++ decimal (tmp + UInt32.ofNat k)) = none) :
    ∃ name next, Returns (fun fuel => pickName σ pre fuel tmp) (name, next) ∧
      σ.named name = none := by
  induction k generalizing tmp with
  | zero =>
      have hpick : pasteGetName σ (some (pre ++ decimal tmp)) = _ := h.pasteGetName
        (List.append_ne_nil_of_right_ne_nil _ (decimal_ne_nil tmp))
      have hfree : σ.named (pre ++ decimal tmp) = none := by simpa using hk
      refine ⟨_, tmp + 1, .of_succ ⟨0, fun fuel _ => ?_⟩, hfree⟩
      change pickName σ pre (fuel + 1) tmp = _
      rw [pickName, hpick, hfree]
      rfl
  | succ k ih =>
      have hpick : pasteGetName σ (some (pre ++ decimal tmp)) = _ := h.pasteGetName
        (List.append_ne_nil_of_right_ne_nil _ (decimal_ne_nil tmp))
      cases hfree : σ.named (pre ++ decimal tmp) with
      | none =>
          refine ⟨_, tmp + 1, .of_succ ⟨0, fun fuel _ => ?_⟩, hfree⟩
          change pickName σ pre (fuel + 1) tmp = _
          rw [pickName, hpick, hfree]
          rfl
      | some pb =>
          have hnext : tmp + UInt32.ofNat (k + 1) = tmp + 1 + UInt32.ofNat k := by
            rw [UInt32.ofNat_add, add_comm (UInt32.ofNat k), ← add_assoc]
            rfl
          rw [hnext] at hk
          obtain ⟨name, next, hret, hnone⟩ := ih hk
          refine ⟨name, next, .of_succ ?_, hnone⟩
          obtain ⟨n, hn⟩ := hret
          refine ⟨n, fun fuel hfuel => ?_⟩
          change pickName σ pre (fuel + 1) tmp = _
          rw [pickName, hpick, hfree]
          exact hn fuel hfuel

end Ztmux.Paste
