import Ztmux.Paste.Buffer

/-!
What the heap, the two trees and the counter have to do with each other, and how the
operations on the trees keep it.
-/

namespace Ztmux.Paste

open Ztmux Ztmux.Layout

/-- What is stored for a live buffer. -/
def buf (heap : Heap) (pb : Ptr) : PasteBuffer := (heap pb).getD default

theorem heap_eq_some {heap : Heap} {pb : Ptr} (h : heap pb ≠ none) :
    heap pb = some (buf heap pb) := by
  rw [buf]
  cases hpb : heap pb with
  | none => exact absurd hpb h
  | some b => rfl

theorem deref_eq {heap : Heap} {pb : Ptr} (h : heap pb ≠ none) :
    deref heap pb = .ok (buf heap pb) := by
  rw [deref, heap_eq_some h]

theorem notifyOwn_eq {heap : Heap} {pb : Ptr} (h : heap pb ≠ none) :
    notifyOwn heap pb = .ok () := by
  rw [notifyOwn, deref_eq h]
  simp [notifyPasteBuffer, readText, readName, deref_eq h, bind, Except.bind, pure, Except.pure]

theorem buf_update (heap : Heap) (pb q : Ptr) (b : PasteBuffer) :
    buf (Function.update heap pb (some b)) q = if q = pb then b else buf heap q := by
  rw [buf, Function.update_apply]
  split_ifs <;> rfl

theorem buf_update_of_ne (heap : Heap) {pb q : Ptr} (h : q ≠ pb) (o : Option PasteBuffer) :
    buf (Function.update heap pb o) q = buf heap q := by
  rw [buf, Function.update_of_ne h, buf]

theorem live_update_none {heap : Heap} {pb q : Ptr} :
    Function.update heap pb none q ≠ none ↔ q ≠ pb ∧ heap q ≠ none := by
  rw [Function.update_apply]
  split_ifs with h <;> simp [h]

theorem live_update_some {heap : Heap} {pb q : Ptr} {b : PasteBuffer} :
    Function.update heap pb (some b) q ≠ none ↔ q = pb ∨ heap q ≠ none := by
  rw [Function.update_apply]
  split_ifs with h <;> simp [h]

/-! ### The trees -/

theorem rbFindBy_eq {heap : Heap} {cmp : PasteBuffer → Ordering} {tree : List Ptr}
    (h : ∀ pb ∈ tree, heap pb ≠ none) :
    rbFindBy heap cmp tree = .ok (tree.find? fun pb => cmp (buf heap pb) = .eq) := by
  induction tree with
  | nil => rfl
  | cons pb rest ih =>
      have hrest := ih fun q hq => h q (List.mem_cons_of_mem _ hq)
      rw [rbFindBy, deref_eq (h pb List.mem_cons_self), List.find?_cons]
      cases hcmp : cmp (buf heap pb) <;> simp [hcmp, hrest, pure, Except.pure, bind, Except.bind]

/-- An element that equals none goes in between the ones before and the ones after it. -/
theorem rbInsert_ok {heap : Heap} (cmp : PasteBuffer → PasteBuffer → Ordering) {elm : Ptr}
    {tree : List Ptr} (helm : heap elm ≠ none) (h : ∀ pb ∈ tree, heap pb ≠ none)
    (hne : ∀ pb ∈ tree, cmp (buf heap elm) (buf heap pb) ≠ .eq) :
    ∃ tree', rbInsert heap cmp elm tree = .ok tree' ∧ tree'.Perm (elm :: tree) ∧
      ∀ lt : Ptr → Ptr → Prop, (∀ p q r, lt p q → lt q r → lt p r) → tree.Pairwise lt →
        (∀ pb ∈ tree, cmp (buf heap elm) (buf heap pb) = .lt → lt elm pb) →
        (∀ pb ∈ tree, cmp (buf heap elm) (buf heap pb) = .gt → lt pb elm) → tree'.Pairwise lt := by
  induction tree with
  | nil => exact ⟨[elm], rfl, .rfl, fun lt _ _ _ _ => List.pairwise_singleton lt elm⟩
  | cons pb rest ih =>
      obtain ⟨rest', hrest', hperm, hsorted⟩ := ih (fun q hq => h q (List.mem_cons_of_mem _ hq))
        fun q hq => hne q (List.mem_cons_of_mem _ hq)
      have hpb := h pb List.mem_cons_self
      cases hcmp : cmp (buf heap elm) (buf heap pb) with
      | lt =>
          refine ⟨elm :: pb :: rest, ?_, .rfl, fun lt htrans hpw hlt _ => ?_⟩
          · simp [rbInsert, deref_eq helm, deref_eq hpb, hcmp, bind, Except.bind, pure, Except.pure]
          · have helmpb := hlt pb List.mem_cons_self hcmp
            refine List.pairwise_cons.mpr ⟨fun q hq => ?_, hpw⟩
            rcases List.mem_cons.mp hq with rfl | hq
            · exact helmpb
            · exact htrans _ _ _ helmpb ((List.pairwise_cons.mp hpw).1 q hq)
      | eq => exact absurd hcmp (hne pb List.mem_cons_self)
      | gt =>
          refine ⟨pb :: rest', ?_, ?_, fun lt htrans hpw hlt hgt => ?_⟩
          · simp [rbInsert, deref_eq helm, deref_eq hpb, hcmp, hrest', bind, Except.bind, pure,
              Except.pure]
          · exact (hperm.cons pb).trans (.swap elm pb rest)
          · obtain ⟨hfirst, hpwrest⟩ := List.pairwise_cons.mp hpw
            refine List.pairwise_cons.mpr ⟨fun q hq => ?_, hsorted lt htrans hpwrest
              (fun q hq => hlt q (List.mem_cons_of_mem _ hq))
              fun q hq => hgt q (List.mem_cons_of_mem _ hq)⟩
            rcases List.mem_cons.mp (hperm.mem_iff.mp hq) with rfl | hq
            · exact hgt pb List.mem_cons_self hcmp
            · exact hfirst q hq

theorem rbRemove_eq {heap : Heap} {elm : Ptr} (h : heap elm ≠ none) (tree : List Ptr) :
    rbRemove heap elm tree = .ok (tree.erase elm) := by
  rw [rbRemove, deref_eq h]
  rfl

/-! ### The invariant -/

/-- The trees hold the live buffers, by name and newest first; a newer buffer has a higher
order number. -/
structure Store.Linked (σ : Store) : Prop where
  mem_byName : ∀ pb, pb ∈ σ.byName ↔ σ.heap pb ≠ none
  mem_byTime : ∀ pb, pb ∈ σ.byTime ↔ σ.heap pb ≠ none
  names : σ.byName.Pairwise fun p q => (buf σ.heap p).name < (buf σ.heap q).name
  times : σ.byTime.Pairwise fun p q => q < p ∧ (buf σ.heap q).order < (buf σ.heap p).order
  fresh : ∀ pb, σ.heap pb ≠ none → pb < σ.fresh

/-- `PASTE_NUM_AUTOMATIC` is the number of automatic buffers. -/
def Store.Counted (σ : Store) : Prop :=
  σ.numAutomatic.toNat = σ.byTime.countP fun pb => (buf σ.heap pb).automatic

theorem Store.empty_linked : Store.empty.Linked :=
  ⟨by simp [Store.empty], by simp [Store.empty], .nil, .nil, by simp [Store.empty]⟩

variable {σ : Store}

theorem Store.Linked.nodup_byName (h : σ.Linked) : σ.byName.Nodup :=
  h.names.imp fun hlt heq => absurd (heq ▸ hlt) (lt_irrefl _)

theorem Store.Linked.nodup_byTime (h : σ.Linked) : σ.byTime.Nodup :=
  h.times.imp fun hlt heq => absurd (heq ▸ hlt.1) (lt_irrefl _)

/-- Two buffers in a list that is sorted by `f` do not share a value of `f`. -/
theorem eq_of_pairwise {κ : Type} [LT κ] [Std.Irrefl (α := κ) (· < ·)] {f : Ptr → κ}
    {tree : List Ptr} (h : tree.Pairwise fun p q => f p < f q) {p q : Ptr} (hp : p ∈ tree)
    (hq : q ∈ tree) (heq : f p = f q) : p = q := by
  have hne : tree.Pairwise fun p q => f p ≠ f q :=
    h.imp fun {a b} hlt heq => by
      rw [heq] at hlt
      exact Std.Irrefl.irrefl _ hlt
  have hinj : tree.Pairwise fun p q => f p = f q → p = q := hne.imp fun hne heq => absurd heq hne
  exact List.Pairwise.forall_of_forall_of_flip (fun p _ _ => rfl) hinj
    (hinj.imp fun h heq => (h heq.symm).symm) hp hq heq

theorem Store.Linked.eq_of_name (h : σ.Linked) {p q : Ptr} (hp : σ.heap p ≠ none)
    (hq : σ.heap q ≠ none) (heq : (buf σ.heap p).name = (buf σ.heap q).name) : p = q :=
  eq_of_pairwise h.names ((h.mem_byName p).mpr hp) ((h.mem_byName q).mpr hq) heq

theorem Store.Linked.eq_of_order (h : σ.Linked) {p q : Ptr} (hp : σ.heap p ≠ none)
    (hq : σ.heap q ≠ none) (heq : (buf σ.heap p).order = (buf σ.heap q).order) : p = q := by
  have hsorted : σ.byTime.reverse.Pairwise fun p q => (buf σ.heap p).order < (buf σ.heap q).order :=
    List.pairwise_reverse.mpr (h.times.imp fun hlt => hlt.2)
  exact eq_of_pairwise hsorted (List.mem_reverse.mpr ((h.mem_byTime p).mpr hp))
    (List.mem_reverse.mpr ((h.mem_byTime q).mpr hq)) heq

/-- The buffer with a name. -/
def Store.named (σ : Store) (name : Text) : Option Ptr :=
  σ.byName.find? fun pb => name = (buf σ.heap pb).name

theorem Store.Linked.pasteGetName (h : σ.Linked) {name : Text} (hname : name ≠ []) :
    pasteGetName σ (some name) = .ok (σ.named name) := by
  cases name with
  | nil => exact absurd rfl hname
  | cons c cs =>
      rw [Paste.pasteGetName, rbFindBy_eq fun pb hpb => (h.mem_byName pb).mp hpb]
      · simp only [Store.named, compareOfLessAndEq_eq_eq le_refl not_le]
      · simp

theorem Store.Linked.named_eq_some (h : σ.Linked) {name : Text} {pb : Ptr}
    (hpb : σ.named name = some pb) : σ.heap pb ≠ none ∧ (buf σ.heap pb).name = name := by
  refine ⟨(h.mem_byName pb).mp (List.mem_of_find?_eq_some hpb), ?_⟩
  have := List.find?_some hpb
  simpa [eq_comm] using this

theorem Store.Linked.named_eq_none (h : σ.Linked) {name : Text} :
    σ.named name = none ↔ ∀ pb, σ.heap pb ≠ none → (buf σ.heap pb).name ≠ name := by
  rw [Store.named, List.find?_eq_none]
  constructor
  · intro hall pb hpb heq
    exact hall pb ((h.mem_byName pb).mpr hpb) (by simp [heq])
  · intro hall pb hpb
    simpa [eq_comm] using hall pb ((h.mem_byName pb).mp hpb)

end Ztmux.Paste
