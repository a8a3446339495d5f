import Ztmux.Paste.Store

/-!
The paste buffers over whole runs.

A run is a sequence of calls of the module, each given buffers that are alive. Two calls go
wrong: renaming a buffer to its own name frees it and then uses it, and a buffer made
after the order number has wrapped is older than the ones it is newer than.
-/

namespace Ztmux.Paste

open Ztmux Ztmux.Layout

/-- A value of the option `buffer-limit`, which is an `i32` from 1 on. -/
structure BufferLimit where
  value : Int
  one_le : 1 ≤ value
  le_max : value ≤ 2 ^ 31 - 1

structure Store.Sound (limit : BufferLimit) (σ : Store) : Prop where
  linked : σ.Linked
  counted : σ.Counted
  within : (σ.numAutomatic.toNat : Int) ≤ limit.value

variable {limit : BufferLimit} {σ : Store}

theorem Store.empty_sound (limit : BufferLimit) : Store.empty.Sound limit :=
  ⟨Store.empty_linked, rfl, by
    have := limit.one_le
    change ((0 : UInt32).toNat : Int) ≤ limit.value
    change (0 : Int) ≤ limit.value
    omega⟩

theorem Store.Sound.without (h : σ.Sound limit) {pb : Ptr} (hpb : σ.heap pb ≠ none) :
    (σ.without pb).Sound limit := by
  refine ⟨h.linked.without pb, h.linked.counted_without h.counted hpb, ?_⟩
  have hcount := h.linked.countP_erase h.counted hpb
  have hle : (σ.byTime.erase pb).countP (fun q => (buf σ.heap q).automatic) ≤
      σ.numAutomatic.toNat :=
    h.counted ▸ List.erase_sublist.countP_le
  have hwithin := h.within
  change ((if (buf σ.heap pb).automatic then σ.numAutomatic - 1 else σ.numAutomatic).toNat : Int) ≤
    _
  omega

/-- The buffer with a name is freed, and the others are left as they are. -/
theorem Store.Sound.freeNamed (h : σ.Sound limit) (name : Text) :
    ∃ σ', freeFound σ (σ.named name) = .ok σ' ∧ σ'.Sound limit ∧
      (∀ pb, σ'.heap pb ≠ none ↔ σ.heap pb ≠ none ∧ (buf σ.heap pb).name ≠ name) ∧
      ∀ pb, σ'.heap pb ≠ none → buf σ'.heap pb = buf σ.heap pb := by
  cases hnamed : σ.named name with
  | none =>
      have hfree := h.linked.named_eq_none.mp hnamed
      exact ⟨σ, rfl, h, fun pb => ⟨fun hpb => ⟨hpb, hfree pb hpb⟩, fun hpb => hpb.1⟩,
        fun _ _ => rfl⟩
  | some old =>
      obtain ⟨hold, hname⟩ := h.linked.named_eq_some hnamed
      refine ⟨σ.without old, pasteFree_eq hold, h.without hold, fun pb => ?_, fun pb hpb => ?_⟩
      · rw [Store.without, live_update_none]
        constructor
        · rintro ⟨hne, hpb⟩
          exact ⟨hpb, fun heq => hne (h.linked.eq_of_name hpb hold (heq.trans hname.symm))⟩
        · rintro ⟨hpb, hne⟩
          exact ⟨fun heq => hne (heq ▸ hname), hpb⟩
      · exact buf_update_of_ne _ (live_update_none.mp hpb).1 _

/-- The counter sees one list of live buffers through the heap. -/
theorem countP_buf_congr {heap heap' : Heap} {tree : List Ptr}
    (h : ∀ pb ∈ tree, buf heap' pb = buf heap pb) :
    tree.countP (fun pb => (buf heap' pb).automatic) =
      tree.countP fun pb => (buf heap pb).automatic :=
  List.countP_congr fun pb hpb => by rw [h pb hpb]

/-! ### Adding -/

theorem pasteAdd_returns (h : σ.Sound limit) (pre : Option Text) (data : List UInt8) {size : Nat}
    (hseq : size ≠ 0 → ∀ σ', makeRoom limit.value σ = .ok σ' → σ'.Sequenced fun _ => True) :
    ∃ σ', Returns (fun fuel => pasteAdd limit.value fuel σ pre data size) σ' ∧ σ'.Sound limit := by
  by_cases hsize : size = 0
  · refine ⟨σ, ⟨0, fun fuel _ => ?_⟩, h⟩
    change pasteAdd limit.value fuel σ pre data size = _
    rw [pasteAdd, if_pos hsize]
    rfl
  obtain ⟨σ₁, hroom, hlinked, hcounted, hwithin⟩ := makeRoom_ok limit.one_le h.linked h.counted
  have hseq := hseq hsize σ₁ hroom
  have hmax := limit.le_max
  -- The buffer is counted before it is linked.
  let σ₂ : Store := { σ₁ with numAutomatic := σ₁.numAutomatic + 1, nextOrder := σ₁.nextOrder + 1 }
  have hlinked₂ : σ₂.Linked :=
    ⟨hlinked.mem_byName, hlinked.mem_byTime, hlinked.names, hlinked.times,
    hlinked.fresh⟩
  have hlen : σ₂.byName.length < 2 ^ 32 := by
    have hle := hlinked.length_le hseq
    have hlt := σ₁.nextOrder.toNat_lt
    have heq : σ₂.byName.length = σ₁.byTime.length := hlinked.perm.length_eq
    omega
  obtain ⟨k, hk⟩ := hlinked₂.exists_free hlen (pre.getD "buffer".toList) σ₂.nextIndex
  obtain ⟨name, next, hpick, hname⟩ := pickName_returns hlinked₂ _ hk
  have hlinked₃ : ({ σ₂ with nextIndex := next } : Store).Linked :=
    ⟨hlinked.mem_byName, hlinked.mem_byTime, hlinked.names, hlinked.times, hlinked.fresh⟩
  obtain ⟨σ', hlink, hlinked', hheap, hbyTime, hnum⟩ :=
    hlinked₃.link (b := ⟨data, size, name, 0, true, σ₁.nextOrder⟩)
      (hlinked₂.named_eq_none.mp hname) fun pb hpb => hseq pb hpb trivial
  have hnum' : σ'.numAutomatic.toNat = σ₁.numAutomatic.toNat + 1 := by
    rw [hnum, UInt32.toNat_add]
    have : (1 : UInt32).toNat = 1 := rfl
    omega
  refine ⟨σ', ?_, hlinked', ?_, by omega⟩
  · obtain ⟨n, hn⟩ := hpick
    refine ⟨n, fun fuel hfuel => ?_⟩
    change pasteAdd limit.value fuel σ pre data size = _
    rw [pasteAdd, if_neg hsize, hroom]
    simp only [bind, Except.bind]
    have hfuel := hn fuel hfuel
    simp only [σ₂] at hfuel hlink
    rw [hfuel]
    exact hlink
  · change _ = σ'.byTime.countP _
    have hold : σ₁.byTime.countP (fun pb => (buf σ'.heap pb).automatic) =
        σ₁.byTime.countP fun pb => (buf σ₁.heap pb).automatic := by
      refine countP_buf_congr fun pb hpb => ?_
      rw [hheap]
      exact buf_update_of_ne _ (hlinked.fresh pb ((hlinked.mem_byTime pb).mp hpb)).ne _
    have hnew : (buf σ'.heap σ₁.fresh).automatic = true := by
      rw [hheap, buf_update, if_pos rfl]
    rw [hnum', hbyTime, List.countP_cons, if_pos hnew]
    exact congrArg (· + 1) (hcounted.trans hold.symm)

/-! ### Replacing data -/

/-- The buffer at `pb` gets other contents, under its name and with its order number. -/
theorem Store.Sound.replace (h : σ.Sound limit) {pb : Ptr} (hpb : σ.heap pb ≠ none)
    (data : List UInt8) (size : Nat) :
    ∃ σ', pasteReplace σ pb data size = .ok σ' ∧ σ'.Sound limit := by
  let b := buf σ.heap pb
  let heap := Function.update σ.heap pb (some { b with data := data, size := size })
  have hsame : ∀ q, (buf heap q).name = (buf σ.heap q).name ∧
      (buf heap q).order = (buf σ.heap q).order ∧
      (buf heap q).automatic = (buf σ.heap q).automatic := by
    intro q
    rw [buf_update]
    split_ifs with hq
    · subst hq
      exact ⟨rfl, rfl, rfl⟩
    · exact ⟨rfl, rfl, rfl⟩
  have hlive : ∀ q, heap q ≠ none ↔ σ.heap q ≠ none := fun q => by
    rw [live_update_some]
    exact ⟨fun hq => hq.elim (fun heq => heq ▸ hpb) id, .inr⟩
  refine ⟨{ σ with heap := heap }, ?_, ⟨fun q => ?_, fun q => ?_, ?_, ?_, fun q hq => ?_⟩, ?_,
    h.within⟩
  · rw [pasteReplace, deref_eq hpb, ok_bind]
    show (notifyOwn heap pb >>= fun _ => pure _) = _
    rw [notifyOwn_eq ((hlive pb).mpr hpb)]
    rfl
  · exact (h.linked.mem_byName q).trans (hlive q).symm
  · exact (h.linked.mem_byTime q).trans (hlive q).symm
  · refine h.linked.names.imp fun {p q} hlt => ?_
    rwa [(hsame p).1, (hsame q).1]
  · refine h.linked.times.imp fun {p q} hlt => ?_
    rwa [(hsame p).2.1, (hsame q).2.1]
  · exact h.linked.fresh q ((hlive q).mp hq)
  · exact h.counted.trans (List.countP_congr fun q _ => by rw [(hsame q).2.2])

/-! ### Renaming -/

/-- A live buffer takes a name that no buffer has. -/
theorem Store.Sound.rename (h : σ.Sound limit) {pb : Ptr} (hpb : σ.heap pb ≠ none) {name : Text}
    (hname : ∀ q, σ.heap q ≠ none → (buf σ.heap q).name ≠ name) :
    let heap := Function.update σ.heap pb
      (some { buf σ.heap pb with
        name := name
        string := (buf σ.heap pb).string + 1
        automatic := false })
    ∃ byName, rbInsert heap pasteCmpNames pb (σ.byName.erase pb) = .ok byName ∧
      ({ σ with
        heap := heap
        numAutomatic := if (buf σ.heap pb).automatic then σ.numAutomatic - 1 else σ.numAutomatic
        byName := byName } : Store).Sound limit := by
  intro heap
  have hlive : ∀ q, heap q ≠ none ↔ σ.heap q ≠ none := fun q => by
    rw [live_update_some]
    exact ⟨fun hq => hq.elim (fun heq => heq ▸ hpb) id, .inr⟩
  have hother : ∀ q ∈ σ.byName.erase pb, σ.heap q ≠ none ∧ buf heap q = buf σ.heap q :=
    fun q hq => by
    obtain ⟨hne, hmem⟩ := h.linked.nodup_byName.mem_erase_iff.mp hq
    exact ⟨(h.linked.mem_byName q).mp hmem, buf_update_of_ne _ hne _⟩
  have hnew : buf heap pb = { buf σ.heap pb with
      name := name
      string := (buf σ.heap pb).string + 1
      automatic := false } := by
    rw [buf_update, if_pos rfl]
  have horder : ∀ q, (buf heap q).order = (buf σ.heap q).order := fun q => by
    rw [buf_update]
    split_ifs with hq
    · rw [hq]
    · rfl
  obtain ⟨byName, hbyName, hperm, hsorted⟩ := rbInsert_names (σ.byName.erase pb)
    ((hlive pb).mpr hpb) (fun q hq => (hlive q).mpr (hother q hq).1)
    ((h.linked.names.erase pb).imp_of_mem fun {p q} hp hq hlt => by
      rwa [(hother p hp).2, (hother q hq).2])
    fun q hq => by
      rw [(hother q hq).2, hnew]
      exact hname q (hother q hq).1
  have hcount := h.linked.countP_erase h.counted hpb
  have hmem := (h.linked.mem_byTime pb).mpr hpb
  have hcount' : σ.byTime.countP (fun q => (buf heap q).automatic) =
      (σ.byTime.erase pb).countP fun q => (buf σ.heap q).automatic := by
    rw [(List.perm_cons_erase hmem).countP_eq, List.countP_cons, hnew]
    refine countP_buf_congr fun q hq => ?_
    exact buf_update_of_ne _ (h.linked.nodup_byTime.mem_erase_iff.mp hq).1 _
  refine ⟨byName, hbyName, ⟨fun q => ?_, fun q => ?_, hsorted, ?_, fun q hq => ?_⟩,
    hcount.trans hcount'.symm, (h.without hpb).within⟩
  · rw [hperm.mem_iff, List.mem_cons, h.linked.nodup_byName.mem_erase_iff, h.linked.mem_byName,
      hlive]
    by_cases hq : q = pb
    · simp [hq, hpb]
    · simp [hq]
  · exact (h.linked.mem_byTime q).trans (hlive q).symm
  · refine h.linked.times.imp fun {p q} hlt => ?_
    rwa [horder, horder]
  · exact h.linked.fresh q ((hlive q).mp hq)

/-- A rename that finds its buffer is given two names of the caller's own, which differ. -/
def RenameSafe (σ : Store) (oldname newname : Option Name) : Prop :=
  ∀ old new pb, readText σ.heap oldname = .ok old → readText σ.heap newname = .ok new →
    new.getD [] ≠ [] → pasteGetName σ old = .ok (some pb) →
      ∃ oldText newText, oldname = some (.own oldText) ∧ newname = some (.own newText) ∧
        oldText ≠ newText

/-- What a call is given: live buffers, names that can be read, two of the caller's own that differ
for a rename of a buffer there is, and a next order number above those of the buffers that stay
when one is made. -/
def Admissible (limit : BufferLimit) (σ : Store) : Call → Prop
  | .add _ _ size | .set _ size none =>
      size ≠ 0 → ∀ σ', makeRoom limit.value σ = .ok σ' → σ'.Sequenced fun _ => True
  | .set _ size (some name) =>
      size ≠ 0 → ∃ text, readName σ.heap name = .ok text ∧
        (text ≠ [] → σ.Sequenced fun b => b.name ≠ text)
  | .rename oldname newname =>
      (∃ old, readText σ.heap oldname = .ok old) ∧ (∃ new, readText σ.heap newname = .ok new) ∧
        RenameSafe σ oldname newname
  | .replace pb _ _ | .free pb => σ.heap pb ≠ none

theorem pasteSet_returns (h : σ.Sound limit) (data : List UInt8) {size : Nat} (name : Option Name)
    (hadm : Admissible limit σ (.set data size name)) :
    ∃ σ' e, Returns (fun fuel => pasteSet limit.value fuel σ data size name) (σ', e) ∧
      σ'.Sound limit ∧ (e ≠ none → σ' = σ) := by
  by_cases hsize : size = 0
  · refine ⟨σ, none, ⟨0, fun fuel _ => ?_⟩, h, fun _ => rfl⟩
    change pasteSet limit.value fuel σ data size name = _
    rw [pasteSet.eq_def, if_pos hsize]
    rfl
  cases name with
  | none =>
      obtain ⟨σ', ⟨n, hn⟩, hsound⟩ := pasteAdd_returns h none data hadm
      refine ⟨σ', none, ⟨n, fun fuel hfuel => ?_⟩, hsound, fun hne => absurd rfl hne⟩
      change pasteSet limit.value fuel σ data size none = _
      rw [pasteSet, if_neg hsize]
      simp only [hn fuel hfuel, bind, Except.bind]
      rfl
  | some name =>
  obtain ⟨text, htext, hseq⟩ := hadm hsize
  by_cases hname : text = []
  · refine ⟨σ, some .emptyBufferName, ⟨0, fun fuel _ => ?_⟩, h, fun _ => rfl⟩
    change pasteSet limit.value fuel σ data size (some name) = _
    rw [pasteSet, if_neg hsize]
    simp only [htext, if_pos hname, bind, Except.bind]
    rfl
  · have hseq := hseq hname
    let σ₁ : Store := { σ with nextOrder := σ.nextOrder + 1 }
    have hsound₁ : σ₁.Sound limit := ⟨⟨h.linked.mem_byName, h.linked.mem_byTime, h.linked.names,
      h.linked.times, h.linked.fresh⟩, h.counted, h.within⟩
    obtain ⟨σ₂, hσ₂, hsound₂, hlive, hbuf⟩ := hsound₁.freeNamed text
    obtain ⟨σ', hlink, hlinked', hheap, hbyTime, hnum⟩ :=
      hsound₂.linked.link (b := ⟨data, size, text, 0, false, σ.nextOrder⟩)
        (fun pb hpb => by rw [hbuf pb hpb]; exact ((hlive pb).mp hpb).2)
        fun pb hpb => by
          rw [hbuf pb hpb]
          exact hseq pb ((hlive pb).mp hpb).1 ((hlive pb).mp hpb).2
    have hcounted' : σ'.Counted := by
      have hold : σ₂.byTime.countP (fun pb => (buf σ'.heap pb).automatic) =
          σ₂.byTime.countP fun pb => (buf σ₂.heap pb).automatic := by
        refine countP_buf_congr fun pb hpb => ?_
        rw [hheap]
        exact buf_update_of_ne _
          (hsound₂.linked.fresh pb ((hsound₂.linked.mem_byTime pb).mp hpb)).ne _
      have hnew : (buf σ'.heap σ₂.fresh).automatic = false := by
        rw [hheap, buf_update, if_pos rfl]
      rw [Store.Counted, hnum, hbyTime, List.countP_cons, hnew, hold]
      exact hsound₂.counted
    refine ⟨σ', none, ⟨0, fun fuel _ => ?_⟩, ⟨hlinked', hcounted', hnum ▸ hsound₂.within⟩,
      fun hne => absurd rfl hne⟩
    change pasteSet limit.value fuel σ data size (some name) = _
    rw [pasteSet, if_neg hsize]
    have hget := hsound₁.linked.pasteGetName hname
    simp only [σ₁] at hget hσ₂
    simp only [htext, if_neg hname, hget, hσ₂, hlink, bind, Except.bind]
    rfl

theorem pasteRename_ok (h : σ.Sound limit) {oldname newname : Option Name}
    (hadm : Admissible limit σ (.rename oldname newname)) :
    ∃ σ' e, pasteRename σ oldname newname = .ok (σ', e) ∧ σ'.Sound limit ∧ (e ≠ none → σ' = σ) := by
  obtain ⟨⟨old, hreadOld⟩, ⟨new, hreadNew⟩, hsafe⟩ := hadm
  rw [pasteRename, hreadOld, ok_bind]
  by_cases hold : old.getD [] = []
  · exact ⟨σ, some .noBuffer, by rw [if_pos hold]; rfl, h, fun _ => rfl⟩
  rw [if_neg hold, hreadNew, ok_bind]
  by_cases hnew : new.getD [] = []
  · exact ⟨σ, some .newNameEmpty, by rw [if_pos hnew]; rfl, h, fun _ => rfl⟩
  rw [if_neg hnew]
  obtain ⟨oldText, rfl⟩ : ∃ oldText, old = some oldText := by
    cases old with
    | none => exact absurd rfl hold
    | some oldText => exact ⟨oldText, rfl⟩
  have hgetOld : pasteGetName σ (some oldText) = .ok (σ.named oldText) :=
    h.linked.pasteGetName hold
  rw [hgetOld, ok_bind]
  cases hnamed : σ.named oldText with
  | none => exact ⟨σ, some (.noBufferNamed oldText), rfl, h, fun _ => rfl⟩
  | some pb =>
      obtain ⟨oldOwn, newOwn, rfl, rfl, hne⟩ :=
        hsafe _ _ pb hreadOld hreadNew hnew (hgetOld.trans (congrArg Except.ok hnamed))
      obtain rfl : oldOwn = oldText := Option.some.inj (Except.ok.inj hreadOld)
      obtain rfl : some newOwn = new := Except.ok.inj hreadNew
      obtain ⟨hpb, hname⟩ := h.linked.named_eq_some hnamed
      -- The buffer that has the new name is another one.
      obtain ⟨σ₁, hσ₁, hsound₁, hlive, hbuf⟩ := h.freeNamed newOwn
      have hpb₁ : σ₁.heap pb ≠ none := (hlive pb).mpr ⟨hpb, fun heq => hne (hname.symm.trans heq)⟩
      obtain ⟨byName, hbyName, hsound'⟩ := hsound₁.rename hpb₁ fun q hq => by
        rw [hbuf q hq]
        exact ((hlive q).mp hq).2
      refine ⟨_, none, ?_, hsound', fun hne => absurd rfl hne⟩
      have hgetNew : pasteGetName σ (some newOwn) = .ok (σ.named newOwn) :=
        h.linked.pasteGetName hnew
      simp only [hgetNew, hσ₁, rbRemove_eq hpb₁, deref_eq hpb₁, readText,
        readName, notifyPasteBuffer, bind, Except.bind, pure, Except.pure, Option.getD_some,
        hbyName]

/-- An admissible call returns, keeps the store sound, and leaves it alone when it fails. -/
theorem exec_returns (h : σ.Sound limit) {call : Call} (hadm : Admissible limit σ call) :
    ∃ σ' e, Returns (fun fuel => exec limit.value fuel σ call) (σ', e) ∧ σ'.Sound limit ∧
      (e ≠ none → σ' = σ) := by
  cases call with
  | add pre data size =>
      obtain ⟨σ', hret, hsound⟩ := pasteAdd_returns h pre data hadm
      exact ⟨σ', none, hret.bind (returns_pure _), hsound, fun hne => absurd rfl hne⟩
  | set data size name => exact pasteSet_returns h data name hadm
  | rename oldname newname =>
      obtain ⟨σ', e, hok, hsound, herror⟩ := pasteRename_ok h hadm
      exact ⟨σ', e, ⟨0, fun _ _ => hok⟩, hsound, herror⟩
  | replace pb data size =>
      obtain ⟨σ', hok, hsound⟩ := h.replace hadm data size
      exact ⟨σ', none, ⟨0, fun _ _ => by simp only [exec, hok]; rfl⟩, hsound,
        fun hne => absurd rfl hne⟩
  | free pb =>
      exact ⟨σ.without pb, none, ⟨0, fun _ _ => by simp only [exec, pasteFree_eq hadm]; rfl⟩,
        h.without hadm, fun hne => absurd rfl hne⟩

/-! ### Walking -/

/-- What a caller of `paste_walk` sees that goes on until there is no buffer left. -/
def walkFrom (σ : Store) : Nat → Option Ptr → Exec (List Ptr)
  | 0, _ => .error .outOfFuel
  | fuel + 1, pb => do
      match ← pasteWalk σ pb with
      | none => pure []
      | some next => return next :: (← walkFrom σ fuel (some next))

theorem walkFrom_cons {pb : Option Ptr} {next : Ptr} {pbs : List Ptr}
    (hnext : pasteWalk σ pb = .ok (some next))
    (h : Returns (fun fuel => walkFrom σ fuel (some next)) pbs) :
    Returns (fun fuel => walkFrom σ fuel pb) (next :: pbs) := by
  obtain ⟨n, hn⟩ := h
  refine .of_succ ⟨n, fun fuel hfuel => ?_⟩
  change walkFrom σ (fuel + 1) pb = _
  rw [walkFrom, hnext]
  simp only [hn fuel hfuel, bind, Except.bind]
  rfl

theorem walkFrom_nil {pb : Option Ptr} (hnext : pasteWalk σ pb = .ok none) :
    Returns (fun fuel => walkFrom σ fuel pb) [] := by
  refine .of_succ ⟨0, fun fuel _ => ?_⟩
  change walkFrom σ (fuel + 1) pb = _
  rw [walkFrom, hnext]
  rfl

theorem Store.Linked.pasteWalk_some (h : σ.Linked) {front pbs : List Ptr} {pb : Ptr}
    (hpbs : σ.byTime = front ++ pb :: pbs) : pasteWalk σ (some pb) = .ok pbs.head? := by
  have hmem : pb ∈ σ.byTime := by simp [hpbs]
  have hnodup := h.nodup_byTime
  rw [hpbs] at hnodup
  have hfront : pb ∉ front := fun hpb =>
    (List.nodup_append.mp hnodup).2.2 pb hpb pb List.mem_cons_self rfl
  have hidx : σ.byTime.idxOf pb = front.length := by
    rw [hpbs, List.idxOf_append_of_notMem hfront, List.idxOf_cons_self, Nat.add_zero]
  rw [pasteWalk, deref_eq ((h.mem_byTime pb).mp hmem)]
  simp only [bind, Except.bind, rbNext, hidx]
  rw [hpbs, List.getElem?_append_right (Nat.le_succ _), Nat.succ_sub (le_refl _), Nat.sub_self,
    List.getElem?_cons_succ, List.head?_eq_getElem?]
  rfl

/-- A walk that has come to a buffer goes on with those after it. -/
theorem Store.Linked.walkFrom_some (h : σ.Linked) (front : List Ptr) {pbs : List Ptr} {pb : Ptr}
    (hpbs : σ.byTime = front ++ pb :: pbs) :
    Returns (fun fuel => walkFrom σ fuel (some pb)) pbs := by
  have hwalk := h.pasteWalk_some hpbs
  induction pbs generalizing front pb with
  | nil => exact walkFrom_nil hwalk
  | cons next rest ih =>
      have hnext : σ.byTime = (front ++ [pb]) ++ next :: rest := by simp [hpbs]
      exact walkFrom_cons hwalk (ih _ hnext (h.pasteWalk_some hnext))

theorem Store.Linked.walkFrom_none (h : σ.Linked) :
    Returns (fun fuel => walkFrom σ fuel none) σ.byTime := by
  cases hpbs : σ.byTime with
  | nil => exact walkFrom_nil (by rw [pasteWalk, hpbs]; rfl)
  | cons pb rest =>
      exact walkFrom_cons (by rw [pasteWalk, hpbs]; rfl)
        (h.walkFrom_some [] hpbs)

theorem skipNamed_eq {pbs : List Ptr} (h : ∀ pb ∈ pbs, σ.heap pb ≠ none) :
    skipNamed σ pbs = .ok (pbs.find? fun pb => (buf σ.heap pb).automatic) := by
  induction pbs with
  | nil => rfl
  | cons pb rest ih =>
      have hrest := ih fun q hq => h q (List.mem_cons_of_mem _ hq)
      rw [skipNamed, deref_eq (h pb List.mem_cons_self), List.find?_cons]
      cases hauto : (buf σ.heap pb).automatic <;>
        simp [hauto, hrest, bind, Except.bind, pure, Except.pure]

/-- The first automatic buffer of the tree by age is the newest. -/
theorem Store.Linked.newest (h : σ.Linked) {top : Option Ptr}
    (htop : σ.byTime.find? (fun pb => (buf σ.heap pb).automatic) = top) {pb : Ptr}
    (hpb : σ.heap pb ≠ none) (hauto : (buf σ.heap pb).automatic) :
    ∃ newest, top = some newest ∧ pb ≤ newest := by
  have hmem := (h.mem_byTime pb).mpr hpb
  cases top with
  | none => exact absurd hauto (by simpa using List.find?_eq_none.mp htop pb hmem)
  | some newest =>
      obtain ⟨-, front, back, hsplit, hfront⟩ := List.find?_eq_some_iff_append.mp htop
      refine ⟨newest, rfl, ?_⟩
      have htimes := h.times
      rw [hsplit] at htimes hmem
      rcases List.mem_append.mp hmem with hmem | hmem
      · exact absurd hauto (by simpa using hfront pb hmem)
      · rcases List.mem_cons.mp hmem with rfl | hmem
        · exact le_rfl
        · exact ((List.pairwise_cons.mp (List.pairwise_append.mp htimes).2.1).1 pb hmem).1.le

/-- One admissible call. -/
def Step (limit : BufferLimit) (σ σ' : Store) : Prop :=
  ∃ call e, Admissible limit σ call ∧
    Returns (fun fuel => exec limit.value fuel σ call) (σ', e)

theorem Store.run_sound (h : Relation.ReflTransGen (Step limit) Store.empty σ) : σ.Sound limit := by
  induction h with
  | refl => exact Store.empty_sound limit
  | tail _ hstep ih =>
      obtain ⟨call, e, hadm, hret⟩ := hstep
      obtain ⟨σ', e', hret', hsound, -⟩ := exec_returns ih hadm
      obtain ⟨rfl, -⟩ := Prod.mk.inj (hret.unique hret')
      exact hsound

/-- In every run of admissible calls the two trees hold the live buffers, which have different
names and order numbers, the counter counts the automatic ones and stays within the limit, a
walk lists the buffers newest first and the top is the newest automatic one; the next
admissible call returns, and leaves the store as it is when it fails. -/
theorem paste_run (h : Relation.ReflTransGen (Step limit) Store.empty σ) :
    ((∀ pb, pb ∈ σ.byName ↔ σ.heap pb ≠ none) ∧ ∀ pb, pb ∈ σ.byTime ↔ σ.heap pb ≠ none) ∧
    (∀ p q, σ.heap p ≠ none → σ.heap q ≠ none →
      ((buf σ.heap p).name = (buf σ.heap q).name ∨ (buf σ.heap p).order = (buf σ.heap q).order) →
        p = q) ∧
    σ.numAutomatic.toNat = σ.byTime.countP (fun pb => (buf σ.heap pb).automatic) ∧
    (σ.numAutomatic.toNat : Int) ≤ limit.value ∧
    (∃ pbs, Returns (fun fuel => walkFrom σ fuel none) pbs ∧ pbs.Pairwise (· > ·) ∧
      ∀ pb, pb ∈ pbs ↔ σ.heap pb ≠ none) ∧
    (∃ top, pasteGetTop σ = .ok top ∧
      (∀ pb, top = some pb → σ.heap pb ≠ none ∧ (buf σ.heap pb).automatic) ∧
      ∀ pb, σ.heap pb ≠ none → (buf σ.heap pb).automatic →
        ∃ newest, top = some newest ∧ pb ≤ newest) ∧
    ∀ call, Admissible limit σ call → ∃ σ' e,
      Returns (fun fuel => exec limit.value fuel σ call) (σ', e) ∧ (e ≠ none → σ' = σ) := by
  have hσ := Store.run_sound h
  have hlinked := hσ.linked
  refine ⟨⟨hlinked.mem_byName, hlinked.mem_byTime⟩, fun p q hp hq heq => ?_, hσ.counted, hσ.within,
    ⟨σ.byTime, hlinked.walkFrom_none, hlinked.times.imp fun h => h.1, hlinked.mem_byTime⟩,
    ⟨_, skipNamed_eq fun pb hpb => (hlinked.mem_byTime pb).mp hpb, fun pb hpb => ?_,
      fun pb hpb hauto => hlinked.newest rfl hpb hauto⟩, fun call hadm => ?_⟩
  · rcases heq with heq | heq
    · exact hlinked.eq_of_name hp hq heq
    · exact hlinked.eq_of_order hp hq heq
  · exact ⟨(hlinked.mem_byTime pb).mp (List.mem_of_find?_eq_some hpb),
      by simpa using List.find?_some hpb⟩
  · obtain ⟨σ', e, hret, -, herror⟩ := exec_returns hσ hadm
    exact ⟨σ', e, hret, herror⟩

/-- The default of `buffer-limit`. -/
def defaultLimit : BufferLimit := ⟨50, by decide, by decide⟩

/-- A store with one automatic buffer. -/
def oneBuffer : Store :=
  ⟨Function.update (fun _ => none) 0 (some ⟨[104], 1, "buffer0".toList, 0, true, 0⟩), 1, 1, 1, 1,
    [0], [0]⟩

theorem oneBuffer_step : Step defaultLimit Store.empty oneBuffer := by
  refine ⟨.add none [104] 1, none, ?_, .of_succ ⟨0, fun fuel _ => rfl⟩⟩
  intro _ σ' hσ' pb hpb
  obtain rfl : Store.empty = σ' := Except.ok.inj hσ'
  exact absurd rfl hpb

/-- The buffer with a name of its own, given to it by a rename. -/
def oneNamed : Store :=
  ⟨Function.update oneBuffer.heap 0 (some ⟨[104], 1, ['a'], 1, false, 0⟩), 1, 1, 1, 0, [0], [0]⟩

theorem oneNamed_step : Step defaultLimit oneBuffer oneNamed := by
  refine ⟨.rename (some (.own "buffer0".toList)) (some (.own ['a'])), none,
    ⟨⟨_, rfl⟩, ⟨_, rfl⟩, ?_⟩, ⟨0, fun _ _ => rfl⟩⟩
  intro _ _ _ _ _ _ _
  exact ⟨_, _, rfl, rfl, by decide⟩

/-- After a rename there is no automatic buffer, and a walk still sees the one there is. -/
theorem paste_run_oneNamed :
    oneNamed.numAutomatic.toNat =
        oneNamed.byTime.countP (fun pb => (buf oneNamed.heap pb).automatic) ∧
      pasteGetTop oneNamed = .ok none ∧
      ∃ pbs, Returns (fun fuel => walkFrom oneNamed fuel none) pbs ∧ 0 ∈ pbs := by
  obtain ⟨-, -, hcounted, -, ⟨pbs, hwalk, -, hpbs⟩, ⟨top, htop, hlive, -⟩, -⟩ :=
    paste_run (.tail (.single oneBuffer_step) oneNamed_step)
  refine ⟨hcounted, ?_, pbs, hwalk, (hpbs 0).mpr (Option.some_ne_none _)⟩
  obtain rfl : none = top := Except.ok.inj (rfl.symm.trans htop)
  exact htop

/-- Renaming a buffer to the name it has frees it and then removes it from the tree by name. With
its old name borrowed from it, as `set-buffer -n` does for the top buffer, a rename drops that
string and then reads it. -/
theorem pasteRename_own_name : ∃ σ,
    Returns (fun fuel => exec defaultLimit.value fuel Store.empty
      (.set [104] 1 (some (.own ['a'])))) (σ, none) ∧
    pasteRename σ (some (.own ['a'])) (some (.own ['a'])) = .error .useAfterFree ∧
    Step defaultLimit Store.empty oneBuffer ∧ pasteGetTop oneBuffer = .ok (some 0) ∧
    readName oneBuffer.heap (.borrowed 0 0) = .ok "buffer0".toList ∧
    pasteRename oneBuffer (some (.borrowed 0 0)) (some (.own ['a'])) = .error .useAfterFree :=
  ⟨_, ⟨0, fun _ _ => rfl⟩, rfl, oneBuffer_step, rfl, rfl, rfl⟩

end Ztmux.Paste
