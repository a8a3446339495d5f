import Ztmux.EventLoop.Buffer

/-!
The line a buffer is asked for: `findEol` finds the first line ending of its style, and all of
it.
-/

namespace Ztmux.EventLoop

/-- The words that end a line. -/
def Ending (style : EolStyle) (e : List UInt8) : Prop :=
  match style with
  | .any => e ≠ [] ∧ ∀ b ∈ e, isEol b
  | .crlf => e = [cr, lf] ∨ e = [lf]
  | .crlfStrict => e = [cr, lf]
  | .lf => e = [lf]
  | .nul => e = [0]

variable {data : List UInt8} {n k : Nat}

theorem endsAt_any_iff {i : Nat} :
    EndsAt (Ending .any) data i ↔ ∃ b, data[i]? = some b ∧ isEol b := by
  constructor
  · rintro ⟨e, ⟨hne, he⟩, t, ht⟩
    obtain ⟨b, e', rfl⟩ := List.exists_cons_of_ne_nil hne
    refine ⟨b, ?_, he b List.mem_cons_self⟩
    rw [← List.head?_drop, ← ht]
    rfl
  · rintro ⟨b, hb, heol⟩
    obtain ⟨e, rfl, hpre⟩ := endsAt_cons_iff.mpr hb
    refine ⟨[b], ⟨List.cons_ne_nil _ _, ?_⟩, hpre⟩
    intro c hc
    rwa [List.mem_singleton.mp hc]

theorem endsAt_crlf_iff {i : Nat} :
    EndsAt (Ending .crlf) data i ↔
      (data[i]? = some cr ∧ data[i + 1]? = some lf) ∨ data[i]? = some lf := by
  rw [← endsAt_pair_iff, ← endsAt_cons_iff]
  constructor
  · rintro ⟨e, rfl | rfl, hpre⟩
    · exact Or.inl ⟨_, rfl, hpre⟩
    · exact Or.inr ⟨_, rfl, hpre⟩
  · rintro (⟨e, rfl, hpre⟩ | ⟨e, rfl, hpre⟩)
    · exact ⟨_, Or.inl rfl, hpre⟩
    · exact ⟨_, Or.inr rfl, hpre⟩

/-- A word that ends a line and is the only one of its style. -/
theorem firstLine_of_word {T : List UInt8 → Prop} {e : List UInt8} (hT : ∀ e', T e' → e' = e)
    (hat : EndsAt T data n) (hfirst : ∀ i < n, ¬EndsAt T data i) :
    FirstLine T data (data.take n) (data.drop (n + e.length)) := by
  obtain ⟨e', he', hpre⟩ := hat
  obtain rfl := hT e' he'
  exact .of_found hfirst he' hpre fun e hshort _ => (congrArg List.length (hT e hshort)).le

theorem findIdx_first {p : UInt8 → Bool} (h : data.findIdx? p = some n) :
    (∃ b, data[n]? = some b ∧ p b) ∧ ∀ i < n, ∀ b, data[i]? = some b → ¬p b := by
  obtain ⟨hn, hp, hbefore⟩ := List.findIdx?_eq_some_iff_getElem.mp h
  refine ⟨⟨data[n], List.getElem?_eq_getElem hn, hp⟩, fun i hi b hb => ?_⟩
  obtain ⟨hlt, rfl⟩ := List.getElem?_eq_some_iff.mp hb
  exact hbefore i hi

theorem findIdx_none {p : UInt8 → Bool} (h : data.findIdx? p = none) {i : Nat} {b : UInt8}
    (hb : data[i]? = some b) : ¬p b := by
  have hfalse := List.findIdx?_eq_none_iff.mp h b (List.mem_of_getElem? hb)
  rw [hfalse]
  exact Bool.false_ne_true

theorem memchr_some {b : UInt8} (h : memchr b data = some n) :
    data[n]? = some b ∧ ∀ i < n, data[i]? ≠ some b := by
  obtain ⟨⟨c, hc, hcb⟩, hbefore⟩ := findIdx_first h
  obtain rfl := beq_iff_eq.mp hcb
  exact ⟨hc, fun i hi hb => hbefore i hi _ hb (beq_self_eq_true _)⟩

theorem memchr_none {b : UInt8} (h : memchr b data = none) (i : Nat) : data[i]? ≠ some b :=
  fun hb => findIdx_none h hb (beq_self_eq_true _)

theorem memmem_some {needle : List UInt8} (h : memmem needle data = some n) :
    EndsAt (· = needle) data n ∧ ∀ i < n, ¬EndsAt (· = needle) data i := by
  induction data generalizing n with
  | nil =>
    rw [memmem] at h
    split_ifs at h with hneedle
    obtain rfl := Option.some.inj h
    exact ⟨⟨needle, rfl, hneedle ▸ List.nil_prefix⟩, fun i hi => absurd hi (Nat.not_lt_zero i)⟩
  | cons b data ih =>
    rw [memmem] at h
    split_ifs at h with hpre
    · obtain rfl := Option.some.inj h
      exact ⟨⟨needle, rfl, List.isPrefixOf_iff_prefix.mp hpre⟩,
        fun i hi => absurd hi (Nat.not_lt_zero i)⟩
    · obtain ⟨m, hm, rfl⟩ := Option.map_eq_some_iff.mp h
      obtain ⟨hat, hbefore⟩ := ih hm
      refine ⟨hat, fun i hi => ?_⟩
      cases i with
      | zero =>
        rintro ⟨e, rfl, he⟩
        exact hpre (List.isPrefixOf_iff_prefix.mpr he)
      | succ i => exact hbefore i (Nat.lt_of_succ_lt_succ hi)

theorem memmem_none {needle : List UInt8} (h : memmem needle data = none) (i : Nat) :
    ¬EndsAt (· = needle) data i := by
  induction data generalizing i with
  | nil =>
    rintro ⟨e, rfl, he⟩
    rw [List.drop_nil, List.prefix_nil] at he
    rw [memmem, if_pos he] at h
    cases h
  | cons b data ih =>
    rw [memmem] at h
    split_ifs at h with hpre
    cases i with
    | zero =>
      rintro ⟨e, rfl, he⟩
      exact hpre (List.isPrefixOf_iff_prefix.mpr he)
    | succ i => exact ih (Option.map_eq_none_iff.mp h) i

theorem length_le_takeWhile {p : UInt8 → Bool} {e l : List UInt8} (he : ∀ b ∈ e, p b)
    (hpre : e <+: l) : e.length ≤ (l.takeWhile p).length := by
  obtain ⟨t, rfl⟩ := hpre
  rw [List.takeWhile_append_of_pos he, List.length_append]
  exact Nat.le_add_right ..

theorem firstLine_any (h : data.findIdx? isEol = some n) :
    FirstLine (Ending .any) data (data.take n)
      (data.drop (n + ((data.drop n).takeWhile isEol).length)) := by
  obtain ⟨⟨b, hb, heol⟩, hbefore⟩ := findIdx_first h
  refine .of_found ?_ ⟨?_, fun c hc => List.mem_takeWhile_imp hc⟩ (List.takeWhile_prefix _) ?_
  · intro i hi hat
    obtain ⟨c, hc, hceol⟩ := endsAt_any_iff.mp hat
    exact hbefore i hi c hc hceol
  · obtain ⟨hn, rfl⟩ := List.getElem?_eq_some_iff.mp hb
    rw [List.drop_eq_getElem_cons hn, List.takeWhile_cons_of_pos heol]
    exact List.cons_ne_nil _ _
  · exact fun e' he' hpre => length_le_takeWhile he'.2 hpre

/-- The line feed at `n` is the first, so a carriage return before it makes it an ending of two
bytes, and nothing ends a line earlier. -/
theorem firstLine_crlf (hn : data[n]? = some lf) (hbefore : ∀ i < n, data[i]? ≠ some lf) :
    if 0 < n ∧ data[n - 1]? = some cr then
      FirstLine (Ending .crlf) data (data.take (n - 1)) (data.drop (n - 1 + 2))
    else FirstLine (Ending .crlf) data (data.take n) (data.drop (n + 1)) := by
  split_ifs with hcr
  · have hpair : EndsAt (· = [cr, lf]) data (n - 1) := by
      rw [endsAt_pair_iff, Nat.sub_add_cancel hcr.1]
      exact ⟨hcr.2, hn⟩
    obtain ⟨e, rfl, hpre⟩ := hpair
    refine .of_found ?_ (Or.inl rfl) hpre ?_
    · intro i hi hat
      rcases endsAt_crlf_iff.mp hat with ⟨-, hlf⟩ | hlf
      · exact hbefore (i + 1) (by omega) hlf
      · exact hbefore i (by omega) hlf
    · rintro e' (rfl | rfl) -
      · exact le_rfl
      · exact Nat.le_succ 1
  · obtain ⟨e, rfl, hpre⟩ := endsAt_cons_iff.mpr hn
    refine .of_found ?_ (Or.inr rfl) hpre ?_
    · intro i hi hat
      rcases endsAt_crlf_iff.mp hat with ⟨hi', hlf⟩ | hlf
      · by_cases hlast : i + 1 = n
        · exact hcr ⟨by omega, by rwa [← hlast, Nat.add_sub_cancel]⟩
        · exact hbefore (i + 1) (by omega) hlf
      · exact hbefore i hi hlf
    · rintro e' (rfl | rfl) hpre'
      -- a line feed is not a carriage return
      · obtain ⟨hcr', -⟩ := endsAt_pair_iff.mp ⟨_, rfl, hpre'⟩
        rw [hn] at hcr'
        exact absurd (Option.some.inj hcr') (by decide)
      · exact le_rfl

theorem findEol_some {style : EolStyle} (h : findEol data style = some (n, k)) :
    FirstLine (Ending style) data (data.take n) (data.drop (n + k)) := by
  cases style with
  | any =>
    obtain ⟨pos, hpos, heq⟩ := Option.map_eq_some_iff.mp h
    obtain ⟨rfl, rfl⟩ := Prod.mk.inj heq
    exact firstLine_any hpos
  | crlf =>
    obtain ⟨pos, hpos, heq⟩ := Option.map_eq_some_iff.mp h
    obtain ⟨hat, hbefore⟩ := memchr_some hpos
    have hfirst := firstLine_crlf hat hbefore
    split_ifs at heq hfirst with hcr
    · obtain ⟨rfl, rfl⟩ := Prod.mk.inj heq
      exact hfirst
    · obtain ⟨rfl, rfl⟩ := Prod.mk.inj heq
      exact hfirst
  | crlfStrict =>
    obtain ⟨pos, hpos, heq⟩ := Option.map_eq_some_iff.mp h
    obtain ⟨rfl, rfl⟩ := Prod.mk.inj heq
    obtain ⟨hat, hbefore⟩ := memmem_some hpos
    exact firstLine_of_word (fun _ he => he) hat hbefore
  | lf =>
    obtain ⟨pos, hpos, heq⟩ := Option.map_eq_some_iff.mp h
    obtain ⟨rfl, rfl⟩ := Prod.mk.inj heq
    obtain ⟨hat, hbefore⟩ := memchr_some hpos
    exact firstLine_of_word (fun _ he => he) (endsAt_cons_iff.mpr hat)
      fun i hi hends => hbefore i hi (endsAt_cons_iff.mp hends)
  | nul =>
    obtain ⟨pos, hpos, heq⟩ := Option.map_eq_some_iff.mp h
    obtain ⟨rfl, rfl⟩ := Prod.mk.inj heq
    obtain ⟨hat, hbefore⟩ := memchr_some hpos
    exact firstLine_of_word (fun _ he => he) (endsAt_cons_iff.mpr hat)
      fun i hi hends => hbefore i hi (endsAt_cons_iff.mp hends)

theorem findEol_none {style : EolStyle} (h : findEol data style = none) (i : Nat) :
    ¬EndsAt (Ending style) data i := by
  intro hat
  cases style with
  | any =>
    obtain ⟨b, hb, heol⟩ := endsAt_any_iff.mp hat
    exact findIdx_none (Option.map_eq_none_iff.mp h) hb heol
  | crlf =>
    have hnone := memchr_none (Option.map_eq_none_iff.mp h)
    rcases endsAt_crlf_iff.mp hat with ⟨-, hlf⟩ | hlf
    · exact hnone (i + 1) hlf
    · exact hnone i hlf
  | crlfStrict => exact memmem_none (Option.map_eq_none_iff.mp h) i hat
  | lf => exact memchr_none (Option.map_eq_none_iff.mp h) i (endsAt_cons_iff.mp hat)
  | nul => exact memchr_none (Option.map_eq_none_iff.mp h) i (endsAt_cons_iff.mp hat)

theorem findEol_le {style : EolStyle} (h : findEol data style = some (n, k)) :
    n + k ≤ data.length := by
  cases style with
  | any =>
    obtain ⟨pos, hpos, heq⟩ := Option.map_eq_some_iff.mp h
    obtain ⟨rfl, rfl⟩ := Prod.mk.inj heq
    obtain ⟨⟨b, hb, -⟩, -⟩ := findIdx_first hpos
    have hlt := (List.getElem?_eq_some_iff.mp hb).1
    have hrun := (List.takeWhile_prefix (l := data.drop pos) isEol).length_le
    rw [List.length_drop] at hrun
    omega
  | crlf =>
    obtain ⟨pos, hpos, heq⟩ := Option.map_eq_some_iff.mp h
    have hlt := (List.getElem?_eq_some_iff.mp (memchr_some hpos).1).1
    split_ifs at heq with hcr
    · obtain ⟨rfl, rfl⟩ := Prod.mk.inj heq
      omega
    · obtain ⟨rfl, rfl⟩ := Prod.mk.inj heq
      exact hlt
  | crlfStrict =>
    obtain ⟨pos, hpos, heq⟩ := Option.map_eq_some_iff.mp h
    obtain ⟨rfl, rfl⟩ := Prod.mk.inj heq
    exact (List.getElem?_eq_some_iff.mp (endsAt_pair_iff.mp (memmem_some hpos).1).2).1
  | lf =>
    obtain ⟨pos, hpos, heq⟩ := Option.map_eq_some_iff.mp h
    obtain ⟨rfl, rfl⟩ := Prod.mk.inj heq
    exact (List.getElem?_eq_some_iff.mp (memchr_some hpos).1).1
  | nul =>
    obtain ⟨pos, hpos, heq⟩ := Option.map_eq_some_iff.mp h
    obtain ⟨rfl, rfl⟩ := Prod.mk.inj heq
    exact (List.getElem?_eq_some_iff.mp (memchr_some hpos).1).1

end Ztmux.EventLoop
