import Ztmux.Layout.Shape

/-!
Shapes with their last leaves taken out.

Taking out the bottom right leaf shortens its node by one, and a node left with one cell is replaced
by it. As long as the leaf is not the only cell of its node, what is left after some rounds is the
shape with its first leaves kept.
-/

namespace Ztmux.Layout

/-- No floating leaf and no empty node. -/
inductive Shape.Solid : Shape → Prop
  | leaf : Solid (.leaf false)
  | node {type : LayoutType} {cells : List Shape} : cells ≠ [] → (∀ c ∈ cells, Solid c) →
      Solid (.node type cells)

/-- A node with these cells, or the cell when there is only one. -/
def Shape.joined (type : LayoutType) : List Shape → Shape
  | [c] => c
  | cells => .node type cells

/-- The bottom right leaf is taken out. -/
inductive Shape.Closed : Shape → Shape → Prop
  | leaf {type : LayoutType} {floating : Bool} {cells : List Shape} : cells ≠ [] →
      Closed (.node type (cells ++ [.leaf floating])) (joined type cells)
  | within {type : LayoutType} {cells : List Shape} {s s' : Shape} : Closed s s' →
      Closed (.node type (cells ++ [s])) (.node type (cells ++ [s']))

/-- The bottom right leaf is the only cell of its node. -/
inductive Shape.Alone : Shape → Prop
  | leaf {type : LayoutType} {floating : Bool} : Alone (.node type [.leaf floating])
  | within {type : LayoutType} {cells : List Shape} {s : Shape} : Alone s →
      Alone (.node type (cells ++ [s]))

mutual

/-- Every node with only one cell has one of the first `n` leaves below it. -/
def Shape.OnlyKept : Nat → Shape → Prop
  | _, .leaf _ => True
  | n, .node _ cells => (cells.length = 1 → 0 < n) ∧ allOnlyKept n cells

def allOnlyKept : Nat → List Shape → Prop
  | _, [] => True
  | n, s :: ss => s.OnlyKept n ∧ allOnlyKept (n - s.leaves) ss

end

/-- What is left of a node that had `length` cells. -/
def Shape.regroup (type : LayoutType) (length : Nat) (cells : List Shape) : Shape :=
  if length = 1 then .node type cells else joined type cells

mutual

/-- The first `n` leaves are kept. -/
def Shape.keep : Nat → Shape → Shape
  | _, .leaf floating => .leaf floating
  | n, .node type cells => Shape.regroup type cells.length (keepAll n cells)

def keepAll : Nat → List Shape → List Shape
  | _, [] => []
  | n, s :: ss => if n = 0 then [] else s.keep n :: keepAll (n - s.leaves) ss

end

section

variable {type : LayoutType} {s s' : Shape} {cells : List Shape} {n : Nat}

theorem sumLeaves_append (cells cells' : List Shape) :
    sumLeaves (cells ++ cells') = sumLeaves cells + sumLeaves cells' := by
  rw [sumLeaves_eq_sum, sumLeaves_eq_sum, sumLeaves_eq_sum, List.map_append, List.sum_append]

theorem allOnlyKept_append (n : Nat) (cells cells' : List Shape) :
    allOnlyKept n (cells ++ cells') ↔ allOnlyKept n cells ∧
    allOnlyKept (n - sumLeaves cells) cells' := by
  induction cells generalizing n with
  | nil => simp [allOnlyKept, sumLeaves]
  | cons s cells ih =>
      rw [List.cons_append, allOnlyKept, allOnlyKept, ih, sumLeaves, Nat.sub_sub, and_assoc]

theorem keepAll_zero (cells : List Shape) : keepAll 0 cells = [] := by
  cases cells <;> simp [keepAll]

theorem keepAll_append (n : Nat) (cells cells' : List Shape) :
    keepAll n (cells ++ cells') = keepAll n cells ++ keepAll (n - sumLeaves cells) cells' := by
  induction cells generalizing n with
  | nil => simp [keepAll, sumLeaves]
  | cons s cells ih =>
      rw [List.cons_append, keepAll, keepAll]
      by_cases hn : n = 0
      · rw [if_pos hn, if_pos hn, hn, Nat.zero_sub, keepAll_zero, List.append_nil]
      · rw [if_neg hn, if_neg hn, ih, sumLeaves, Nat.sub_sub, List.cons_append]

theorem sumLeaves_concat (cells : List Shape) (s : Shape) :
    sumLeaves (cells ++ [s]) = sumLeaves cells + s.leaves :=
  sumLeaves_append cells [s]

theorem keepAll_singleton (hn : n ≠ 0) (s : Shape) : keepAll n [s] = [s.keep n] := by
  rw [keepAll, if_neg hn, keepAll]

/-! ### Taking out a leaf -/

namespace Shape

theorem Solid.ofNode (h : (Shape.node type cells).Solid) : cells ≠ [] ∧ ∀ c ∈ cells, c.Solid := by
  cases h with
  | node hne hcells => exact ⟨hne, hcells⟩

theorem Solid.leaves_pos (h : s.Solid) : 0 < s.leaves := by
  induction s with
  | leaf floating => exact Nat.one_pos
  | node type cells ih =>
      obtain ⟨hne, hcells⟩ := h.ofNode
      obtain ⟨c, hc⟩ := List.exists_mem_of_ne_nil cells hne
      rw [leaves_node]
      exact (ih c hc (hcells c hc)).trans_le (List.le_sum_of_mem (List.mem_map_of_mem hc))

theorem solid_joined (hne : cells ≠ []) (hcells : ∀ c ∈ cells, c.Solid) :
    (joined type cells).Solid := by
  match cells, hne with
  | [c], _ => exact hcells c (List.mem_singleton_self c)
  | c :: d :: cells, _ => exact .node (by simp) hcells

theorem leaves_joined (hne : cells ≠ []) : (joined type cells).leaves = sumLeaves cells := by
  match cells, hne with
  | [c], _ => rfl
  | c :: d :: cells, _ => rfl

theorem Closed.solid (h : Closed s s') (hs : s.Solid) : s'.Solid := by
  induction h with
  | leaf hne => exact solid_joined hne fun c hc => hs.ofNode.2 c (List.mem_append_left _ hc)
  | @within type cells s s' _ ih =>
      refine .node (by simp) fun c hc => ?_
      rcases List.mem_append.mp hc with hc | hc
      · exact hs.ofNode.2 c (List.mem_append_left _ hc)
      · rw [List.mem_singleton.mp hc]
        exact ih (hs.ofNode.2 s (List.mem_append_right _ (List.mem_singleton_self s)))

theorem Closed.leaves (h : Closed s s') : s'.leaves + 1 = s.leaves := by
  induction h with
  | leaf hne =>
      rw [leaves_joined hne, Shape.leaves, sumLeaves_append]
      rfl
  | within _ ih =>
      rw [Shape.leaves, Shape.leaves, sumLeaves_concat, sumLeaves_concat, ← ih]
      rfl

/-- Taking out a leaf that is not kept changes no node with one cell that has to be kept. -/
theorem Closed.onlyKept_iff (h : Closed s s') (hs : s.Solid) (hn : n < s.leaves) :
    s'.OnlyKept n ↔ s.OnlyKept n := by
  induction h generalizing n with
  | @leaf type floating cells hne =>
      have hlength : (cells ++ [Shape.leaf floating]).length ≠ 1 := by
        rw [List.length_append, List.length_singleton]
        have := List.length_pos_iff.mpr hne
        omega
      rw [OnlyKept, allOnlyKept_append, allOnlyKept, OnlyKept, allOnlyKept]
      match cells, hne with
      | [c], _ => simp [joined, allOnlyKept]
      | c :: d :: cells, _ => simp [joined, OnlyKept]
  | @within type cells s s' hclosed ih =>
      have hsolid := hs.ofNode.2 s (List.mem_append_right _ (List.mem_singleton_self s))
      rw [Shape.leaves, sumLeaves_concat] at hn
      have hpos := hsolid.leaves_pos
      rw [OnlyKept, OnlyKept, allOnlyKept_append, allOnlyKept_append, allOnlyKept, allOnlyKept,
        allOnlyKept, allOnlyKept, ih hsolid (by omega), List.length_append, List.length_append,
        List.length_singleton,
        List.length_singleton]

/-- A leaf that is alone and not kept is the only cell of a node that has to be kept. -/
theorem Alone.not_onlyKept (h : Alone s) (hn : n < s.leaves) : ¬ s.OnlyKept n := by
  induction h generalizing n with
  | leaf =>
      rw [OnlyKept]
      rintro ⟨hpos, -⟩
      exact absurd (hpos rfl) (Nat.lt_one_iff.mp hn).not_gt
  | @within type cells s halone ih =>
      rw [OnlyKept, allOnlyKept_append, allOnlyKept]
      rintro ⟨-, -, hkept, -⟩
      rw [Shape.leaves, sumLeaves_concat] at hn
      refine ih ?_ hkept
      have hpos : 0 < s.leaves := by
        clear ih hkept hn
        induction halone with
        | leaf => exact Nat.one_pos
        | within _ ih =>
            rw [Shape.leaves, sumLeaves_append, sumLeaves]
            omega
      omega

/-- Taking out a leaf that is not kept does not change what is kept. -/
theorem Closed.keep (h : Closed s s') (hpos : 0 < n) (hn : n < s.leaves) :
    s'.keep n = s.keep n := by
  induction h generalizing n with
  | @leaf type floating cells hne =>
      rw [Shape.leaves, sumLeaves_concat] at hn
      have hdrop : n - sumLeaves cells = 0 := by
        change n < sumLeaves cells + 1 at hn
        omega
      rw [Shape.keep, keepAll_append, hdrop, keepAll_zero, List.append_nil]
      rcases cells with _ | ⟨c, _ | ⟨d, cells⟩⟩
      · exact absurd rfl hne
      · simp [joined, regroup, keepAll, hpos.ne']
      · simp [joined, regroup, Shape.keep]
  | @within type cells s s' hclosed ih =>
      rw [Shape.leaves, sumLeaves_concat] at hn
      rw [Shape.keep, Shape.keep, keepAll_append, keepAll_append, List.length_append,
        List.length_append]
      by_cases hdrop : n - sumLeaves cells = 0
      · rw [hdrop, keepAll_zero, keepAll_zero]
        rfl
      · rw [keepAll_singleton hdrop, keepAll_singleton hdrop,
          ih (Nat.pos_of_ne_zero hdrop) (by omega)]
        rfl

theorem keepAll_of_le {cells : List Shape}
    (hcells : ∀ c ∈ cells, c.Solid ∧ ∀ n, c.leaves ≤ n → c.keep n = c) {n : Nat}
    (hn : sumLeaves cells ≤ n) : keepAll n cells = cells := by
  induction cells generalizing n with
  | nil => rfl
  | cons c cells ih =>
      obtain ⟨hsolid, hkeep⟩ := hcells c List.mem_cons_self
      have hpos := hsolid.leaves_pos
      rw [sumLeaves] at hn
      rw [keepAll, if_neg (by omega), hkeep n (by omega),
        ih (fun x hx => hcells x (List.mem_cons_of_mem _ hx)) (by omega)]

theorem allOnlyKept_of_le {cells : List Shape}
    (hcells : ∀ c ∈ cells, ∀ n, c.leaves ≤ n → c.OnlyKept n) {n : Nat}
    (hn : sumLeaves cells ≤ n) : allOnlyKept n cells := by
  induction cells generalizing n with
  | nil => trivial
  | cons c cells ih =>
      rw [sumLeaves] at hn
      exact ⟨hcells c List.mem_cons_self n (by omega),
        ih (fun x hx => hcells x (List.mem_cons_of_mem _ hx)) (by omega)⟩

theorem Solid.onlyKept_of_le (h : s.Solid) (hn : s.leaves ≤ n) : s.OnlyKept n := by
  induction s generalizing n with
  | leaf floating => trivial
  | node type cells ih =>
      have hcells := h.ofNode.2
      exact ⟨fun _ => h.leaves_pos.trans_le hn,
        allOnlyKept_of_le (fun c hc n hn => ih c hc (hcells c hc) hn) hn⟩

/-- Nothing is taken out when there are no more leaves. -/
theorem Solid.keep_of_le (h : s.Solid) (hn : s.leaves ≤ n) : s.keep n = s := by
  induction s generalizing n with
  | leaf floating => rfl
  | node type cells ih =>
      have hcells := h.ofNode.2
      rw [Shape.keep, keepAll_of_le
        (fun c hc => ⟨hcells c hc, fun n hn => ih c hc (hcells c hc) hn⟩) hn, regroup]
      split_ifs with hlength
      · rfl
      · match cells, hlength with
        | [], _ => rfl
        | c :: d :: cells, _ => rfl

end Shape

/-! ### Leaves that the nodes of a type do not divide -/

/-- No node of the type lies between the shape and some leaf. -/
inductive Shape.Exposed (type : LayoutType) : Shape → Prop
  | leaf {floating : Bool} : Exposed type (.leaf floating)
  | within {t : LayoutType} {cells : List Shape} {c : Shape} : t ≠ type → c ∈ cells →
      Exposed type c →
      Exposed type (.node t cells)

/-- Where a node has only one cell, each leaf below it has a node of that type nearer to it. -/
inductive Shape.Shared : Shape → Prop
  | leaf {floating : Bool} : Shared (.leaf floating)
  | node {type : LayoutType} {cells : List Shape} : (∀ c, cells = [c] → ¬ c.Exposed type) →
      (∀ c ∈ cells, Shared c) → Shared (.node type cells)

theorem Shape.Exposed.leaves_pos (h : s.Exposed type) : 0 < s.leaves := by
  induction h with
  | leaf => exact Nat.one_pos
  | within _ hc _ ih =>
      rw [leaves_node]
      exact ih.trans_le (List.le_sum_of_mem (List.mem_map_of_mem hc))

theorem Shape.shared_of_leaves_eq_zero (h : s.leaves = 0) : s.Shared := by
  induction s with
  | leaf floating => exact .leaf
  | node type cells ih =>
      rw [leaves_node, List.sum_eq_zero_iff] at h
      have hzero : ∀ c ∈ cells, c.leaves = 0 := fun c hc => h _ (List.mem_map_of_mem hc)
      refine .node (fun c hc hexposed => ?_) fun c hc => ih c hc (hzero c hc)
      exact hexposed.leaves_pos.ne' (hzero c (hc ▸ List.mem_singleton_self c))

theorem Shape.shared_keep_zero (s : Shape) : (s.keep 0).Shared := by
  cases s with
  | leaf floating => exact .leaf
  | node type cells =>
      have hempty : (Shape.node type []).Shared := shared_of_leaves_eq_zero rfl
      rw [Shape.keep, keepAll_zero, regroup]
      split_ifs
      · exact hempty
      · exact hempty

end

end Ztmux.Layout
