import Ztmux.Layout.Exact
import Ztmux.Layout.Offsets

/-!
The rectangles of a layout, and which border a point is on.

Offsets and sizes are 32-bit; the rectangles are read in natural numbers. With its offsets
fixed, a layout without floating panes is `Placed`: the children of a node follow each other
at a distance of one and end where the node ends.
-/

namespace Ztmux.Layout

open LayoutCell

structure Point where
  x : UInt32
  y : UInt32
  deriving DecidableEq, Repr

def Point.coord (p : Point) : LayoutType → UInt32
  | .leftright => p.x
  | .topbottom => p.y

namespace Geometry

/-- The offset along one direction, as it is compared with a coordinate. -/
def off (g : Geometry) : LayoutType → UInt32
  | .leftright => g.xoff.toUInt32
  | .topbottom => g.yoff.toUInt32

/-- Where a cell ends. -/
def stop (g : Geometry) (t : LayoutType) : Nat := (g.off t).toNat + (g.size t).toNat

def Contains (g : Geometry) (p : Point) : Prop :=
  ∀ t, (g.off t).toNat ≤ (p.coord t).toNat ∧ (p.coord t).toNat < g.stop t

/-- The rectangle lies in another. -/
def Inside (g g' : Geometry) : Prop :=
  ∀ t, (g'.off t).toNat ≤ (g.off t).toNat ∧ g.stop t ≤ g'.stop t

end Geometry

/-! ### The search -/

/-- Whether the point is inside the cell. -/
def insideCell (g : Geometry) (p : Point) : Bool :=
  g.xoff.toUInt32 ≤ p.x && p.x < g.xoff.toUInt32 + g.sx && g.yoff.toUInt32 ≤ p.y &&
    p.y < g.yoff.toUInt32 + g.sy

/-- Whether the point is behind `last` and before the next child. -/
def onBorder (t : LayoutType) (last next : Geometry) (p : Point) : Bool :=
  match t with
  | .leftright => p.x < next.xoff.toUInt32 && last.xoff.toUInt32 + last.sx ≤ p.x
  | .topbottom => p.y < next.yoff.toUInt32 && last.yoff.toUInt32 + last.sy ≤ p.y

mutual

/-- The path to the cell whose border the point is on. -/
def layoutSearchByBorder (p : Point) : LayoutCell → Option (List Nat)
  | .windowpane _ _ _ => none
  | .node t _ cells => searchCells p t none 0 cells

/-- The children from number `i` on, the one before them in `last`. -/
def searchCells (p : Point) (t : LayoutType) : Option LayoutCell → Nat → List LayoutCell →
    Option (List Nat)
  | _, _, [] => none
  | last, i, lcchild :: cells =>
      if insideCell lcchild.geometry p then
        (layoutSearchByBorder p lcchild).map (i :: ·)
      else
        match last with
        | none => searchCells p t (some lcchild) (i + 1) cells
        | some lc =>
            if onBorder t lc.geometry lcchild.geometry p then some [i - 1]
            else searchCells p t (some lcchild) (i + 1) cells

end

/-! ### Children one after another -/

/-- Cells along `t` from offset `o` on, with one between each and the next, the last of which is
before `o'`. -/
def Follows (t : LayoutType) : Nat → List LayoutCell → Nat → Prop
  | o, [], o' => o = o'
  | o, c :: cs, o' => (c.geometry.off t).toNat = o ∧ Follows t (o + (c.size t).toNat + 1) cs o'

/-- Every node is filled by its children, which do not overlap. -/
inductive Placed : LayoutCell → Prop
  | windowpane {wp : Option Nat} {g : Geometry} : (∀ t, g.stop t < 2 ^ 32) →
      Placed (.windowpane false wp g)
  | node {t : LayoutType} {g : Geometry} {cells : List LayoutCell} : (∀ t, g.stop t < 2 ^ 32) →
      (∀ c ∈ cells, Placed c) →
      (∀ c ∈ cells, c.size t.across = g.size t.across ∧
        c.geometry.off t.across = g.off t.across) →
      Follows t (g.off t).toNat cells (g.stop t + 1) → Placed (.node t g cells)

variable {t : LayoutType}

theorem Placed.stop_lt {c : LayoutCell} (h : Placed c) (type : LayoutType) :
    c.geometry.stop type < 2 ^ 32 := by
  cases h with
  | windowpane hstop => exact hstop type
  | node hstop => exact hstop type

theorem Follows.le {o o' : Nat} {cells : List LayoutCell} (h : Follows t o cells o') : o ≤ o' := by
  induction cells generalizing o with
  | nil => exact Nat.le_of_eq h
  | cons c cs ih =>
      have := ih h.2
      omega

theorem Follows.mem {o o' : Nat} {cells : List LayoutCell} (h : Follows t o cells o')
    {c : LayoutCell} (hc : c ∈ cells) :
    o ≤ (c.geometry.off t).toNat ∧ c.geometry.stop t < o' := by
  induction cells generalizing o with
  | nil => cases hc
  | cons d ds ih =>
      obtain ⟨hd, hds⟩ := h
      rcases List.mem_cons.mp hc with rfl | hc
      · have := hds.le
        rw [Geometry.stop, ← size]
        omega
      · obtain ⟨hle, hlt⟩ := ih hds hc
        exact ⟨by omega, hlt⟩

theorem Follows.pairwise {o o' : Nat} {cells : List LayoutCell} (h : Follows t o cells o') :
    cells.Pairwise fun c d => c.geometry.stop t < (d.geometry.off t).toNat := by
  induction cells generalizing o with
  | nil => exact .nil
  | cons c cs ih =>
      obtain ⟨hc, hcs⟩ := h
      refine .cons (fun d hd => ?_) (ih hcs)
      have := (hcs.mem hd).1
      rw [Geometry.stop, ← size]
      omega

/-- A coordinate in the range is on one of the cells or between one and the next. -/
theorem Follows.cases_coord {o o' n : Nat} {cells : List LayoutCell} (h : Follows t o cells o')
    (hle : o ≤ n) (hlt : n + 1 < o') :
    ∃ pre c post, cells = pre ++ c :: post ∧ (∀ d ∈ pre, d.geometry.stop t ≤ n) ∧
      (c.geometry.off t).toNat ≤ n ∧ (n < c.geometry.stop t ∨
        n = c.geometry.stop t ∧ ∃ d ds, post = d :: ds ∧ (d.geometry.off t).toNat = n + 1) := by
  induction cells generalizing o with
  | nil =>
      rw [Follows] at h
      omega
  | cons c cs ih =>
      obtain ⟨hc, hcs⟩ := h
      have hstop : c.geometry.stop t = o + (c.size t).toNat := by
        rw [Geometry.stop, hc]
        rfl
      rcases Nat.lt_trichotomy n (c.geometry.stop t) with hn | hn | hn
      · exact ⟨[], c, cs, rfl, fun d hd => (List.not_mem_nil hd).elim, by omega, .inl hn⟩
      · refine ⟨[], c, cs, rfl, fun d hd => (List.not_mem_nil hd).elim, by omega, .inr ⟨hn, ?_⟩⟩
        cases cs with
        | nil =>
            rw [Follows] at hcs
            omega
        | cons d ds => exact ⟨d, ds, rfl, by rw [hcs.1]; omega⟩
      · obtain ⟨pre, d, post, rfl, hpre, hd⟩ := ih hcs (by omega)
        refine ⟨c :: pre, d, post, rfl, ?_, hd⟩
        rw [List.forall_mem_cons]
        exact ⟨hn.le, hpre⟩

/-! ### Fixing the offsets places the cells -/

/-- The offset along one direction. -/
def offOf (xoff yoff : Int32) : LayoutType → UInt32
  | .leftright => xoff.toUInt32
  | .topbottom => yoff.toUInt32

theorem off_layoutFixOffsets1 (xoff yoff : Int32) (c : LayoutCell) (type : LayoutType) :
    (layoutFixOffsets1 xoff yoff c).geometry.off type = offOf xoff yoff type ∧
      (layoutFixOffsets1 xoff yoff c).size type = c.size type := by
  cases c <;> cases type <;> exact ⟨rfl, rfl⟩

theorem offOf_nextOffset_across (size : UInt32) (xoff yoff : Int32) :
    offOf (nextOffset t size xoff yoff).1 (nextOffset t size xoff yoff).2 t.across =
      offOf xoff yoff t.across := by
  cases t <;> rfl

/-- The offset of the next cell, where it does not wrap around. -/
theorem offOf_nextOffset {size : UInt32} {xoff yoff : Int32}
    (hlt : (offOf xoff yoff t).toNat + size.toNat + 1 < 2 ^ 32) :
    (offOf (nextOffset t size xoff yoff).1 (nextOffset t size xoff yoff).2 t).toNat =
      (offOf xoff yoff t).toNat + size.toNat + 1 := by
  have hadd : ∀ off : Int32, off.toUInt32.toNat + size.toNat + 1 < 2 ^ 32 →
      (off + (size + 1).toInt32).toUInt32.toNat = off.toUInt32.toNat + size.toNat + 1 := by
    intro off hoff
    have h1 : (1 : UInt32).toNat = 1 := rfl
    rw [Int32.toUInt32_add, UInt32.toUInt32_toInt32, UInt32.toNat_add, UInt32.toNat_add, h1]
    omega
  cases t with
  | leftright => exact hadd xoff hlt
  | topbottom => exact hadd yoff hlt

/-- The children that are left, the next one at offset `o`. -/
theorem fixOffsetsFrom_placed {across : UInt32} {cs : List LayoutCell} {xoff yoff : Int32} {o : Nat}
    (h : ∀ c ∈ cs, inFlow c ∧ c.size t.across = across ∧ ∀ xoff yoff,
      (∀ type, (offOf xoff yoff type).toNat + (c.size type).toNat < 2 ^ 32) →
        Placed (layoutFixOffsets1 xoff yoff c))
    (ho : cs ≠ [] → (offOf xoff yoff t).toNat = o)
    (hlt : o + (cs.map fun c => (c.size t).toNat + 1).sum ≤ 2 ^ 32)
    (hacross : (offOf xoff yoff t.across).toNat + across.toNat < 2 ^ 32) :
    (∀ c ∈ fixOffsetsFrom t xoff yoff cs, Placed c) ∧
      (∀ c ∈ fixOffsetsFrom t xoff yoff cs, c.size t.across = across ∧
        c.geometry.off t.across = offOf xoff yoff t.across) ∧
      Follows t o (fixOffsetsFrom t xoff yoff cs)
        (o + (cs.map fun c => (c.size t).toNat + 1).sum) := by
  induction cs generalizing xoff yoff o with
  | nil =>
      exact ⟨fun c hc => (List.not_mem_nil hc).elim, fun c hc => (List.not_mem_nil hc).elim, rfl⟩
  | cons c cs ih =>
      obtain ⟨⟨hflow, hsize, hplaced⟩, hcs⟩ := List.forall_mem_cons.mp h
      have hoff := ho (List.cons_ne_nil _ _)
      rw [List.map_cons, List.sum_cons] at hlt ⊢
      have hpos : cs ≠ [] → 1 ≤ (cs.map fun c => (c.size t).toNat + 1).sum := by
        intro hne
        obtain ⟨d, ds, rfl⟩ := List.exists_cons_of_ne_nil hne
        rw [List.map_cons, List.sum_cons]
        omega
      have hnext := offOf_nextOffset_across (t := t) (c.size t) xoff yoff
      obtain ⟨hplacedcs, hacrosscs, hfollows⟩ := ih hcs (o := o + (c.size t).toNat + 1)
        (fun hne => by
          have hrest := hpos hne
          rw [← hoff]
          exact offOf_nextOffset (by omega)) (by omega) (by rwa [hnext])
      rw [hnext] at hacrosscs
      have hc : Placed (layoutFixOffsets1 xoff yoff c) := by
        refine hplaced xoff yoff fun type => ?_
        by_cases htype : t = type
        · subst htype
          omega
        · rw [LayoutType.eq_across_of_ne htype, hsize]
          exact hacross
      have hgeo := off_layoutFixOffsets1 xoff yoff c
      rw [fixOffsetsFrom, if_pos hflow, List.forall_mem_cons, List.forall_mem_cons]
      refine ⟨⟨hc, hplacedcs⟩, ⟨⟨by rw [(hgeo _).2, hsize], (hgeo _).1⟩, hacrosscs⟩,
        by rw [(hgeo t).1, hoff], ?_⟩
      rw [(hgeo t).2]
      have hsum : o + ((c.size t).toNat + 1 + (cs.map fun c => (c.size t).toNat + 1).sum) =
          o + (c.size t).toNat + 1 + (cs.map fun c => (c.size t).toNat + 1).sum := by omega
      rw [hsum]
      exact hfollows

theorem layoutFixOffsets1_placed {c : LayoutCell} (hsolid : Solid c) (hexact : FlowExact 0 c)
    (xoff yoff : Int32)
    (hlt : ∀ type, (offOf xoff yoff type).toNat + (c.size type).toNat < 2 ^ 32) :
    Placed (layoutFixOffsets1 xoff yoff c) := by
  induction c generalizing xoff yoff with
  | windowpane floating wp g =>
      cases hsolid
      refine .windowpane fun type => ?_
      cases type with
      | leftright => exact hlt .leftright
      | topbottom => exact hlt .topbottom
  | node t g cells ih =>
      have hany := hsolid.inFlow
      rw [inFlow_node] at hany
      cases hsolid with
      | node hne hsolid =>
          cases hexact with
          | node hexact hfill =>
              obtain ⟨hacross, halong⟩ := hfill hany
              rw [extent_of_inFlow fun c hc => (hsolid c hc).inFlow] at halong
              have hbound := hlt t
              rw [size_node] at hbound
              obtain ⟨hplaced, hsides, hfollows⟩ := @fixOffsetsFrom_placed t _ cells xoff yoff
                (offOf xoff yoff t).toNat
                (fun c hc => ⟨(hsolid c hc).inFlow, hacross c hc (hsolid c hc).inFlow,
                  fun xoff yoff => ih c hc (hsolid c hc) (hexact c hc) xoff yoff⟩)
                (fun _ => rfl) (by omega) (hlt t.across)
              have hgeo := off_layoutFixOffsets1 xoff yoff (.node t g cells)
              rw [layoutFixOffsets1] at hgeo ⊢
              refine .node (fun type => ?_) hplaced (fun c hc => ?_) ?_
              · have htype := hlt type
                rw [← (hgeo type).1, ← (hgeo type).2] at htype
                exact htype
              · rw [(hsides c hc).1, (hsides c hc).2]
                exact ⟨(hgeo t.across).2.symm, (hgeo t.across).1.symm⟩
              · have hoff : ({ g with xoff := xoff, yoff := yoff } : Geometry).off t =
                    offOf xoff yoff t := (hgeo t).1
                have hsize : ({ g with xoff := xoff, yoff := yoff } : Geometry).size t = g.size t :=
                  (hgeo t).2
                rw [halong] at hfollows
                rw [Geometry.stop, hoff, hsize, Nat.add_assoc]
                exact hfollows

/-- From the root the cells are placed. -/
theorem layoutFixOffsets_placed {root : LayoutCell} (hsolid : Solid root)
    (hexact : FlowExact 0 root) : Placed (layoutFixOffsets root) := by
  refine layoutFixOffsets1_placed hsolid hexact 0 0 fun type => ?_
  have hzero : (offOf 0 0 type).toNat = 0 := by cases type <;> rfl
  rw [hzero, Nat.zero_add]
  exact (root.size type).toNat_lt

/-! ### The leaves -/

mutual

/-- The geometries of the leaves, in order. -/
def leafGeometries : LayoutCell → List Geometry
  | .windowpane _ _ g => [g]
  | .node _ _ cells => geometriesOf cells

def geometriesOf : List LayoutCell → List Geometry
  | [] => []
  | c :: cs => leafGeometries c ++ geometriesOf cs

end

theorem leafGeometries_node (t : LayoutType) (g : Geometry) (cells : List LayoutCell) :
    leafGeometries (.node t g cells) = cells.flatMap leafGeometries := by
  rw [leafGeometries]
  induction cells with
  | nil => rfl
  | cons c cs ih => rw [geometriesOf, ih, List.flatMap_cons]

theorem Geometry.inside_of_mem {g : Geometry} {cells : List LayoutCell} {c : LayoutCell}
    (hsides : ∀ c ∈ cells, c.size t.across = g.size t.across ∧
      c.geometry.off t.across = g.off t.across)
    (hfollows : Follows t (g.off t).toNat cells (g.stop t + 1)) (hc : c ∈ cells) :
    c.geometry.Inside g := by
  intro type
  by_cases htype : t = type
  · subst htype
    obtain ⟨hle, hlt⟩ := hfollows.mem hc
    exact ⟨hle, Nat.le_of_lt_succ hlt⟩
  · obtain rfl := LayoutType.eq_across_of_ne htype
    obtain ⟨hsize, hoff⟩ := hsides c hc
    change c.geometry.size t.across = g.size t.across at hsize
    rw [Geometry.stop, Geometry.stop, hoff, hsize]
    exact ⟨le_rfl, le_rfl⟩

theorem Placed.leaf_inside {c : LayoutCell} (h : Placed c) {g : Geometry}
    (hg : g ∈ leafGeometries c) : g.Inside c.geometry := by
  induction c with
  | windowpane floating wp g' =>
      obtain rfl := List.mem_singleton.mp hg
      exact fun t => ⟨le_rfl, le_rfl⟩
  | node t g' cells ih =>
      cases h with
      | node hstop hplaced hsides hfollows =>
          rw [leafGeometries_node] at hg
          obtain ⟨c, hc, hg⟩ := List.mem_flatMap.mp hg
          intro type
          obtain ⟨hoff, hle⟩ := ih c hc (hplaced c hc) hg type
          obtain ⟨hoff', hle'⟩ := Geometry.inside_of_mem hsides hfollows hc type
          exact ⟨hoff'.trans hoff, hle.trans hle'⟩

/-- No point is in two leaves. -/
theorem Placed.pairwise {c : LayoutCell} (h : Placed c) :
    (leafGeometries c).Pairwise fun g g' => ∀ p, ¬ (g.Contains p ∧ g'.Contains p) := by
  induction c with
  | windowpane floating wp g => exact List.pairwise_singleton _ _
  | node t g cells ih =>
      cases h with
      | node hstop hplaced hsides hfollows =>
          rw [leafGeometries_node, List.pairwise_flatMap]
          refine ⟨fun c hc => ih c hc (hplaced c hc), ?_⟩
          refine (hfollows.pairwise.imp_of_mem ?_)
          rintro a b ha hb hlt x hx y hy p ⟨hxp, hyp⟩
          have hxa := (hplaced a ha).leaf_inside hx t
          have hyb := (hplaced b hb).leaf_inside hy t
          have hxp := hxp t
          have hyp := hyp t
          omega

/-! ### What the search finds -/

/-- The point is inside `root` on the border behind the cell at the path: the cell and the next
child of the same node are one apart along the direction of the node, and the point is there. -/
def OnGap (root : LayoutCell) (p : Point) (path : List Nat) : Prop :=
  ∃ init i t g cells a b, path = init ++ [i] ∧ cellAt init root = some (.node t g cells) ∧
    cells[i]? = some a ∧ cells[i + 1]? = some b ∧ g.Contains p ∧
    (p.coord t).toNat = a.geometry.stop t ∧ (b.geometry.off t).toNat = a.geometry.stop t + 1

theorem OnGap.child {t : LayoutType} {g : Geometry} {cells : List LayoutCell} {i : Nat}
    {c : LayoutCell} {p : Point} {path : List Nat} (hi : cells[i]? = some c) (h : OnGap c p path) :
    OnGap (.node t g cells) p (i :: path) := by
  obtain ⟨init, j, t', g', cells', a, b, rfl, hat, hgap⟩ := h
  refine ⟨i :: init, j, t', g', cells', a, b, rfl, ?_, hgap⟩
  rw [cellAt, hi]
  exact hat

theorem insideCell_iff {g : Geometry} (h : ∀ t, g.stop t < 2 ^ 32) (p : Point) :
    insideCell g p ↔ g.Contains p := by
  have hx := h .leftright
  have hy := h .topbottom
  have hall : g.Contains p ↔ (((g.off .leftright).toNat ≤ (p.coord .leftright).toNat ∧
      (p.coord .leftright).toNat < g.stop .leftright) ∧
      ((g.off .topbottom).toNat ≤ (p.coord .topbottom).toNat ∧
        (p.coord .topbottom).toNat < g.stop .topbottom)) :=
    ⟨fun hp => ⟨hp .leftright, hp .topbottom⟩, fun hp t => by cases t; exacts [hp.1, hp.2]⟩
  have hadd : ∀ a b : UInt32, a.toNat + b.toNat < 2 ^ 32 → (a + b).toNat = a.toNat + b.toNat := by
    intro a b hab
    rw [UInt32.toNat_add, Nat.mod_eq_of_lt hab]
  rw [insideCell, hall]
  simp only [Bool.and_eq_true, decide_eq_true_eq, UInt32.le_iff_toNat_le, UInt32.lt_iff_toNat_lt]
  rw [hadd g.xoff.toUInt32 g.sx hx, hadd g.yoff.toUInt32 g.sy hy]
  exact and_assoc

theorem onBorder_iff {last next : Geometry} (h : last.stop t < 2 ^ 32) (p : Point) :
    onBorder t last next p ↔
      (p.coord t).toNat < (next.off t).toNat ∧ last.stop t ≤ (p.coord t).toNat := by
  have hadd : ∀ a b : UInt32, a.toNat + b.toNat < 2 ^ 32 → (a + b).toNat = a.toNat + b.toNat := by
    intro a b hab
    rw [UInt32.toNat_add, Nat.mod_eq_of_lt hab]
  cases t with
  | leftright =>
      rw [onBorder, Bool.and_eq_true, decide_eq_true_eq, decide_eq_true_eq,
        UInt32.lt_iff_toNat_lt, UInt32.le_iff_toNat_le, hadd last.xoff.toUInt32 last.sx h]
      rfl
  | topbottom =>
      rw [onBorder, Bool.and_eq_true, decide_eq_true_eq, decide_eq_true_eq,
        UInt32.lt_iff_toNat_lt, UInt32.le_iff_toNat_le, hadd last.yoff.toUInt32 last.sy h]
      rfl

theorem searchCells_skip {p : Point} {pre rest : List LayoutCell} {last : Option LayoutCell}
    {i : Nat} (h : ∀ c ∈ pre, insideCell c.geometry p = false ∧
      ∀ lc : LayoutCell, onBorder t lc.geometry c.geometry p = false) :
    searchCells p t last i (pre ++ rest) =
      searchCells p t (pre.getLast?.or last) (i + pre.length) rest := by
  induction pre generalizing last i with
  | nil => rfl
  | cons c pre ih =>
      obtain ⟨⟨hinside, hborder⟩, hpre⟩ := List.forall_mem_cons.mp h
      have hlast : (c :: pre).getLast?.or last = pre.getLast?.or (some c) := by
        rw [List.getLast?_cons]
        cases pre.getLast? <;> rfl
      have hlen : i + (c :: pre).length = i + 1 + pre.length := by
        rw [List.length_cons]
        omega
      rw [List.cons_append, hlast, hlen, ← ih hpre]
      cases last with
      | none => rw [searchCells, hinside, if_neg Bool.false_ne_true]
      | some lc =>
          rw [searchCells, hinside, if_neg Bool.false_ne_true, hborder lc,
            if_neg Bool.false_ne_true]

theorem onBorder_of_le {last next : Geometry} {p : Point}
    (h : (next.off t).toNat ≤ (p.coord t).toNat) : onBorder t last next p = false := by
  cases t with
  | leftright =>
      have hnot : ¬ p.x < next.xoff.toUInt32 := UInt32.not_lt.mpr h
      rw [onBorder, decide_eq_false hnot, Bool.false_and]
  | topbottom =>
      have hnot : ¬ p.y < next.yoff.toUInt32 := UInt32.not_lt.mpr h
      rw [onBorder, decide_eq_false hnot, Bool.false_and]

theorem searchCells_inside {p : Point} {c : LayoutCell} (h : insideCell c.geometry p)
    (last : Option LayoutCell) (i : Nat) (cells : List LayoutCell) :
    searchCells p t last i (c :: cells) = (layoutSearchByBorder p c).map (i :: ·) := by
  cases last with
  | none => rw [searchCells, if_pos h]
  | some lc => rw [searchCells, if_pos h]

/-- A leaf of a node that contains a point is below the child there. -/
theorem exists_leaf_iff {g : Geometry} {pre post : List LayoutCell} {c : LayoutCell} {p : Point}
    (hplaced : ∀ d ∈ pre ++ c :: post, Placed d)
    (hfollows : Follows t (g.off t).toNat (pre ++ c :: post) (g.stop t + 1))
    (hpre : ∀ d ∈ pre, d.geometry.stop t ≤ (p.coord t).toNat)
    (hc : (p.coord t).toNat ≤ c.geometry.stop t) :
    (∃ x ∈ leafGeometries (.node t g (pre ++ c :: post)), x.Contains p) ↔
      ∃ x ∈ leafGeometries c, x.Contains p := by
  rw [leafGeometries_node]
  constructor
  · rintro ⟨x, hx, hxp⟩
    obtain ⟨d, hd, hxd⟩ := List.mem_flatMap.mp hx
    have hin := (hplaced d hd).leaf_inside hxd t
    have hcoord := hxp t
    rcases List.mem_append.mp hd with hmem | hmem
    · have := hpre d hmem
      omega
    · rcases List.mem_cons.mp hmem with rfl | hmem
      · exact ⟨x, hxd, hxp⟩
      · have hpair := (List.pairwise_append.mp hfollows.pairwise).2.1
        have := (List.pairwise_cons.mp hpair).1 d hmem
        omega
  · rintro ⟨x, hx, hxp⟩
    exact ⟨x, List.mem_flatMap.mpr ⟨c, by simp, hx⟩, hxp⟩

/-- In a placed cell the search finds nothing where a leaf is, and a border elsewhere. -/
theorem Placed.search {c : LayoutCell} (h : Placed c) {p : Point} (hp : c.geometry.Contains p) :
    (layoutSearchByBorder p c = none ↔ ∃ g ∈ leafGeometries c, g.Contains p) ∧
      ∀ path, layoutSearchByBorder p c = some path → OnGap c p path := by
  induction c with
  | windowpane floating wp g =>
      refine ⟨iff_of_true rfl ⟨g, List.mem_singleton_self g, hp⟩, fun path hpath => ?_⟩
      cases hpath
  | node t g cells ih =>
      cases h with
      | node hstop hplaced hsides hfollows =>
          have hcoord := hp t
          obtain ⟨pre, c, post, rfl, hpre, hoff, hcases⟩ :=
            hfollows.cases_coord hcoord.1 (by have := hcoord.2; exact Nat.succ_lt_succ this)
          have hc : c ∈ pre ++ c :: post := by simp
          have hskip : layoutSearchByBorder p (.node t g (pre ++ c :: post)) =
              searchCells p t pre.getLast? pre.length (c :: post) := by
            rw [layoutSearchByBorder, searchCells_skip, Option.or_none, Nat.zero_add]
            intro d hd
            have hdp := hplaced d (List.mem_append_left _ hd)
            have hstopd := hpre d hd
            refine ⟨?_, fun lc => onBorder_of_le ?_⟩
            · rw [← Bool.not_eq_true, insideCell_iff hdp.stop_lt]
              exact fun hin => absurd (hin t).2 (not_lt.mpr hstopd)
            · rw [Geometry.stop] at hstopd
              omega
          rcases hcases with hlt | ⟨heq, d, ds, rfl, hd⟩
          · -- the point is in the range of a child, and so inside the child
            have hin : c.geometry.Contains p := by
              intro type
              by_cases htype : t = type
              · subst htype
                exact ⟨hoff, hlt⟩
              · obtain rfl := LayoutType.eq_across_of_ne htype
                obtain ⟨hsize, hoffc⟩ := hsides c hc
                change c.geometry.size t.across = g.size t.across at hsize
                rw [Geometry.stop, hoffc, hsize]
                exact hp t.across
            obtain ⟨hnone, hsome⟩ := ih c hc (hplaced c hc) hin
            rw [hskip, searchCells_inside ((insideCell_iff (hplaced c hc).stop_lt p).mpr hin),
              exists_leaf_iff hplaced hfollows hpre hlt.le, ← hnone, Option.map_eq_none_iff]
            refine ⟨Iff.rfl, fun path hpath => ?_⟩
            obtain ⟨rest, hrest, rfl⟩ := Option.map_eq_some_iff.mp hpath
            exact (hsome rest hrest).child (by simp)
          · -- it is between the child and the next one
            have hnot : ∀ {e : LayoutCell}, e ∈ pre ++ c :: d :: ds →
                ((p.coord t).toNat < (e.geometry.off t).toNat ∨
                  e.geometry.stop t ≤ (p.coord t).toNat) →
                insideCell e.geometry p = false := by
              intro e he hout
              rw [← Bool.not_eq_true, insideCell_iff (hplaced e he).stop_lt]
              intro hin
              have := hin t
              omega
            have hborder : onBorder t c.geometry d.geometry p := by
              rw [onBorder_iff ((hplaced c hc).stop_lt t)]
              omega
            have hfound : layoutSearchByBorder p (.node t g (pre ++ c :: d :: ds)) =
                some [pre.length] := by
              rw [hskip]
              cases pre.getLast? with
              | none =>
                  rw [searchCells, hnot hc (.inr heq.ge), if_neg Bool.false_ne_true, searchCells,
                    hnot (by simp) (.inl (by omega)), if_neg Bool.false_ne_true, if_pos hborder]
                  rfl
              | some lc =>
                  rw [searchCells, hnot hc (.inr heq.ge), if_neg Bool.false_ne_true,
                    onBorder_of_le hoff, if_neg Bool.false_ne_true, searchCells,
                    hnot (by simp) (.inl (by omega)), if_neg Bool.false_ne_true, if_pos hborder]
                  rfl
            rw [exists_leaf_iff hplaced hfollows hpre heq.le, hfound]
            refine ⟨iff_of_false (by simp) ?_, fun path hpath => ?_⟩
            · rintro ⟨x, hx, hxp⟩
              have hinside := (hplaced c hc).leaf_inside hx t
              have := hxp t
              omega
            · obtain rfl := Option.some.inj hpath
              exact ⟨[], pre.length, t, g, _, c, d, rfl, rfl, by simp, by simp, hp, heq,
                by rw [hd, heq]⟩

/-- In a layout of tiled panes that is accepted without wrapping around, fixing the offsets
separates the panes inside the root, and a point of the root that no pane contains is on the
border that the search finds. -/
theorem layoutSearchByBorder_iff (root : LayoutCell) (hfloat : FloatFree root)
    (hcheck : layoutCheck root) (hwrap : NoWrap root) :
    ((leafGeometries (layoutFixOffsets root)).Pairwise fun g g' =>
        ∀ p, ¬ (g.Contains p ∧ g'.Contains p)) ∧
      (∀ g ∈ leafGeometries (layoutFixOffsets root),
        g.Inside (layoutFixOffsets root).geometry) ∧
      ∀ p, (layoutFixOffsets root).geometry.Contains p →
        (layoutSearchByBorder p (layoutFixOffsets root) ≠ none ↔
          ¬ ∃ g ∈ leafGeometries (layoutFixOffsets root), g.Contains p) ∧
        ∀ path, layoutSearchByBorder p (layoutFixOffsets root) = some path →
          OnGap (layoutFixOffsets root) p path := by
  have hsolid := hfloat.solid hwrap
  have hplaced := layoutFixOffsets_placed hsolid (flowExact_of_layoutCheck hsolid hwrap hcheck)
  refine ⟨hplaced.pairwise, fun g hg => hplaced.leaf_inside hg, fun p hp => ?_⟩
  obtain ⟨hnone, hsome⟩ := hplaced.search hp
  exact ⟨not_congr hnone, hsome⟩

/-- Two rows of two panes. -/
def fourPanes : LayoutCell :=
  .node .topbottom ⟨5, 3, 0, 0⟩
    [.node .leftright ⟨5, 1, 0, 0⟩
      [.windowpane false (some 0) ⟨2, 1, 0, 0⟩, .windowpane false (some 1) ⟨2, 1, 0, 0⟩],
    .node .leftright ⟨5, 1, 0, 0⟩
      [.windowpane false (some 2) ⟨2, 1, 0, 0⟩, .windowpane false (some 3) ⟨2, 1, 0, 0⟩]]

theorem fourPanes_floatFree : FloatFree fourPanes := by
  refine .node fun c hc => ?_
  fin_cases hc <;> exact .node (by rintro c hc; fin_cases hc <;> exact .windowpane)

theorem fourPanes_noWrap : NoWrap fourPanes := by
  refine .node (by decide) (by decide) fun c hc => ?_
  fin_cases hc <;>
    exact .node (by decide) (by decide) (by rintro c hc; fin_cases hc <;> exact .windowpane)

theorem layoutSearchByBorder_iff_four :
    ((leafGeometries (layoutFixOffsets fourPanes)).Pairwise fun g g' =>
        ∀ p, ¬ (g.Contains p ∧ g'.Contains p)) ∧
      (∀ g ∈ leafGeometries (layoutFixOffsets fourPanes),
        g.Inside (layoutFixOffsets fourPanes).geometry) ∧
      ∀ p, (layoutFixOffsets fourPanes).geometry.Contains p →
        (layoutSearchByBorder p (layoutFixOffsets fourPanes) ≠ none ↔
          ¬ ∃ g ∈ leafGeometries (layoutFixOffsets fourPanes), g.Contains p) ∧
        ∀ path, layoutSearchByBorder p (layoutFixOffsets fourPanes) = some path →
          OnGap (layoutFixOffsets fourPanes) p path :=
  layoutSearchByBorder_iff fourPanes fourPanes_floatFree (by decide) fourPanes_noWrap

/-- Where the borders of the two rows meet the one between the rows, that one is found; and
where `layout_check` wraps around, a pane is not inside the root. -/
theorem layoutSearchByBorder_crossing :
    (FloatFree fourPanes ∧ layoutCheck fourPanes ∧
      layoutSearchByBorder ⟨2, 0⟩ (layoutFixOffsets fourPanes) = some [0, 0] ∧
      layoutSearchByBorder ⟨2, 2⟩ (layoutFixOffsets fourPanes) = some [1, 0] ∧
      layoutSearchByBorder ⟨2, 1⟩ (layoutFixOffsets fourPanes) = some [0]) ∧
    (FloatFree wrappedPanes ∧ layoutCheck wrappedPanes ∧
      ¬ ∀ g ∈ leafGeometries (layoutFixOffsets wrappedPanes),
        g.Inside (layoutFixOffsets wrappedPanes).geometry) := by
  refine ⟨⟨fourPanes_floatFree, by decide, by decide, by decide, by decide⟩,
    .node (by rintro c hc; fin_cases hc <;> exact .windowpane), by decide, fun h => ?_⟩
  have hle : 4294967295 ≤ 0 := (h _ List.mem_cons_self .leftright).2
  exact absurd hle (by decide)

end Ztmux.Layout
