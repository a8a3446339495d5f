import Ztmux.Layout.Sets
import Ztmux.Layout.Offsets

/-!
The even and the main layouts put every pane in once, and what they build fits where no pane
is left with a size it had before.
-/

namespace Ztmux.Layout

open LayoutCell

variable {w : LayoutWindow} {type : LayoutType}

/-! ### What offsets do not change -/

mutual

/-- The panes in the leaves, in order. -/
def leafPanes : LayoutCell → List (Option Nat)
  | .windowpane _ wp _ => [wp]
  | .node _ _ cells => panesOf cells

def panesOf : List LayoutCell → List (Option Nat)
  | [] => []
  | c :: cs => leafPanes c ++ panesOf cs

end

theorem panesOf_eq_flatMap (cells : List LayoutCell) : panesOf cells = cells.flatMap leafPanes := by
  induction cells with
  | nil => rfl
  | cons c cs ih => rw [panesOf, ih, List.flatMap_cons]

theorem leafPanes_node (t : LayoutType) (g : Geometry) (cells : List LayoutCell) :
    leafPanes (.node t g cells) = cells.flatMap leafPanes := by
  rw [leafPanes, panesOf_eq_flatMap]

theorem flatMap_leafPanes_eq {R : LayoutCell → LayoutCell → Prop} {cells cells' : List LayoutCell}
    (h : List.Forall₂ R cells cells') (hR : ∀ c c', R c c' → leafPanes c' = leafPanes c) :
    cells'.flatMap leafPanes = cells.flatMap leafPanes := by
  rw [List.flatMap_def, List.flatMap_def, Lists.map_eq_of_forall₂ h fun c _ c' hcc => hR c c' hcc]

theorem Resized.leafPanes {c c' : LayoutCell} (h : Resized type c c') :
    leafPanes c' = Layout.leafPanes c := by
  refine h.induct (P := fun c c' => Layout.leafPanes c' = Layout.leafPanes c) (fun _ => rfl)
    (fun _ _ _ => rfl) fun t g change cells cells' _ hcells => ?_
  rw [leafPanes_node, leafPanes_node, flatMap_leafPanes_eq hcells fun _ _ hcc => hcc.2]

theorem Moved.leafPanes {c c' : LayoutCell} (h : Moved c c') :
    leafPanes c' = Layout.leafPanes c := by
  refine h.induct (P := fun c c' => Layout.leafPanes c' = Layout.leafPanes c) (fun _ => rfl)
    (fun _ _ _ _ => rfl) fun t g xoff yoff cells cells' _ hcells => ?_
  rw [leafPanes_node, leafPanes_node, flatMap_leafPanes_eq hcells fun _ _ hcc => hcc.2]

theorem Moved.layoutCheck {c c' : LayoutCell} (h : Moved c c') :
    Layout.layoutCheck c' = Layout.layoutCheck c := by
  refine h.induct (P := fun c c' => Layout.layoutCheck c' = Layout.layoutCheck c) (fun _ => rfl)
    (fun _ _ _ _ => rfl) fun t g xoff yoff cells cells' _ hcells => ?_
  have hsizes : cells'.map (fun c => c.size t + 1) = cells.map fun c => c.size t + 1 :=
    Lists.map_eq_of_forall₂ hcells fun c _ c' hcc => by rw [hcc.1.size]
  have hg : ∀ type, ({ g with xoff := xoff, yoff := yoff } : Geometry).size type = g.size type := by
    intro type
    cases type <;> rfl
  rw [Bool.eq_iff_iff, layoutCheck_node, layoutCheck_node, hg, hg, checkSum, hsizes, checkSum]
  refine and_congr_left fun _ => ⟨fun hall c hc => ?_, fun hall c' hc' => ?_⟩
  · obtain ⟨c', hc', hmoved, hcheck⟩ := Lists.exists_of_mem_left hcells hc
    rw [← hmoved.size, ← hcheck]
    exact hall c' hc'
  · obtain ⟨c, hc, hmoved, hcheck⟩ := Lists.exists_of_mem_right hcells hc'
    rw [hmoved.size, hcheck]
    exact hall c hc

theorem inFlow_of_tiled {c : LayoutCell} (h : layoutCellIsTiled c) : inFlow c := by
  rw [inFlow, h, Bool.true_or]

theorem layoutFixOffsets_check {root : LayoutCell} (h : inFlow root) :
    layoutCheck (layoutFixOffsets root) = layoutCheck root ∧
      leafPanes (layoutFixOffsets root) = leafPanes root :=
  ⟨(layoutFixOffsets_moved h).layoutCheck, (layoutFixOffsets_moved h).leafPanes⟩

/-! ### Panes side by side -/

theorem spreadNumber_of_tiled {cells : List LayoutCell} (h : ∀ c ∈ cells, layoutCellIsTiled c) :
    spreadNumber cells = UInt32.ofNat cells.length := by
  rw [spreadNumber, List.countP_eq_length.mpr h]

theorem otherSum_of_tiled {t : LayoutType} {cells : List LayoutCell}
    (h : ∀ c ∈ cells, layoutCellIsTiled c) : otherSum t cells = 0 := by
  have hfilter : (cells.filter fun c => !layoutCellIsTiled c) = [] := by
    rw [List.filter_eq_nil_iff]
    intro c hc
    rw [h c hc]
    decide
  rw [otherSum, hfilter, checkSum_nil]

/-- Two panes at least, and a line or column for each. -/
theorem spreads_of_room {cells : List LayoutCell} {size : UInt32}
    (h : ∀ c ∈ cells, layoutCellIsTiled c) (hlen : 2 ≤ cells.length)
    (hroom : 2 * cells.length - 1 ≤ size.toNat) : Spreads size cells := by
  have hsize := size.toNat_lt
  have hn := toNat_ofNat_of_lt (n := cells.length) (by omega)
  have h1 : (1 : UInt32).toNat = 1 := rfl
  have hsub : (UInt32.ofNat cells.length - 1).toNat = cells.length - 1 := by
    rw [toNat_sub_one (UInt32.lt_iff_toNat_lt.mpr (by rw [hn]; exact Nat.zero_lt_of_lt hlen)), hn]
  have hle : UInt32.ofNat cells.length - 1 ≤ size := by
    rw [UInt32.le_iff_toNat_le, hsub]
    omega
  rw [Spreads, spreadNumber_of_tiled h]
  refine ⟨?_, hle, ?_⟩
  · rw [UInt32.lt_iff_toNat_lt, hn, h1]
    omega
  · intro hzero
    have hdiv : (size.toNat - (cells.length - 1)) / cells.length = 0 := by
      have := congrArg UInt32.toNat hzero
      rwa [spreadEach, UInt32.toNat_div, UInt32.toNat_sub_of_le _ _ hle, hsub, hn] at this
    have hpos := Nat.div_pos (a := size.toNat - (cells.length - 1)) (b := cells.length)
      (by omega) (by omega)
    omega

theorem layoutSpreadCell_panes {w : WindowOptions} (hw : w.paneBorderStatus = .off) (e : Edge)
    {t : LayoutType} {g : Geometry} {cells : List LayoutCell}
    (h : ∀ c ∈ cells, layoutCellIsTiled c) (hlen : 2 ≤ cells.length)
    (hroom : 2 * cells.length - 1 ≤ (g.size t).toNat)
    (hacross : ∀ c ∈ cells, c.size t.across = g.size t.across) :
    ∃ cells' changed, (∀ fuel, layoutSpreadCell w (fuel + 1) e (.node t g cells) =
        .ok (.node t g cells', changed)) ∧
      layoutCheck (.node t g cells') ∧ inFlow (.node t g cells') ∧
      cells'.flatMap leafPanes = cells.flatMap leafPanes := by
  obtain ⟨cells', changed, hok, hcells, hsum⟩ :=
    layoutSpreadCell_spread hw e (spreads_of_room h hlen hroom)
  refine ⟨cells', changed, hok, ?_, ?_, flatMap_leafPanes_eq hcells fun _ _ hcc => hcc.1.leafPanes⟩
  · rw [layoutCheck_node, hsum, otherSum_of_tiled h, add_zero]
    refine ⟨fun c' hc' => ?_, rfl⟩
    obtain ⟨c, hc, hresized, hcheck⟩ := Lists.exists_of_mem_right hcells hc'
    obtain ⟨wp, g', rfl⟩ := eq_windowpane_of_tiled (h c hc)
    exact ⟨hresized.size_across.trans (hacross _ hc), hcheck rfl⟩
  · obtain ⟨c, hc⟩ := List.exists_mem_of_length_pos (l := cells) (by omega)
    obtain ⟨c', hc', hresized, -⟩ := Lists.exists_of_mem_left hcells hc
    rw [inFlow_node, List.any_eq_true]
    exact ⟨c', hc', hresized.inFlow.trans (inFlow_of_tiled (h c hc))⟩

/-! ### Even layouts -/

theorem evenCell_of_tiled {c : LayoutCell} (h : layoutCellIsTiled c) :
    layoutCellIsTiled (evenCell w c) ∧ leafPanes (evenCell w c) = leafPanes c ∧
      ∀ t, (evenCell w c).size t = w.size t := by
  obtain ⟨wp, g, rfl⟩ := eq_windowpane_of_tiled h
  refine ⟨rfl, rfl, fun t => ?_⟩
  cases t <;> rfl

theorem needed_eq {n : Nat} {size : UInt32} (h : 2 * n - 1 ≤ size.toNat) (hn : 1 ≤ n) :
    (if UInt32.ofNat n * (paneMinimum + 1) - 1 < size then size
      else UInt32.ofNat n * (paneMinimum + 1) - 1) = size := by
  have hsize := size.toNat_lt
  have hneeded : (UInt32.ofNat n * (paneMinimum + 1) - 1).toNat = 2 * n - 1 := by
    rw [UInt32.toNat_sub, UInt32.toNat_mul, toNat_ofNat_of_lt (by omega)]
    show (2 ^ 32 - 1 + n * 2 % 2 ^ 32) % 2 ^ 32 = 2 * n - 1
    omega
  split_ifs with hlt
  · rfl
  · rw [UInt32.lt_iff_toNat_lt, hneeded] at hlt
    apply UInt32.toNat.inj
    rw [hneeded]
    omega

theorem layoutSetEven_ok (hw : w.options.paneBorderStatus = .off)
    (hpanes : ∀ c ∈ w.panes, layoutCellIsTiled c) (hn : 2 ≤ w.panes.length)
    (hroom : 2 * w.panes.length - 1 ≤ (w.size type).toNat) :
    ∃ root, Returns (fun fuel => layoutSetEven w fuel type) (some root) ∧ layoutCheck root ∧
      leafPanes root = w.panes.flatMap leafPanes := by
  have hcount : windowCountPanes w = w.panes.length := List.countP_eq_length.mpr hpanes
  have hcells : ∀ c ∈ w.panes.map (evenCell w), layoutCellIsTiled c ∧ ∀ t, c.size t = w.size t := by
    intro c hc
    obtain ⟨d, hd, rfl⟩ := List.mem_map.mp hc
    obtain ⟨htiled, -, hsize⟩ := evenCell_of_tiled (w := w) (hpanes d hd)
    exact ⟨htiled, hsize⟩
  obtain ⟨cells, changed, hok, hcheck, hflow, hleaves⟩ := layoutSpreadCell_panes hw .root
    (t := type) (g := sized type (w.size type) (w.size type.across)) (fun c hc => (hcells c hc).1)
    (by rwa [List.length_map]) (by rwa [List.length_map, size_sized])
    fun c hc => by rw [(hcells c hc).2, size_sized_across]
  obtain ⟨hfixed, hpanes'⟩ := layoutFixOffsets_check hflow
  refine ⟨layoutFixOffsets (.node type (sized type (w.size type) (w.size type.across)) cells),
    Returns.of_succ ⟨0, fun fuel _ => ?_⟩, ?_, ?_⟩
  · simp only [layoutSetEven, hcount, if_neg (show ¬ w.panes.length ≤ 1 by omega),
      needed_eq hroom (by omega), hok]
    rfl
  · rw [hfixed]
    exact hcheck
  · rw [hpanes', leafPanes_node, hleaves, List.flatMap_map]
    rw [List.flatMap_def, List.flatMap_def]
    exact congrArg List.flatten
      (List.map_congr_left fun c hc => (evenCell_of_tiled (hpanes c hc)).2.1)

/-! ### Main layouts -/

def mainRoot (type : LayoutType) (mirrored : Bool) (main other across : UInt32)
    (lcmain lcother : LayoutCell) :
    LayoutCell :=
  .node type (sized type (main + other + 1) across)
    (if mirrored then [lcother, lcmain] else [lcmain, lcother])

theorem mainRoot_check (mirrored : Bool) (main other across : UInt32) (wp : Option Nat)
    (lcother : LayoutCell) :
    layoutCheck (mainRoot type mirrored main other across
        (.windowpane false wp (sized type main across)) lcother) ↔
      lcother.size type.across = across ∧ lcother.size type = other ∧ layoutCheck lcother := by
  have hsum : checkSum type
      (if mirrored then [lcother, .windowpane false wp (sized type main across)]
      else [.windowpane false wp (sized type main across), lcother]) =
        main + 1 + (lcother.size type + 1) := by
    cases mirrored with
    | true => simp [add_comm]
    | false => simp
  have hmem : ∀ c, c ∈ (if mirrored then [lcother, .windowpane false wp (sized type main across)]
      else [.windowpane false wp (sized type main across), lcother]) ↔
        c = lcother ∨ c = .windowpane false wp (sized type main across) := by
    intro c
    cases mirrored with
    | true => simp
    | false => simp [or_comm]
  have hother : main + 1 + (lcother.size type + 1) = main + other + 1 + 1 ↔
      lcother.size type = other := by
    constructor
    · grind
    · grind
  rw [mainRoot, layoutCheck_node, hsum, size_sized, size_sized_across, hother]
  simp only [hmem, forall_eq_or_imp, forall_eq, size_windowpane, size_sized_across, true_and]
  constructor
  · rintro ⟨⟨⟨hacross, hcheck⟩, -⟩, hsize⟩
    exact ⟨hacross, hsize, hcheck⟩
  · rintro ⟨hacross, hsize, hcheck⟩
    exact ⟨⟨⟨hacross, hcheck⟩, rfl⟩, hsize⟩

theorem mainRoot_inFlow (mirrored : Bool) (main other across : UInt32) (wp : Option Nat)
    (g : Geometry) (lcother : LayoutCell) :
    inFlow (mainRoot type mirrored main other across (.windowpane false wp g) lcother) := by
  rw [mainRoot, inFlow_node]
  cases mirrored with
  | true => simp
  | false => simp

theorem mainRoot_leafPanes (mirrored : Bool) (main other across : UInt32)
    (lcmain lcother : LayoutCell) :
    (leafPanes (mainRoot type mirrored main other across lcmain lcother)).Perm
      (leafPanes lcmain ++ leafPanes lcother) := by
  rw [mainRoot, leafPanes_node]
  cases mirrored with
  | true =>
      rw [if_pos rfl, List.flatMap_cons, List.flatMap_singleton]
      exact List.perm_append_comm
  | false =>
      rw [if_neg Bool.false_ne_true, List.flatMap_cons, List.flatMap_singleton]

/-- What the two panes of a main layout have to share: the sizes that the other one must
have had already, as it keeps them. -/
def OtherFits (w : LayoutWindow) (type : LayoutType) (mainDefault : UInt32) : Prop :=
  ∀ p q, w.panes = [p, q] → q.size type.across = w.size type.across ∧
    q.size type = (mainSizes (w.mainPaneSize type) (w.otherPaneSize type) mainDefault
      (w.size type - 1)).2

theorem layoutSetFirstTiled_cons {p : LayoutCell} {rest : List LayoutCell}
    (h : ∀ c ∈ p :: rest, layoutCellIsTiled c) :
    layoutSetFirstTiled (p :: rest) = some (p, rest) ∧ otherPanes (p :: rest) = rest := by
  have hdrop : ∀ cells : List LayoutCell, (∀ c ∈ cells, layoutCellIsTiled c) →
      cells.dropWhile (fun c => !layoutCellIsTiled c) = cells := by
    intro cells hcells
    cases cells with
    | nil => rfl
    | cons c cs => exact List.dropWhile_cons_of_neg (by rw [hcells c List.mem_cons_self]; decide)
  constructor
  · rw [layoutSetFirstTiled, hdrop _ h]
    simp only [hdrop rest fun c hc => h c (List.mem_cons_of_mem _ hc)]
  · rw [otherPanes, hdrop _ h,
      List.takeWhile_cons_of_neg (by rw [h p List.mem_cons_self]; decide)]
    rfl

@[simp] theorem layoutSetSize_windowpane (floating : Bool) (wp : Option Nat) (g g' : Geometry) :
    layoutSetSize g (.windowpane floating wp g') = .windowpane floating wp g :=
  rfl

/-- A pane whose cell gets its size from the arrangement. -/
theorem layoutSetSize_of_tiled {g : Geometry} {c : LayoutCell} (h : layoutCellIsTiled c) :
    layoutCellIsTiled (layoutSetSize g c) ∧ leafPanes (layoutSetSize g c) = leafPanes c ∧
      ∀ t, (layoutSetSize g c).size t = g.size t := by
  obtain ⟨wp, g', rfl⟩ := eq_windowpane_of_tiled h
  refine ⟨rfl, rfl, fun t => ?_⟩
  cases t <;> rfl

/-- The node that the other panes share. -/
theorem layoutSpreadCell_others {w : WindowOptions} (hw : w.paneBorderStatus = .off) (e : Edge)
    (type : LayoutType) (other across : UInt32) {rest : List LayoutCell}
    (h : ∀ c ∈ rest, layoutCellIsTiled c)
    (hlen : 2 ≤ rest.length) (hroom : 2 * rest.length - 1 ≤ across.toNat) :
    ∃ cells changed, (∀ fuel, layoutSpreadCell w (fuel + 1) e
          (.node type.across (sized type other across) (rest.map fun c =>
            if layoutCellIsTiled c then layoutSetSize (sized type other paneMinimum) c else c)) =
        .ok (.node type.across (sized type other across) cells, changed)) ∧
      layoutCheck (.node type.across (sized type other across) cells) ∧
      cells.flatMap leafPanes = rest.flatMap leafPanes := by
  have hmap : (rest.map fun c =>
      if layoutCellIsTiled c then layoutSetSize (sized type other paneMinimum) c else c) =
        rest.map (layoutSetSize (sized type other paneMinimum)) :=
    List.map_congr_left fun c hc => if_pos (h c hc)
  have hcells : ∀ c ∈ rest.map (layoutSetSize (sized type other paneMinimum)),
      layoutCellIsTiled c ∧ ∀ t, c.size t = (sized type other paneMinimum).size t := by
    intro c hc
    obtain ⟨d, hd, rfl⟩ := List.mem_map.mp hc
    obtain ⟨htiled, -, hsize⟩ := layoutSetSize_of_tiled (g := sized type other paneMinimum) (h d hd)
    exact ⟨htiled, hsize⟩
  obtain ⟨cells, changed, hok, hcheck, -, hleaves⟩ := layoutSpreadCell_panes hw e
    (t := type.across) (g := sized type other across) (fun c hc => (hcells c hc).1)
    (by rwa [List.length_map]) (by rwa [List.length_map, size_sized_across]) fun c hc => by
      rw [(hcells c hc).2, LayoutType.across_across, size_sized, size_sized]
  refine ⟨cells, changed, fun fuel => ?_, hcheck, ?_⟩
  · rw [hmap]
    exact hok fuel
  · rw [hleaves, List.flatMap_map, List.flatMap_def, List.flatMap_def]
    exact congrArg List.flatten
      (List.map_congr_left fun c hc => (layoutSetSize_of_tiled (h c hc)).2.1)

theorem layoutSetMain_ok (mirrored : Bool) (mainDefault : UInt32)
    (hw : w.options.paneBorderStatus = .off) (hpanes : ∀ c ∈ w.panes, layoutCellIsTiled c)
    (hn : 2 ≤ w.panes.length)
    (hroom : 2 * (w.panes.length - 1) - 1 ≤ (w.size type.across).toNat) :
    ∃ root, Returns (fun fuel => layoutSetMain w fuel type mirrored mainDefault) (some root) ∧
      (leafPanes root).Perm (w.panes.flatMap leafPanes) ∧
      (layoutCheck root ↔ OtherFits w type mainDefault) := by
  have hcount : windowCountPanes w = w.panes.length := List.countP_eq_length.mpr hpanes
  obtain ⟨p, rest, hp⟩ : ∃ p rest, w.panes = p :: rest :=
    List.exists_cons_of_length_pos (by omega)
  rw [hp] at hpanes
  obtain ⟨hfirst, hothers⟩ := layoutSetFirstTiled_cons hpanes
  rw [hp] at hn hroom hcount
  rw [List.length_cons] at hn hroom hcount
  rw [Nat.add_sub_cancel] at hroom
  obtain ⟨wp, gp, rfl⟩ := eq_windowpane_of_tiled (hpanes p List.mem_cons_self)
  have hrest : ∀ c ∈ rest, layoutCellIsTiled c := fun c hc =>
    hpanes c (List.mem_cons_of_mem _ hc)
  set sizes := mainSizes (w.mainPaneSize type) (w.otherPaneSize type) mainDefault
    (w.size type - 1) with hsizes
  have hcheck : ∀ lcother, layoutCheck (layoutFixOffsets (mainRoot type mirrored sizes.1 sizes.2
      (w.size type.across) (.windowpane false wp (sized type sizes.1 (w.size type.across)))
      lcother)) ↔ lcother.size type.across = w.size type.across ∧ lcother.size type = sizes.2 ∧
        layoutCheck lcother := by
    intro lcother
    rw [(layoutFixOffsets_check (mainRoot_inFlow ..)).1]
    exact mainRoot_check ..
  have hleaves : ∀ lcother, leafPanes lcother = rest.flatMap leafPanes →
      (leafPanes (layoutFixOffsets (mainRoot type mirrored sizes.1 sizes.2 (w.size type.across)
        (.windowpane false wp (sized type sizes.1 (w.size type.across))) lcother))).Perm
      (w.panes.flatMap leafPanes) := by
    intro lcother hlcother
    rw [(layoutFixOffsets_check (mainRoot_inFlow ..)).2, hp, List.flatMap_cons, ← hlcother]
    exact mainRoot_leafPanes ..
  have hne : ¬ rest.length + 1 ≤ 1 := by omega
  rcases Nat.lt_or_ge 1 rest.length with hmany | hone
  · -- the others have a node of their own
    set lcother := LayoutCell.node type.across (sized type sizes.2 (w.size type.across))
      (rest.map fun c =>
        if layoutCellIsTiled c then layoutSetSize (sized type sizes.2 paneMinimum) c else c)
      with hlcother
    obtain ⟨cells, changed, hok, hspread, hcells⟩ := layoutSpreadCell_others hw
      (Edge.root.child type
        (if mirrored then
          [lcother, .windowpane false wp (sized type sizes.1 (w.size type.across))]
        else [.windowpane false wp (sized type sizes.1 (w.size type.across)), lcother])
        (if mirrored then 0 else 1)) type sizes.2 _ hrest hmany hroom
    rw [← hlcother] at hok
    refine ⟨_, Returns.of_succ ⟨0, fun fuel _ => ?_⟩,
      hleaves (.node type.across (sized type sizes.2 (w.size type.across)) cells)
        (by rw [leafPanes_node, hcells]), (hcheck _).trans ?_⟩
    · simp only [layoutSetMain, if_neg hne, hcount, hp, hfirst, hothers, Nat.add_sub_cancel,
        needed_eq hroom (by omega), ← hsizes, if_neg (show ¬ rest.length = 1 by omega),
        layoutSetSize_windowpane, ← hlcother, hok]
      rfl
    · constructor
      · intro _ c q hpq
        rw [hp] at hpq
        injection hpq with _ hq
        rw [hq, List.length_singleton] at hmany
        exact absurd hmany (lt_irrefl 1)
      · intro _
        rw [size_node, size_node, size_sized, size_sized_across]
        exact ⟨rfl, rfl, hspread⟩
  · -- the other pane keeps the size it had
    obtain ⟨q, rfl⟩ : ∃ q, rest = [q] := List.length_eq_one_iff.mp (by omega)
    obtain ⟨wq, gq, rfl⟩ := eq_windowpane_of_tiled (hrest q List.mem_cons_self)
    have hneeded := needed_eq (n := 1) hroom (le_refl 1)
    refine ⟨_, Returns.of_succ ⟨0, fun fuel _ => ?_⟩,
      hleaves (.windowpane false wq gq) (by rw [List.flatMap_singleton]), (hcheck _).trans ?_⟩
    · simp only [layoutSetMain, hcount, hp, hfirst, List.length_singleton, Nat.add_sub_cancel,
        hneeded, ← hsizes, layoutSetSize_windowpane]
      rfl
    · have hsame : ∀ c d, w.panes = [c, d] → d = .windowpane false wq gq := by
        intro c d hcd
        rw [hp] at hcd
        injection hcd with _ hd
        injection hd with hd
        exact hd.symm
      constructor
      · rintro ⟨hacross, hsize, -⟩ c d hcd
        rw [hsame c d hcd]
        exact ⟨hacross, hsize⟩
      · intro hfits
        obtain ⟨hacross, hsize⟩ := hfits _ _ hp
        exact ⟨hacross, hsize, rfl⟩

/-! ### The arrangements of the table -/

namespace LayoutSet

/-- There is a column or line for each pane that an arrangement puts beside another, and one
for each border. -/
def HasRoom (w : LayoutWindow) : LayoutSet → Prop
  | evenHorizontal => 2 * w.panes.length - 1 ≤ w.sx.toNat
  | evenVertical => 2 * w.panes.length - 1 ≤ w.sy.toNat
  | mainHorizontal | mainHorizontalMirrored => 2 * (w.panes.length - 1) - 1 ≤ w.sx.toNat
  | mainVertical | mainVerticalMirrored => 2 * (w.panes.length - 1) - 1 ≤ w.sy.toNat
  | tiled => False

/-- The sizes that an arrangement does not set are right already. -/
def KeptSizesFit (w : LayoutWindow) : LayoutSet → Prop
  | evenHorizontal | evenVertical | tiled => True
  | mainHorizontal | mainHorizontalMirrored => OtherFits w .topbottom 24
  | mainVertical | mainVerticalMirrored => OtherFits w .leftright 80

end LayoutSet

/-- The even and the main arrangements of a window with nothing but tiled panes have every pane
once, and the cells fill the root exactly where there are three panes or more or the size that
the other one of two panes keeps is the one it has to have. -/
theorem layout_set_check_iff (w : LayoutWindow) (hw : w.options.paneBorderStatus = .off)
    (hpanes : ∀ c ∈ w.panes, layoutCellIsTiled c) (hn : 2 ≤ w.panes.length) (s : LayoutSet)
    (hroom : s.HasRoom w) :
    ∃ root, Returns (fun fuel => s.arrange w fuel) (some root) ∧
      (leafPanes root).Perm (w.panes.flatMap leafPanes) ∧
      (layoutCheck root ↔ s.KeptSizesFit w) := by
  have heven : ∀ type, 2 * w.panes.length - 1 ≤ (w.size type).toNat →
      ∃ root, Returns (fun fuel => layoutSetEven w fuel type) (some root) ∧
        (leafPanes root).Perm (w.panes.flatMap leafPanes) ∧ (layoutCheck root ↔ True) := by
    intro type hsize
    obtain ⟨root, hok, hcheck, hleaves⟩ := layoutSetEven_ok hw hpanes hn hsize
    exact ⟨root, hok, hleaves ▸ .refl _, iff_true_intro hcheck⟩
  cases s with
  | evenHorizontal => exact heven .leftright hroom
  | evenVertical => exact heven .topbottom hroom
  | mainHorizontal => exact layoutSetMain_ok false 24 hw hpanes hn hroom
  | mainHorizontalMirrored => exact layoutSetMain_ok true 24 hw hpanes hn hroom
  | mainVertical => exact layoutSetMain_ok false 80 hw hpanes hn hroom
  | mainVerticalMirrored => exact layoutSetMain_ok true 80 hw hpanes hn hroom
  | tiled => exact hroom.elim

/-- Three panes one below the other. -/
def threePaneWindow : LayoutWindow :=
  ⟨80, 24, [.windowpane false (some 0) ⟨80, 8, 0, 0⟩, .windowpane false (some 1) ⟨80, 7, 0, 9⟩,
    .windowpane false (some 2) ⟨80, 7, 0, 17⟩], .plain, ['2', '4'], ['0'], ['8', '0'], ['0'], 0⟩

theorem layout_set_check_three :
    ∃ root, Returns (fun fuel => LayoutSet.mainVertical.arrange threePaneWindow fuel)
        (some root) ∧
      (leafPanes root).Perm (threePaneWindow.panes.flatMap leafPanes) ∧ layoutCheck root := by
  obtain ⟨root, hok, hleaves, hcheck⟩ := layout_set_check_iff threePaneWindow rfl (by decide)
    (by decide) .mainVertical (show 3 ≤ 24 by decide)
  have hfits : OtherFits threePaneWindow .leftright 80 :=
    fun _ _ hpq => absurd (congrArg List.length hpq) (show 3 ≠ 2 by decide)
  exact ⟨root, hok, hleaves, hcheck.mpr hfits⟩

/-- Two panes one below the other. -/
def twoPaneWindow : LayoutWindow :=
  ⟨80, 24, [.windowpane false (some 0) ⟨80, 12, 0, 0⟩, .windowpane false (some 1) ⟨80, 11, 0, 13⟩],
    .plain, ['2', '4'], ['0'], ['8', '0'], ['0'], 0⟩

/-- The second pane still has 80 columns and 11 lines where it has one column and 24 lines. -/
theorem main_vertical_keeps_size :
    LayoutSet.mainVertical.HasRoom twoPaneWindow ∧
      ∃ root, LayoutSet.mainVertical.arrange twoPaneWindow 1 = .ok (some root) ∧
        ¬ layoutCheck root :=
  ⟨show 1 ≤ 24 by decide, _, rfl, by decide⟩

end Ztmux.Layout
