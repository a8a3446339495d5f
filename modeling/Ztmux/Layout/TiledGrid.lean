import Ztmux.Layout.SetsFit

/-!
The tiled layout puts the panes into rows and fills the window.

The counts come first: a last row that is not empty is what the search for them ends with.
Then the grid is followed row by row, on the list of the tiled panes that are left.
-/

namespace Ztmux.Layout

open LayoutCell

/-! ### Rows and columns -/

/-- Every row but the last is full, and columns were only added in turn with rows until there
could be no more. -/
structure Counted (maxColumns n rows columns : Nat) : Prop where
  pos : 1 ≤ columns
  full : (rows - 1) * columns < n
  square : rows = columns ∨ maxColumns ≠ 0 ∧ maxColumns ≤ columns

theorem Counted.both {maxColumns n rows columns : Nat} (h : Counted maxColumns n rows columns)
    (hmore : (rows + 1) * columns < n) (hmax : maxColumns = 0 ∨ columns < maxColumns) :
    Counted maxColumns n (rows + 1) (columns + 1) := by
  have hsquare : rows = columns := by
    rcases h.square with hsquare | ⟨hne, hle⟩
    · exact hsquare
    · omega
  refine ⟨Nat.le_add_left 1 columns, ?_, .inl (by rw [hsquare])⟩
  rw [Nat.add_sub_cancel, Nat.mul_comm, hsquare]
  rwa [hsquare] at hmore

theorem Counted.row {maxColumns n rows columns : Nat} (h : Counted maxColumns n rows columns)
    (hmore : (rows + 1) * columns < n) (hmax : ¬ (maxColumns = 0 ∨ columns < maxColumns)) :
    Counted maxColumns n (rows + 1) columns := by
  refine ⟨h.pos, ?_, .inr (by omega)⟩
  rw [Nat.add_sub_cancel]
  exact (Nat.mul_le_mul_right columns (Nat.le_succ rows)).trans_lt hmore

theorem tiledCounts_done {maxColumns n rows columns fuel : Nat} (h : n ≤ rows * columns)
    (hfuel : 0 < fuel) : tiledCounts maxColumns n fuel rows columns = .ok (rows, columns) := by
  obtain ⟨fuel, rfl⟩ := Nat.exists_eq_add_of_lt hfuel
  rw [tiledCounts, if_neg (not_lt.mpr h)]
  rfl

theorem tiledCounts_ok {maxColumns n rows columns : Nat} (k : Nat) (hk : n ≤ rows + k)
    (hrows : 1 ≤ rows)
    (h : Counted maxColumns n rows columns) :
    ∃ rows' columns', (∀ fuel, k + 1 < fuel →
        tiledCounts maxColumns n fuel rows columns = .ok (rows', columns')) ∧
      n ≤ rows' * columns' ∧ 1 ≤ rows' ∧ 1 ≤ columns' ∧ (rows' - 1) * columns' < n := by
  induction k generalizing rows columns with
  | zero =>
      have hn : n ≤ rows * columns := hk.trans (Nat.le_mul_of_pos_right _ h.pos)
      exact ⟨rows, columns, fun fuel hfuel => tiledCounts_done hn (by omega), hn, hrows, h.pos,
        h.full⟩
  | succ k ih =>
      rcases Nat.lt_or_ge (rows * columns) n with hlt | hn
      · rcases Nat.lt_or_ge ((rows + 1) * columns) n with hmore | hn'
        · by_cases hmax : maxColumns = 0 ∨ columns < maxColumns
          · obtain ⟨rows', columns', hok, hcounts⟩ :=
              ih (by omega) (Nat.le_add_left 1 rows) (h.both hmore hmax)
            refine ⟨rows', columns', fun fuel hfuel => ?_, hcounts⟩
            obtain ⟨fuel, rfl⟩ := Nat.exists_eq_add_of_lt (Nat.zero_lt_of_lt hfuel)
            rw [tiledCounts, if_pos hlt, if_pos ⟨hmore, hmax⟩]
            exact hok _ (by omega)
          · obtain ⟨rows', columns', hok, hcounts⟩ :=
              ih (by omega) (Nat.le_add_left 1 rows) (h.row hmore hmax)
            refine ⟨rows', columns', fun fuel hfuel => ?_, hcounts⟩
            obtain ⟨fuel, rfl⟩ := Nat.exists_eq_add_of_lt (Nat.zero_lt_of_lt hfuel)
            rw [tiledCounts, if_pos hlt, if_neg fun hand => hmax hand.2]
            exact hok _ (by omega)
        · -- one row more is enough
          refine ⟨rows + 1, columns, fun fuel hfuel => ?_, hn', Nat.le_add_left 1 rows, h.pos, ?_⟩
          · obtain ⟨fuel, rfl⟩ := Nat.exists_eq_add_of_lt (Nat.zero_lt_of_lt hfuel)
            rw [tiledCounts, if_pos hlt, if_neg fun hand => (not_lt.mpr hn') hand.1]
            exact tiledCounts_done hn' (by omega)
          · rwa [Nat.add_sub_cancel]
      · exact ⟨rows, columns, fun fuel hfuel => tiledCounts_done hn (by omega), hn, hrows, h.pos,
          h.full⟩

theorem tiledCounts_start (maxColumns : Nat) {n : Nat} (hn : 1 ≤ n) :
    ∃ rows columns, (∀ fuel, n < fuel →
        tiledCounts maxColumns n fuel 1 1 = .ok (rows, columns)) ∧
      n ≤ rows * columns ∧ 1 ≤ rows ∧ 1 ≤ columns ∧ (rows - 1) * columns < n := by
  have hcounted : Counted maxColumns n 1 1 := ⟨le_refl 1, by omega, .inl rfl⟩
  obtain ⟨rows, columns, hok, hcounts⟩ := tiledCounts_ok (n - 1) (by omega) (le_refl 1) hcounted
  exact ⟨rows, columns, fun fuel hfuel => hok fuel (by omega), hcounts⟩

/-- The size that a number of cells can have. -/
theorem tiledSize_ok {size : UInt32} {count : Nat} (hcount : 1 ≤ count)
    (hroom : 2 * count - 1 ≤ size.toNat) :
    count * ((tiledSize size count).toNat + 1) ≤ size.toNat + 1 := by
  have hsize := size.toNat_lt
  have hn := toNat_ofNat_of_lt (n := count) (by omega)
  have hone : (UInt32.ofNat count - 1).toNat = count - 1 := by
    rw [toNat_sub_one (UInt32.lt_iff_toNat_lt.mpr (by rw [hn]; exact hcount)), hn]
  have heach : ((size - (UInt32.ofNat count - 1)) / UInt32.ofNat count).toNat =
      (size.toNat - (count - 1)) / count := by
    rw [UInt32.toNat_div, UInt32.toNat_sub_of_le _ _ (by
      rw [UInt32.le_iff_toNat_le, hone]
      omega), hone, hn]
  have hpos : 1 ≤ (size.toNat - (count - 1)) / count := Nat.div_pos (by omega) hcount
  have hle := Nat.mul_div_le (size.toNat - (count - 1)) count
  rw [tiledSize, if_neg, heach]
  · calc count * ((size.toNat - (count - 1)) / count + 1)
        = count * ((size.toNat - (count - 1)) / count) + count := Nat.mul_succ _ _
      _ ≤ size.toNat - (count - 1) + count := Nat.add_le_add_right hle count
      _ = size.toNat + 1 := by omega
  · rw [UInt32.lt_iff_toNat_lt, heach]
    exact not_lt.mpr hpos

/-! ### The panes of a row -/

theorem filter_tiled_nil {panes : List LayoutCell}
    (h : (panes.dropWhile fun c => !layoutCellIsTiled c) = []) :
    panes.filter layoutCellIsTiled = [] := by
  rw [List.dropWhile_eq_nil_iff] at h
  rw [List.filter_eq_nil_iff]
  intro c hc htiled
  have hnot := h c hc
  rw [htiled] at hnot
  exact Bool.false_ne_true hnot

theorem filter_tiled_cons {panes cs : List LayoutCell} {c : LayoutCell}
    (h : (panes.dropWhile fun c => !layoutCellIsTiled c) = c :: cs) :
    layoutCellIsTiled c ∧
      panes.filter layoutCellIsTiled = c :: cs.filter layoutCellIsTiled := by
  induction panes with
  | nil => cases h
  | cons d ds ih =>
      cases hd : layoutCellIsTiled d with
      | true =>
          rw [List.dropWhile_cons_of_neg (by rw [hd]; decide)] at h
          obtain ⟨rfl, rfl⟩ := List.cons.inj h
          exact ⟨hd, List.filter_cons_of_pos hd⟩
      | false =>
          rw [List.dropWhile_cons_of_pos (by rw [hd]; decide)] at h
          rw [List.filter_cons_of_neg (by rw [hd]; decide)]
          exact ih h

/-- A row takes the first panes that are left. -/
theorem tiledColumns_eq (width height : UInt32) (i : Nat) {lcchild : LayoutCell}
    (hchild : layoutCellIsTiled lcchild) (panes : List LayoutCell) :
    (tiledColumns width height i lcchild panes).1 =
        ((lcchild :: panes.filter layoutCellIsTiled).take i).map
          (layoutSetSize ⟨width, height, 0, 0⟩) ∧
      (tiledColumns width height i lcchild panes).2.filter layoutCellIsTiled =
        (lcchild :: panes.filter layoutCellIsTiled).drop i := by
  induction i generalizing lcchild panes with
  | zero => exact ⟨rfl, List.filter_cons_of_pos hchild⟩
  | succ i ih =>
      rw [tiledColumns]
      split
      next h =>
        rw [filter_tiled_nil h, List.take_succ_cons, List.take_nil, List.drop_succ_cons,
          List.drop_nil]
        exact ⟨rfl, rfl⟩
      next wp cs h =>
        obtain ⟨hwp, hfilter⟩ := filter_tiled_cons h
        obtain ⟨hcells, hleft⟩ := ih hwp cs
        rw [hfilter, List.take_succ_cons, List.drop_succ_cons, List.map_cons, ← hcells]
        exact ⟨rfl, hleft⟩

/-! ### A row -/

/-- A pane, or panes side by side. -/
def isRow : LayoutCell → Bool
  | .windowpane floating _ _ => !floating
  | .node t _ cells => t = .leftright && !cells.isEmpty && cells.all layoutCellIsTiled

structure GridRow (sx sy : UInt32) (c : LayoutCell) : Prop where
  row : isRow c
  check : layoutCheck c
  sx : c.size .leftright = sx
  sy : c.size .topbottom = sy

theorem addSize_asI32 (n m : UInt32) : addSize n (asI32 m) = n + m := by
  have h := addSize_congr (n := n) (a := asI32 m) (b := asI32 (n + m) - asI32 n) (by
    rw [asI32_emod, Int.sub_emod, asI32_emod, asI32_emod, UInt32.toNat_add]
    have hn := n.toNat_lt
    have hm := m.toNat_lt
    omega)
  rw [h, addSize_sub]

theorem checkSum_uniform {t : LayoutType} {size : UInt32} {cells : List LayoutCell}
    (h : ∀ c ∈ cells, c.size t = size) :
    checkSum t cells = UInt32.ofNat cells.length * (size + 1) := by
  induction cells with
  | nil => simp
  | cons c cs ih =>
      rw [checkSum_cons, ih fun d hd => h d (List.mem_cons_of_mem _ hd), h c List.mem_cons_self,
        List.length_cons, UInt32.ofNat_add]
      grind

theorem adjustLast_ok {w : WindowOptions} {type : LayoutType} {e : Edge} {cells : List LayoutCell}
    {n : UInt32} {c c' : LayoutCell} (hlast : cells.getLast? = some c)
    {fuel : Nat} (hok : layoutResizeAdjust w type fuel e c (asI32 n) = .ok c')
    (hsize : c'.size type = c.size type + n) :
    adjustLast w fuel type e cells (asI32 n) = .ok (cells.dropLast ++ [c']) ∧
      checkSum type (cells.dropLast ++ [c']) = checkSum type cells + n := by
  constructor
  · simp only [adjustLast, hlast, hok]
    rfl
  · have hcells := List.dropLast_append_getLast? c hlast
    conv_rhs => rw [← hcells]
    rw [checkSum_append, checkSum_append, checkSum_cons, checkSum_cons, hsize, checkSum_nil]
    grind

theorem layoutResizeAdjust_pane {c : LayoutCell} (h : layoutCellIsTiled c) (type : LayoutType)
    (n : UInt32) :
    ∃ c', (∀ w fuel e, layoutResizeAdjust w type (fuel + 1) e c (asI32 n) = .ok c') ∧
      layoutCellIsTiled c' ∧ leafPanes c' = leafPanes c ∧ c'.size type = c.size type + n ∧
      c'.size type.across = c.size type.across := by
  obtain ⟨wp, g, rfl⟩ := eq_windowpane_of_tiled h
  refine ⟨.windowpane false wp (g.addSize type (asI32 n)), fun w fuel e => rfl, rfl, rfl, ?_, ?_⟩
  · rw [size_windowpane, size_windowpane, Geometry.size_addSize, addSize_asI32]
  · cases type <;> rfl

theorem layoutCheck_of_tiled {c : LayoutCell} (h : layoutCellIsTiled c) : layoutCheck c := by
  obtain ⟨wp, g, rfl⟩ := eq_windowpane_of_tiled h
  rfl

/-- Panes side by side whose widths add up are a row. -/
theorem gridRow_of_panes {sx sy : UInt32} {xoff yoff : Int32} {cells : List LayoutCell}
    (hne : cells ≠ []) (htiled : ∀ c ∈ cells, layoutCellIsTiled c)
    (hsy : ∀ c ∈ cells, c.size .topbottom = sy) (hsum : checkSum .leftright cells = sx + 1) :
    GridRow sx sy (.node .leftright ⟨sx, sy, xoff, yoff⟩ cells) := by
  refine ⟨?_, ?_, rfl, rfl⟩
  · rw [isRow, Bool.and_eq_true, Bool.and_eq_true, List.all_eq_true]
    refine ⟨⟨rfl, ?_⟩, htiled⟩
    rw [Bool.not_eq_true', List.isEmpty_eq_false_iff]
    exact hne
  · rw [layoutCheck_node]
    exact ⟨fun c hc => ⟨hsy c hc, layoutCheck_of_tiled (htiled c hc)⟩, hsum⟩

/-- What the cells of a row use, while it is no more than the greatest width. -/
theorem toNat_used {n : Nat} {size : UInt32} (hn : 1 ≤ n) (h : n * (size.toNat + 1) ≤ 2 ^ 32) :
    (UInt32.ofNat n * (size + 1) - 1).toNat = n * (size.toNat + 1) - 1 := by
  have hpos : 1 ≤ n * (size.toNat + 1) := Nat.mul_pos hn (Nat.succ_pos _)
  have heq : UInt32.ofNat n * (size + 1) - 1 = UInt32.ofNat (n * (size.toNat + 1) - 1) := by
    rw [UInt32.ofNat_sub hpos, UInt32.ofNat_mul, UInt32.ofNat_add, UInt32.ofNat_toNat]
    rfl
  rw [heq, toNat_ofNat_of_lt (by omega)]

/-- A row of panes of one size that go into it. -/
theorem tiledRow_ok (w : LayoutWindow) (width height : UInt32) (cells : List LayoutCell)
    (hne : cells ≠ []) (htiled : ∀ c ∈ cells, layoutCellIsTiled c)
    (hwidth : ∀ c ∈ cells, c.size .leftright = width)
    (hheight : ∀ c ∈ cells, c.size .topbottom = height)
    (hroom : cells.length * (width.toNat + 1) ≤ w.sx.toNat + 1) :
    ∃ row, (∀ fuel, tiledRow w (fuel + 1) width height cells = .ok row) ∧
      GridRow w.sx height row ∧ leafPanes row = cells.flatMap leafPanes := by
  have hsum := checkSum_uniform hwidth
  have hused := toNat_used (List.length_pos_iff.mpr hne) (hroom.trans w.sx.toNat_lt)
  by_cases hle : w.sx ≤ UInt32.ofNat cells.length * (width + 1) - 1
  · -- nothing is left over
    have heq : UInt32.ofNat cells.length * (width + 1) - 1 = w.sx := by
      rw [UInt32.le_iff_toNat_le, hused] at hle
      apply UInt32.toNat.inj
      omega
    refine ⟨.node .leftright ⟨w.sx, height, 0, 0⟩ cells, fun fuel => ?_,
      gridRow_of_panes hne htiled hheight ?_, leafPanes_node _ _ _⟩
    · rw [tiledRow, if_pos hle]
      rfl
    · rw [hsum, ← heq, sub_add_cancel]
  · obtain ⟨c, hlast⟩ : ∃ c, cells.getLast? = some c := ⟨_, List.getLast?_eq_some_getLast hne⟩
    have hc := List.mem_of_getLast? hlast
    have hcells := List.dropLast_append_getLast? c hlast
    obtain ⟨c', hok, htiled', hleaves, hsize, hacross⟩ := layoutResizeAdjust_pane (htiled c hc)
      .leftright (w.sx - (UInt32.ofNat cells.length * (width + 1) - 1))
    have hforall : ∀ {P : LayoutCell → Prop}, (∀ d ∈ cells, P d) → P c' →
        ∀ d ∈ cells.dropLast ++ [c'], P d := by
      intro P hall hP d hd
      rcases List.mem_append.mp hd with hd | hd
      · exact hall d (List.mem_of_mem_dropLast hd)
      · rwa [List.mem_singleton.mp hd]
    refine ⟨.node .leftright ⟨w.sx, height, 0, 0⟩ (cells.dropLast ++ [c']), fun fuel => ?_,
      gridRow_of_panes (by simp) (hforall htiled htiled')
        (hforall hheight (hacross.trans (hheight c hc))) ?_, ?_⟩
    · rw [tiledRow, if_neg hle, (adjustLast_ok hlast (hok _ _ _) hsize).1]
      rfl
    · rw [(adjustLast_ok hlast (hok w.options 0 .root) hsize).2, hsum]
      grind
    · conv_rhs => rw [← hcells]
      rw [leafPanes_node, List.flatMap_append, List.flatMap_append, List.flatMap_singleton,
        List.flatMap_singleton, hleaves]

/-- The panes of a row, each with the change of the row. -/
theorem adjustAcross_panes (n : UInt32) (ps : List (Edge × LayoutCell))
    (h : ∀ p ∈ ps, layoutCellIsTiled p.2) :
    ∃ cells, (∀ w fuel, adjustAcross (layoutResizeAdjust w .topbottom (fuel + 1)) (asI32 n) ps =
        .ok cells) ∧
      List.Forall₂ (fun c c' => layoutCellIsTiled c' ∧ leafPanes c' = leafPanes c ∧
        c'.size .topbottom = c.size .topbottom + n ∧ c'.size .leftright = c.size .leftright)
        (ps.map Prod.snd) cells := by
  induction ps with
  | nil => exact ⟨[], fun w fuel => rfl, .nil⟩
  | cons p ps ih =>
      obtain ⟨e, c⟩ := p
      have hc := h (e, c) List.mem_cons_self
      obtain ⟨c', hok, hc'⟩ := layoutResizeAdjust_pane hc .topbottom n
      obtain ⟨cells, hoks, hcells⟩ := ih fun p hp => h p (List.mem_cons_of_mem _ hp)
      refine ⟨c' :: cells, fun w fuel => ?_, .cons hc' hcells⟩
      rw [adjustAcross, if_pos (inFlow_of_tiled hc), hok, hoks]
      rfl

theorem GridRow.grow {sx sy : UInt32} {row : LayoutCell} (h : GridRow sx sy row) (e : Edge)
    (n : UInt32) :
    ∃ row', (∀ w fuel, layoutResizeAdjust w .topbottom (fuel + 2) e row (asI32 n) = .ok row') ∧
      GridRow sx (sy + n) row' ∧ leafPanes row' = leafPanes row := by
  obtain ⟨hrow, hcheck, hsx, hsy⟩ := h
  cases row with
  | windowpane floating wp g =>
      obtain ⟨row', hok, htiled, hleaves, hsize, hacross⟩ := layoutResizeAdjust_pane (c :=
        .windowpane floating wp g) hrow .topbottom n
      refine ⟨row', fun w fuel => hok w _ e, ⟨?_, layoutCheck_of_tiled htiled,
        hacross.trans hsx, by rw [hsize, hsy]⟩, hleaves⟩
      obtain ⟨wp', g', rfl⟩ := eq_windowpane_of_tiled htiled
      rfl
  | node t g cells =>
      rw [isRow, Bool.and_eq_true, Bool.and_eq_true, List.all_eq_true, decide_eq_true_eq,
        Bool.not_eq_true', List.isEmpty_eq_false_iff] at hrow
      obtain ⟨⟨rfl, hne⟩, htiled⟩ := hrow
      obtain ⟨hcells, hsum⟩ := layoutCheck_node.mp hcheck
      obtain ⟨cells', hok, hgrown⟩ := adjustAcross_panes n (withEdges e .leftright cells)
        fun p hp => htiled p.2 (mem_of_mem_withEdges hp)
      rw [map_snd_withEdges] at hgrown
      have hsum' : checkSum .leftright cells' = checkSum .leftright cells := by
        rw [checkSum, checkSum, Lists.map_eq_of_forall₂ hgrown fun c _ c' hcc => by rw [hcc.2.2.2]]
      have hne' : cells' ≠ [] := by
        rw [← List.length_pos_iff, ← hgrown.length_eq, List.length_pos_iff]
        exact hne
      have hold : ∀ c ∈ cells, c.size .topbottom = sy := fun c hc => (hcells c hc).1.trans hsy
      have hnew : ∀ c' ∈ cells', layoutCellIsTiled c' ∧ c'.size .topbottom = sy + n := by
        intro c' hc'
        obtain ⟨c, hc, htiled', -, hsize, -⟩ := Lists.exists_of_mem_right hgrown hc'
        exact ⟨htiled', by rw [hsize, hold c hc]⟩
      refine ⟨.node .leftright ⟨sx, sy + n, g.xoff, g.yoff⟩ cells', fun w fuel => ?_,
        gridRow_of_panes hne' (fun c hc => (hnew c hc).1) (fun c hc => (hnew c hc).2) ?_, ?_⟩
      · rw [layoutResizeAdjust, if_pos (by decide), hok]
        show Except.ok _ = _
        rw [← hsx, ← hsy, ← addSize_asI32]
        rfl
      · rw [hsum', hsum, ← hsx]
        rfl
      · rw [leafPanes_node, leafPanes_node, flatMap_leafPanes_eq hgrown fun _ _ hcc => hcc.2.1]

/-! ### The grid -/

theorem tiledRows_ok {w : LayoutWindow} {n columns : Nat} {width : UInt32} (height : UInt32)
    (hcolumns : 1 ≤ columns) (hroom : columns * (width.toNat + 1) ≤ w.sx.toNat + 1) (k : Nat)
    (j : Nat) (panes : List LayoutCell)
    (hcount : (panes.filter layoutCellIsTiled).length = n - j * columns)
    (hlast : (panes.filter layoutCellIsTiled).length ≤ k * columns)
    (hfull : k * columns < (panes.filter layoutCellIsTiled).length + columns) :
    ∃ cells, (∀ fuel, tiledRows w (fuel + 1) n columns width height j k panes = .ok cells) ∧
      cells.length = k ∧ (∀ c ∈ cells, GridRow w.sx height c) ∧
      cells.flatMap leafPanes = (panes.filter layoutCellIsTiled).flatMap leafPanes := by
  induction k generalizing j panes with
  | zero =>
      have hnil : panes.filter layoutCellIsTiled = [] := by
        rw [← List.length_eq_zero_iff]
        omega
      exact ⟨[], fun fuel => rfl, rfl, fun c hc => (List.not_mem_nil hc).elim, by rw [hnil]⟩
  | succ k ih =>
      rw [Nat.succ_mul] at hlast hfull
      rcases hdrop : panes.dropWhile fun c => !layoutCellIsTiled c with _ | ⟨lcchild, cs⟩
      · -- there is a pane for every row
        rw [filter_tiled_nil hdrop, List.length_nil] at hfull
        omega
      · obtain ⟨hchild, hfilter⟩ := filter_tiled_cons hdrop
        rw [hfilter, List.length_cons] at hcount hlast hfull
        by_cases hsingle : n - j * columns = 1 ∨ columns = 1
        · -- the pane is a row of its own
          obtain ⟨cells, hok, hlen, hcells, hleaves⟩ := ih (j + 1) cs
            (by rw [Nat.succ_mul]; omega) (by rcases hsingle with h | rfl <;> omega)
            (by rcases hsingle with h | rfl <;> omega)
          obtain ⟨-, hpane, hsize⟩ := layoutSetSize_of_tiled (g := ⟨w.sx, height, 0, 0⟩) hchild
          refine ⟨layoutSetSize ⟨w.sx, height, 0, 0⟩ lcchild :: cells, fun fuel => ?_, ?_, ?_, ?_⟩
          · simp only [tiledRows, hdrop, if_pos hsingle, hok]
            rfl
          · rw [List.length_cons, hlen]
          · rw [List.forall_mem_cons]
            refine ⟨⟨?_, ?_, hsize .leftright, hsize .topbottom⟩, hcells⟩
            · obtain ⟨wp, g, rfl⟩ := eq_windowpane_of_tiled hchild
              rfl
            · exact layoutCheck_of_tiled (layoutSetSize_of_tiled hchild).1
          · rw [hfilter, List.flatMap_cons, List.flatMap_cons, hpane, hleaves]
        · obtain ⟨hrow, hleft⟩ := tiledColumns_eq width height columns hchild cs
          set rows := tiledColumns width height columns lcchild cs with hrows
          have htiled : ∀ c ∈ lcchild :: cs.filter layoutCellIsTiled, layoutCellIsTiled c := by
            rw [List.forall_mem_cons]
            exact ⟨hchild, fun c hc => List.of_mem_filter hc⟩
          have hmem : ∀ c ∈ rows.1, layoutCellIsTiled c ∧
              ∀ t, c.size t = (⟨width, height, 0, 0⟩ : Geometry).size t := by
            rw [hrow]
            intro c hc
            obtain ⟨d, hd, rfl⟩ := List.mem_map.mp hc
            obtain ⟨hset, -, hsize⟩ := layoutSetSize_of_tiled (g := ⟨width, height, 0, 0⟩)
              (htiled d (List.mem_of_mem_take hd))
            exact ⟨hset, hsize⟩
          have hpanes : rows.1.flatMap leafPanes =
              ((lcchild :: cs.filter layoutCellIsTiled).take columns).flatMap leafPanes := by
            rw [hrow, List.flatMap_map, List.flatMap_def, List.flatMap_def]
            exact congrArg List.flatten (List.map_congr_left fun c hc =>
              (layoutSetSize_of_tiled (htiled c (List.mem_of_mem_take hc))).2.1)
          obtain ⟨row, hrowok, hgrid, hrowpanes⟩ := tiledRow_ok w width height rows.1 (by
              rw [hrow, ← List.length_pos_iff, List.length_map, List.length_take, List.length_cons]
              omega)
            (fun c hc => (hmem c hc).1) (fun c hc => (hmem c hc).2 .leftright)
            (fun c hc => (hmem c hc).2 .topbottom) (by
              refine (Nat.mul_le_mul_right _ ?_).trans hroom
              rw [hrow, List.length_map]
              exact List.length_take_le _ _)
          have hlength : (rows.2.filter layoutCellIsTiled).length =
              (cs.filter layoutCellIsTiled).length + 1 - columns := by
            rw [hleft, List.length_drop, List.length_cons]
          obtain ⟨cells, hok, hlen, hcells, hleaves⟩ := ih (j + 1) rows.2
            (by rw [hlength, Nat.succ_mul]; omega) (by rw [hlength]; omega)
            (by rw [hlength]; omega)
          refine ⟨row :: cells, fun fuel => ?_, ?_, ?_, ?_⟩
          · simp only [tiledRows, hdrop, if_neg hsingle, ← hrows]
            rw [hrowok, hok]
            rfl
          · rw [List.length_cons, hlen]
          · rw [List.forall_mem_cons]
            exact ⟨hgrid, hcells⟩
          · rw [List.flatMap_cons, hrowpanes, hpanes, hleaves, hleft, hfilter,
              ← List.flatMap_append, List.take_append_drop]

theorem Moved.isRow {c c' : LayoutCell} (h : Moved c c') : isRow c' = Layout.isRow c := by
  cases h with
  | outside => rfl
  | windowpane => rfl
  | @node t g xoff yoff cells cells' hany hcells =>
      have htiled : ∀ c ∈ cells, ∀ c', Moved c c' → layoutCellIsTiled c' = layoutCellIsTiled c := by
        intro c _ c' hmoved
        cases hmoved <;> rfl
      have hmap := Lists.map_eq_of_forall₂ hcells htiled
      have hrow : ∀ cells : List LayoutCell, Layout.isRow (.node t g cells) =
          (t = .leftright && !(cells.map layoutCellIsTiled).isEmpty &&
            (cells.map layoutCellIsTiled).all id) := by
        intro cells
        rw [List.isEmpty_map, List.all_map]
        rfl
      show Layout.isRow (.node t g cells') = Layout.isRow (.node t g cells)
      rw [hrow, hrow, hmap]

theorem Moved.children {t : LayoutType} {g g' : Geometry} {cells cells' : List LayoutCell}
    (h : Moved (.node t g cells) (.node t g' cells')) : List.Forall₂ Moved cells cells' := by
  generalize hroot : LayoutCell.node t g' cells' = root at h
  cases h with
  | outside hout =>
      obtain ⟨-, -, rfl⟩ := LayoutCell.node.inj hroot
      rw [inFlow_node, List.any_eq_false] at hout
      rw [List.forall₂_same]
      exact fun c hc => .outside (Bool.eq_false_iff.mpr (hout c hc))
  | node t g xoff yoff hany hcells =>
      obtain ⟨-, -, rfl⟩ := LayoutCell.node.inj hroot
      exact hcells

theorem inFlow_of_isRow {c : LayoutCell} (h : isRow c) : inFlow c := by
  cases c with
  | windowpane floating wp g => rwa [inFlow_windowpane]
  | node t g cells =>
      rw [isRow, Bool.and_eq_true, Bool.and_eq_true, Bool.not_eq_true',
        List.isEmpty_eq_false_iff_exists_mem, List.all_eq_true] at h
      obtain ⟨⟨-, c, hc⟩, htiled⟩ := h
      rw [inFlow_node, List.any_eq_true]
      exact ⟨c, hc, inFlow_of_tiled (htiled c hc)⟩

theorem grown_eq {n size : UInt32} (h : n.toNat ≤ size.toNat) :
    (if n < size then size else n) = size := by
  split_ifs with hlt
  · rfl
  · rw [UInt32.lt_iff_toNat_lt] at hlt
    exact UInt32.toNat.inj (by omega)

/-- The rows, the last one with what is left over. -/
theorem tiledGrid_ok (w : LayoutWindow) {height : UInt32} {cells : List LayoutCell}
    (hne : cells ≠ []) (hcells : ∀ c ∈ cells, GridRow w.sx height c)
    (hroom : cells.length * (height.toNat + 1) ≤ w.sy.toNat + 1) (e : Edge) :
    ∃ cells', (∀ fuel, (if UInt32.ofNat cells.length * height + UInt32.ofNat cells.length - 1 < w.sy
        then adjustLast w.options (fuel + 2) .topbottom e cells
          (asI32 (w.sy - (UInt32.ofNat cells.length * height + UInt32.ofNat cells.length - 1)))
        else pure cells) = .ok cells') ∧
      cells'.length = cells.length ∧
      (∀ c ∈ cells', isRow c ∧ layoutCheck c ∧ c.size .leftright = w.sx) ∧
      checkSum .topbottom cells' = w.sy + 1 ∧
      cells'.flatMap leafPanes = cells.flatMap leafPanes := by
  have hsum := checkSum_uniform fun c hc => (hcells c hc).sy
  have hused := toNat_used (List.length_pos_iff.mpr hne) (hroom.trans w.sy.toNat_lt)
  rw [show UInt32.ofNat cells.length * height + UInt32.ofNat cells.length - 1 =
    UInt32.ofNat cells.length * (height + 1) - 1 by grind]
  have hrows : ∀ c ∈ cells, isRow c ∧ layoutCheck c ∧ c.size .leftright = w.sx := fun c hc =>
    ⟨(hcells c hc).row, (hcells c hc).check, (hcells c hc).sx⟩
  by_cases hlt : UInt32.ofNat cells.length * (height + 1) - 1 < w.sy
  · obtain ⟨c, hlast⟩ : ∃ c, cells.getLast? = some c := ⟨_, List.getLast?_eq_some_getLast hne⟩
    have hdrop := List.dropLast_append_getLast? c hlast
    have hc := hcells c (List.mem_of_getLast? hlast)
    obtain ⟨c', hok, hgrid, hleaves⟩ :=
      hc.grow e (w.sy - (UInt32.ofNat cells.length * (height + 1) - 1))
    have hsize : c'.size .topbottom = c.size .topbottom +
        (w.sy - (UInt32.ofNat cells.length * (height + 1) - 1)) := by
      rw [hgrid.sy, hc.sy]
    refine ⟨cells.dropLast ++ [c'], fun fuel => ?_, ?_, ?_, ?_, ?_⟩
    · rw [if_pos hlt, (adjustLast_ok hlast (hok w.options fuel) hsize).1]
    · conv_rhs => rw [← hdrop]
      rw [List.length_append, List.length_append, List.length_singleton, List.length_singleton]
    · intro d hd
      rcases List.mem_append.mp hd with hd | hd
      · exact hrows d (List.mem_of_mem_dropLast hd)
      · rw [List.mem_singleton.mp hd]
        exact ⟨hgrid.row, hgrid.check, hgrid.sx⟩
    · rw [(adjustLast_ok hlast (hok w.options 0) hsize).2, hsum]
      grind
    · conv_rhs => rw [← hdrop]
      rw [List.flatMap_append, List.flatMap_append, List.flatMap_singleton,
        List.flatMap_singleton, hleaves]
  · have heq : UInt32.ofNat cells.length * (height + 1) - 1 = w.sy := by
      rw [UInt32.lt_iff_toNat_lt, hused] at hlt
      apply UInt32.toNat.inj
      omega
    refine ⟨cells, fun fuel => ?_, rfl, hrows, ?_, rfl⟩
    · rw [if_neg hlt]
      rfl
    · rw [hsum, ← heq, sub_add_cancel]

theorem windowCountPanes_eq (w : LayoutWindow) :
    windowCountPanes w = (w.panes.filter layoutCellIsTiled).length :=
  List.countP_eq_length_filter

/-- In a window with a column and a line for every cell and every border, the tiled layout has
every tiled pane once and in order, in rows that are not empty, and fills the window. -/
theorem layoutSetTiled_grid (w : LayoutWindow) (hn : 2 ≤ windowCountPanes w) :
    ∃ rows columns, Returns (fun fuel => tiledCounts w.tiledLayoutMaxColumns (windowCountPanes w)
        fuel 1 1) (rows, columns) ∧
      (2 * columns - 1 ≤ w.sx.toNat → 2 * rows - 1 ≤ w.sy.toNat →
        ∃ cells, Returns (fun fuel => layoutSetTiled w fuel)
            (some (.node .topbottom ⟨w.sx, w.sy, 0, 0⟩ cells)) ∧
          cells.length = rows ∧ (∀ c ∈ cells, isRow c) ∧
          cells.flatMap leafPanes = (w.panes.filter layoutCellIsTiled).flatMap leafPanes ∧
          layoutCheck (.node .topbottom ⟨w.sx, w.sy, 0, 0⟩ cells)) := by
  obtain ⟨rows, columns, hcounts, hle, hrows, hcolumns, hlast⟩ :=
    tiledCounts_start w.tiledLayoutMaxColumns (n := windowCountPanes w) (by omega)
  refine ⟨rows, columns, ⟨_, fun fuel hfuel => hcounts fuel (Nat.lt_of_succ_le hfuel)⟩,
    fun hsx hsy => ?_⟩
  have hwidth := tiledSize_ok hcolumns hsx
  have hheight := tiledSize_ok hrows hsy
  obtain ⟨cells, hok, hlen, hgrid, hleaves⟩ := tiledRows_ok (n := windowCountPanes w) (w := w)
    (tiledSize w.sy rows) hcolumns hwidth rows 0 w.panes
    (by rw [Nat.zero_mul, Nat.sub_zero, windowCountPanes_eq])
    (by rw [← windowCountPanes_eq]; exact hle)
    (by
      rw [← windowCountPanes_eq]
      obtain ⟨k, rfl⟩ : ∃ k, rows = k + 1 := ⟨rows - 1, by omega⟩
      rw [Nat.add_sub_cancel] at hlast
      rw [Nat.succ_mul]
      omega)
  subst hlen
  have hne : cells ≠ [] := List.length_pos_iff.mp hrows
  obtain ⟨cells', hok', hlen', hrows', hsum, hleaves'⟩ := tiledGrid_ok w hne hgrid hheight
    (Edge.root.child .topbottom cells (cells.length - 1))
  have hgrownx : (if (tiledSize w.sx columns + 1) * UInt32.ofNat columns - 1 < w.sx then w.sx
      else (tiledSize w.sx columns + 1) * UInt32.ofNat columns - 1) = w.sx :=
    grown_eq (by
      rw [mul_comm, toNat_used hcolumns (hwidth.trans w.sx.toNat_lt)]
      omega)
  have hgrowny : (if (tiledSize w.sy cells.length + 1) * UInt32.ofNat cells.length - 1 < w.sy
      then w.sy else (tiledSize w.sy cells.length + 1) * UInt32.ofNat cells.length - 1) = w.sy :=
    grown_eq (by
      rw [mul_comm, toNat_used hrows (hheight.trans w.sy.toNat_lt)]
      omega)
  have hflow : inFlow (.node .topbottom ⟨w.sx, w.sy, 0, 0⟩ cells') := by
    obtain ⟨c, hc⟩ := List.exists_mem_of_length_pos (l := cells') (by omega)
    rw [inFlow_node, List.any_eq_true]
    exact ⟨c, hc, inFlow_of_isRow (hrows' c hc).1⟩
  have hmoved := layoutFixOffsets_moved hflow
  obtain ⟨hcheck, hfixed⟩ := layoutFixOffsets_check hflow
  obtain ⟨cells'', hroot⟩ : ∃ cells'',
      layoutFixOffsets (.node .topbottom ⟨w.sx, w.sy, 0, 0⟩ cells') =
    .node .topbottom ⟨w.sx, w.sy, 0, 0⟩ cells'' := ⟨_, rfl⟩
  rw [hroot] at hmoved hcheck hfixed
  have hcells := hmoved.children
  refine ⟨cells'', ⟨windowCountPanes w + 2, fun fuel hfuel => ?_⟩, ?_, fun c hc => ?_, ?_, ?_⟩
  · obtain ⟨fuel, rfl⟩ := Nat.exists_eq_add_of_le' (Nat.le_of_add_left_le hfuel)
    have hrowsok : tiledRows w (fuel + 2) (windowCountPanes w) columns (tiledSize w.sx columns)
        (tiledSize w.sy cells.length) 0 cells.length w.panes = .ok cells := hok (fuel + 1)
    simp only [layoutSetTiled, if_neg (show ¬ windowCountPanes w ≤ 1 by omega),
      hcounts (fuel + 2) (by omega), ok_bind, hgrownx, hgrowny, hrowsok]
    have hgrown := hok' fuel
    split_ifs at hgrown ⊢ with hused
    · rw [hgrown, ok_bind, hroot]
      rfl
    · rw [hgrown, ok_bind, hroot]
      rfl
  · rw [← hcells.length_eq, hlen']
  · obtain ⟨d, hd, hdc⟩ := Lists.exists_of_mem_right hcells hc
    rw [hdc.isRow]
    exact (hrows' d hd).1
  · rw [← leafPanes_node, hfixed, leafPanes_node, hleaves', hleaves]
  · rw [hcheck, layoutCheck_node]
    exact ⟨fun c hc => ⟨(hrows' c hc).2.2, (hrows' c hc).2.1⟩, hsum⟩

/-- Five panes and a floating one, the old sizes of which do not matter. -/
def fivePaneWindow : LayoutWindow :=
  ⟨80, 24, [.windowpane false (some 0) ⟨1, 1, 0, 0⟩, .windowpane true (some 1) ⟨20, 5, 3, 3⟩,
    .windowpane false (some 2) ⟨7, 9, 0, 0⟩, .windowpane false (some 3) ⟨80, 24, 0, 0⟩,
    .windowpane false (some 4) ⟨0, 0, 0, 0⟩, .windowpane false (some 5) ⟨1, 1, 0, 0⟩],
    .plain, ['2', '4'], ['0'], ['8', '0'], ['0'], 0⟩

theorem layoutSetTiled_grid_five :
    ∃ cells, Returns (fun fuel => layoutSetTiled fivePaneWindow fuel)
        (some (.node .topbottom ⟨80, 24, 0, 0⟩ cells)) ∧
      cells.length = 3 ∧ (∀ c ∈ cells, isRow c) ∧
      cells.flatMap leafPanes = [some 0, some 2, some 3, some 4, some 5] ∧
      layoutCheck (.node .topbottom ⟨80, 24, 0, 0⟩ cells) := by
  obtain ⟨rows, columns, hcounts, hgrid⟩ := layoutSetTiled_grid fivePaneWindow (by decide)
  have hthree : Returns (fun fuel => tiledCounts fivePaneWindow.tiledLayoutMaxColumns
      (windowCountPanes fivePaneWindow) fuel 1 1) (3, 2) := by
    refine ⟨4, fun fuel hfuel => ?_⟩
    obtain ⟨fuel, rfl⟩ := Nat.exists_eq_add_of_le' hfuel
    rfl
  obtain ⟨rfl, rfl⟩ := Prod.mk.inj (hcounts.unique hthree)
  exact hgrid (by decide) (by decide)

end Ztmux.Layout
