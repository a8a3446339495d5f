import Ztmux.Layout.HandedOn

/-!
Layouts that have been installed.

What is installed has the shape of what the text describes, with as many leaves kept as there are
panes. Resizing follows a pointer to nothing when a pane is the only cell of the nearest node of a
type, which is a matter of the shape: neither the check of the sizes nor the grammar keeps such
nodes out.
-/

namespace Ztmux.Layout

open LayoutCell

variable {type : LayoutType}

/-! ### Panes with siblings -/

section

variable {i : Nat} {path : List Nat} {t : LayoutType} {g : Geometry} {cells : List LayoutCell}
    {c : LayoutCell}

theorem typedParent_found {up : List Nat} {j : Nat} (hc : cells[i]? = some c)
    (h : typedParent type path c = some (up, j)) :
    typedParent type (i :: path) (.node t g cells) = some (i :: up, j) := by
  rw [typedParent, hc]
  dsimp only
  rw [h]

theorem typedParent_here (hc : cells[i]? = some c) (h : typedParent type path c = none) :
    typedParent type (i :: path) (.node t g cells) = if t = type then some ([], i) else none := by
  rw [typedParent, hc]
  dsimp only
  rw [h]

theorem cellAt_cons (hc : cells[i]? = some c) :
    cellAt (i :: path) (.node t g cells) = cellAt path c := by
  rw [cellAt, hc]

theorem childCount_cons (hc : cells[i]? = some c) :
    childCount (i :: path) (.node t g cells) = childCount path c := by
  rw [childCount, hc]

/-- A cell below a node is below one of its children. -/
theorem exists_of_cellAt {d : LayoutCell} (h : cellAt (i :: path) (.node t g cells) = some d) :
    ∃ c, cells[i]? = some c ∧ cellAt path c = some d := by
  rw [cellAt] at h
  cases hi : cells[i]? with
  | none =>
      rw [hi] at h
      cases h
  | some c =>
      rw [hi] at h
      exact ⟨c, rfl, h⟩

end

/-- A leaf is exposed when no node of the type is found on the way up from it. -/
theorem exposed_iff (c : LayoutCell) : c.shape.Exposed type ↔
    ∃ path floating wp g, cellAt path c = some (.windowpane floating wp g) ∧
    typedParent type path c = none := by
  induction c with
  | windowpane floating wp g => exact ⟨fun _ => ⟨[], floating, wp, g, rfl, rfl⟩, fun _ => .leaf⟩
  | node t g cells ih =>
      rw [shape_node]
      constructor
      · intro h
        cases h with
        | within ht hs hexposed =>
            obtain ⟨c, hc, rfl⟩ := List.mem_map.mp hs
            obtain ⟨path, floating, wp, g', hcell, hnone⟩ := (ih c hc).mp hexposed
            obtain ⟨i, hi⟩ := List.getElem?_of_mem hc
            refine ⟨i :: path, floating, wp, g', ?_, ?_⟩
            · rw [cellAt_cons hi, hcell]
            · rw [typedParent_here hi hnone, if_neg ht]
      · rintro ⟨path, floating, wp, g', hcell, hnone⟩
        cases path with
        | nil => cases hcell
        | cons i path =>
            obtain ⟨c, hi, hleaf⟩ := exists_of_cellAt hcell
            have hc := List.mem_of_getElem? hi
            cases hbelow : typedParent type path c with
            | some found =>
                rw [typedParent_found hi hbelow] at hnone
                cases hnone
            | none =>
                rw [typedParent_here hi hbelow] at hnone
                have ht : t ≠ type := fun ht => by
                  rw [if_pos ht] at hnone
                  cases hnone
                exact .within ht (List.mem_map_of_mem hc)
                  ((ih c hc).mpr ⟨path, floating, wp, g', hleaf, hbelow⟩)

theorem hasSiblings_iff_shared (root : LayoutCell) : HasSiblings root ↔ root.shape.Shared := by
  induction root with
  | windowpane floating wp g =>
      refine ⟨fun _ => .leaf, fun _ path floating wp g' _ type up i h => ?_⟩
      cases path <;> cases h
  | node t g cells ih =>
      rw [shape_node]
      constructor
      · intro h
        refine .node (fun s hs hexposed => ?_) fun s hs => ?_
        · obtain ⟨c, rfl, rfl⟩ := List.map_eq_singleton_iff.mp hs
          obtain ⟨path, floating, wp, g', hcell, hnone⟩ := (exposed_iff c).mp hexposed
          have hone :=
            h (0 :: path) floating wp g' hcell t [] 0
              (by rw [typedParent_here rfl hnone, if_pos rfl])
          exact absurd hone (lt_irrefl 1)
        · obtain ⟨c, hc, rfl⟩ := List.mem_map.mp hs
          obtain ⟨i, hi⟩ := List.getElem?_of_mem hc
          refine (ih c hc).mp fun path floating wp g' hcell type up j hfound => ?_
          have hmore :=
            h (i :: path) floating wp g' (by rw [cellAt_cons hi, hcell]) type (i :: up) j
            (typedParent_found hi hfound)
          rwa [childCount_cons hi] at hmore
      · intro h path floating wp g' hcell type up j hfound
        cases h with
        | node honly hshared =>
            cases path with
            | nil => cases hcell
            | cons i path =>
                obtain ⟨c, hi, hleaf⟩ := exists_of_cellAt hcell
                have hc := List.mem_of_getElem? hi
                cases hbelow : typedParent type path c with
                | some found =>
                    rw [typedParent_found hi hbelow] at hfound
                    obtain ⟨rfl, rfl⟩ := Prod.mk.inj (Option.some.inj hfound)
                    rw [childCount_cons hi]
                    exact (ih c hc).mpr (hshared _ (List.mem_map_of_mem hc)) path floating wp g'
                      hleaf type _ _ hbelow
                | none =>
                    rw [typedParent_here hi hbelow] at hfound
                    split_ifs at hfound with ht
                    obtain ⟨rfl, -⟩ := Prod.mk.inj (Option.some.inj hfound)
                    by_contra hfew
                    obtain ⟨x, hx⟩ : ∃ x, cells = [x] := List.length_eq_one_iff.mp <| by
                      have hpos := List.length_pos_of_mem hc
                      rw [childCount] at hfew
                      omega
                    subst hx
                    obtain rfl := List.mem_singleton.mp hc
                    subst ht
                    exact honly _ rfl ((exposed_iff c).mpr ⟨path, floating, wp, g', hleaf, hbelow⟩)

/-! ### What is installed -/

mutual

theorem shape_layoutFixOffsets1 (xoff yoff : Int32) : ∀ c :
    LayoutCell, (layoutFixOffsets1 xoff yoff c).shape = c.shape
  | .windowpane floating wp g => rfl
  | .node t g cells =>
      by rw [layoutFixOffsets1, LayoutCell.shape, LayoutCell.shape, shapes_fixOffsetsFrom]

theorem shapes_fixOffsetsFrom (t : LayoutType) (xoff yoff : Int32) :
    ∀ cells : List LayoutCell, shapes (fixOffsetsFrom t xoff yoff cells) = shapes cells
  | [] => rfl
  | c :: cells => by
      rw [fixOffsetsFrom]
      split
      · rw [shapes, shapes, shape_layoutFixOffsets1, shapes_fixOffsetsFrom]
      · rw [shapes, shapes, shapes_fixOffsetsFrom]

end

/-- A node without cells and without a size is not accepted. -/
theorem Emptied.not_layoutCheck {c : LayoutCell} (h : Emptied c) : ¬ layoutCheck c := by
  induction h with
  | @here t =>
      rw [layoutCheck, checkCells]
      cases t <;> decide
  | within _ ih =>
      intro h
      rw [layoutCheck_node] at h
      exact ih (h.1 _ (List.mem_append_right _ (List.mem_singleton_self _))).2

theorem Emptied.not_layoutCheck_fixTopSize {c : LayoutCell} (h : Emptied c)
    (hcount : 0 < layoutCountCells c) :
    ¬ layoutCheck (fixTopSize c) := by
  cases h with
  | here => exact absurd hcount (lt_irrefl 0)
  | @within t g front c h =>
      have hnode : ∃ g', fixTopSize (.node t g (front ++ [c])) = .node t g' (front ++ [c]) := by
        cases t <;> simp only [fixTopSize] <;> split <;> exact ⟨_, rfl⟩
      obtain ⟨g', hg'⟩ := hnode
      rw [hg', layoutCheck_node]
      intro hcheck
      exact h.not_layoutCheck (hcheck.1 _ (List.mem_append_right _ (List.mem_singleton_self _))).2

section

variable {scan : Sscanf} {w : WindowOptions} {fuel n rounds : Nat} {root root' : LayoutCell}

theorem closeBottomright_count (h : closeBottomright w fuel n rounds root = .ok (.ok root')) :
    layoutCountCells root' = n ∧ n ≤ layoutCountCells root := by
  induction rounds generalizing root with
  | zero => cases h
  | succ rounds ih =>
      rw [closeBottomright] at h
      split_ifs at h with hfew hcount
      · cases h
      · obtain rfl := Except.ok.inj (Except.ok.inj h)
        exact ⟨hcount.symm, hcount.le⟩
      · cases hpath : layoutFindBottomright root with
        | none =>
            rw [hpath] at h
            cases h
        | some path =>
            rw [hpath] at h
            obtain ⟨r, hr, h⟩ := bind_eq_ok.mp h
            cases r with
            | none => cases h
            | some root₁ => exact ⟨(ih h).1, by omega⟩

/-- What `layout_parse` does after the text has been read. -/
theorem layoutParse_cells {panes : List Nat} {text rest : Text} {c : LayoutCell}
    (h : layoutParse scan w fuel panes text = .ok (.ok root))
    (hread : layoutConstruct scan fuel (text.drop 5) = .ok (some (c, rest))) :
    ∃ closed, closeBottomright w fuel panes.length fuel c = .ok (.ok closed) ∧
    layoutCheck (fixTopSize closed) ∧
      root.shape = closed.shape := by
  rw [layoutParse] at h
  cases hx : scan.hx text with
  | none =>
      rw [hx] at h
      cases h
  | some csum =>
      rw [hx] at h
      dsimp only at h
      split_ifs at h
      · cases h
      · rw [hread] at h
        obtain ⟨q, hq, h⟩ := bind_eq_ok.mp h
        obtain rfl := Except.ok.inj hq
        dsimp only at h
        split_ifs at h
        · cases h
        · obtain ⟨r, hr, h⟩ := bind_eq_ok.mp h
          cases r with
          | error cause => cases h
          | ok closed =>
              refine ⟨closed, hr, ?_⟩
              dsimp only at h
              split_ifs at h with hcheck
              · cases h
              · obtain ⟨q, hq, h⟩ := bind_eq_ok.mp h
                obtain rfl := Except.ok.inj (Except.ok.inj h)
                refine ⟨by simpa using hcheck, ?_⟩
                rw [layoutFixOffsets, shape_layoutFixOffsets1, shape_layoutAssign hq,
                  shape_fixTopSize]

/-- The panes of a layout that has been installed can be resized if and only if, of the leaves the
text describes and there are panes for, none is without a sibling in the nearest node of a type. -/
theorem layoutParse_resizable_iff {panes : List Nat} {text rest : Text} {c : LayoutCell}
    (h : layoutParse scan w fuel panes text = .ok (.ok root))
    (hread : layoutConstruct scan fuel (text.drop 5) = .ok (some (c, rest))) :
    Resizable w root ↔ (c.shape.keep panes.length).Shared := by
  obtain ⟨closed, hclose, hcheck, hshape⟩ := layoutParse_cells h hread
  obtain ⟨hcount, hle⟩ := closeBottomright_count hclose
  rw [resizable_iff, hasSiblings_iff_shared, hshape]
  rcases Nat.eq_zero_or_pos panes.length with hzero | hpos
  · rw [hzero] at hcount ⊢
    rw [layoutCountCells_eq_leaves] at hcount
    exact iff_of_true (Shape.shared_of_leaves_eq_zero hcount) (Shape.shared_keep_zero _)
  · have hsolid := (layoutConstruct_solid fuel).1 _ _ _ hread
    obtain ⟨root', hroot, -, ⟨-, -, hkeep⟩ | ⟨-, hempty⟩⟩ :=
      (closeBottomright_spec hsolid hpos hle).2 _ hclose
    · rw [Except.ok.inj hroot, hkeep]
    · obtain rfl := Except.ok.inj hroot
      exact absurd hcheck (hempty.not_layoutCheck_fixTopSize (by omega))

end

/-- Two columns with their panes. -/
def twoPanes : LayoutCell :=
  .node .leftright ⟨81, 24, 0, 0⟩ [.windowpane false (some 7) ⟨40, 24, 0, 0⟩,
    .windowpane false (some 8) ⟨40, 24, 41, 0⟩]

theorem twoPanes_resizable : Resizable .plain twoPanes := by
  have hread : layoutConstruct conversions 4
      ("3046,81x24,0,0\x7b40x24,0,0,40x24,41,0\x7d".toList.drop 5) =
      .ok (some (twoColumns, [])) := twoColumns_read
  have hparse : layoutParse conversions .plain 4 [7, 8]
      "3046,81x24,0,0\x7b40x24,0,0,40x24,41,0\x7d".toList =
      .ok (.ok twoPanes) := by
    have hx : conversions.hx "3046,81x24,0,0\x7b40x24,0,0,40x24,41,0\x7d".toList = some 12358 := rfl
    rw [layoutParse, hx]
    dsimp only
    rw [if_neg (by decide), if_neg (by decide +kernel), hread]
    rfl
  have hkeep : twoColumns.shape.keep 2 = .node .leftright [.leaf false, .leaf false] := rfl
  refine (layoutParse_resizable_iff hparse hread).mpr ?_
  rw [show [7, 8].length = 2 from rfl, hkeep]
  refine .node (fun c hc => ?_) fun c hc => ?_
  · cases hc
  · obtain rfl : c = .leaf false := by simpa using hc
    exact .leaf

/-- One pane in a node of its own. -/
def onePane : LayoutCell :=
  .node .leftright ⟨80, 24, 0, 0⟩ [.windowpane false (some 7) ⟨80, 24, 0, 0⟩]

theorem onePane_not_resizable :
    layoutParse conversions .plain 3 [7] "2452,80x24,0,0\x7b80x24,0,0,0\x7d".toList =
      .ok (.ok onePane) ∧
      layoutResizePane .plain 3 onePane [0] .leftright 1 false = .error .nullPointer ∧
      ¬ Resizable .plain onePane := by
  refine ⟨?_, rfl, fun h => h [0] false (some 7) ⟨80, 24, 0, 0⟩ rfl 3 .leftright 1 false rfl⟩
  have hread : layoutConstruct conversions 3 "80x24,0,0\x7b80x24,0,0,0\x7d".toList =
      .ok (some (.node .leftright ⟨80, 24, 0, 0⟩ [.windowpane false none ⟨80, 24, 0, 0⟩], [])) := by
    have hcell : layoutConstruct conversions 1 "80x24,0,0,0\x7d".toList =
        .ok (some (.windowpane false none ⟨80, 24, 0, 0⟩, "\x7d".toList)) := rfl
    exact layoutConstruct_cells rfl rfl rfl rfl rfl (constructCells_only hcell rfl) rfl
  have hx : conversions.hx "2452,80x24,0,0\x7b80x24,0,0,0\x7d".toList = some 9298 := rfl
  have hdrop : "2452,80x24,0,0\x7b80x24,0,0,0\x7d".toList.drop 5 =
      "80x24,0,0\x7b80x24,0,0,0\x7d".toList := rfl
  rw [layoutParse, hx]
  dsimp only
  rw [if_neg (by decide), if_neg (by decide +kernel), hdrop, hread]
  rfl

end Ztmux.Layout
