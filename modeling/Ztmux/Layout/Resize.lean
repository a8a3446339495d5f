import Ztmux.Layout.Cell

/-!
Resizing a layout.

`layoutResizeCheck` says how much can be taken from a cell, and
`layoutResizeAdjust` changes its size and hands the change out to the cells below
it. Everything else here moves space between two siblings or from the window.

The loop of `layoutResizeAdjust` goes round the children until nothing is left to
hand out and has no counter; it takes fuel. The children keep their place while
it runs, so each is paired with its edges once.
-/

namespace Ztmux.Layout

open LayoutCell

/-- The edges of the children of a node at `e`. -/
def Edge.children (e : Edge) (t : LayoutType) (cells : List LayoutCell) : List Edge :=
  (List.range cells.length).map (e.child t cells)

/-- The children of a node at `e` with their edges. -/
def withEdges (e : Edge) (t : LayoutType) (cells : List LayoutCell) : List (Edge × LayoutCell) :=
  (e.children t cells).zip cells

@[simp] theorem length_children (e : Edge) (t : LayoutType) (cells : List LayoutCell) :
    (e.children t cells).length = cells.length := by
  simp [Edge.children]

@[simp] theorem length_withEdges (e : Edge) (t : LayoutType) (cells : List LayoutCell) :
    (withEdges e t cells).length = cells.length := by
  simp [withEdges]

@[simp] theorem map_snd_withEdges (e : Edge) (t : LayoutType) (cells : List LayoutCell) :
    (withEdges e t cells).map Prod.snd = cells := by
  rw [withEdges, List.map_snd_zip (by simp)]

theorem mem_of_mem_withEdges {e : Edge} {t : LayoutType} {cells : List LayoutCell}
    {p : Edge × LayoutCell} (h : p ∈ withEdges e t cells) : p.2 ∈ cells := by
  rw [← map_snd_withEdges e t cells]
  exact List.mem_map_of_mem h

theorem exists_mem_withEdges {e : Edge} {t : LayoutType} {cells : List LayoutCell}
    {c : LayoutCell} (h : c ∈ cells) : ∃ p ∈ withEdges e t cells, p.2 = c := by
  rw [← map_snd_withEdges e t cells] at h
  exact List.mem_map.mp h

mutual

/-- How much size is available to be removed from a cell: along the direction of
a node what its children have together, across it what the poorest has. Floating
cells count like any other. -/
def layoutResizeCheck (w : WindowOptions) (e : Edge) : LayoutCell → LayoutType → UInt32
  | .windowpane _ _ g, type =>
      if leafMinimum w e type < g.size type then g.size type - leafMinimum w e type else 0
  | .node t _ cells, type =>
      if t = type then checkTotal w (e.children t cells) cells type
      else checkLeast w (e.children t cells) cells type (UInt32.ofNat (2 ^ 32 - 1))

def checkTotal (w : WindowOptions) : List Edge → List LayoutCell → LayoutType → UInt32
  | e :: es, c :: cs, type => layoutResizeCheck w e c type + checkTotal w es cs type
  | _, _, _ => 0

def checkLeast (w : WindowOptions) :
    List Edge → List LayoutCell → LayoutType → UInt32 → UInt32
  | e :: es, c :: cs, type, minimum =>
      let available := layoutResizeCheck w e c type
      checkLeast w es cs type (if available < minimum then available else minimum)
  | _, _, _, minimum => minimum

end

/-- What a child has to give. -/
def available (w : WindowOptions) (type : LayoutType) (p : Edge × LayoutCell) : UInt32 :=
  layoutResizeCheck w p.1 p.2 type

theorem layoutResizeCheck_windowpane (w : WindowOptions) (e : Edge) (floating : Bool)
    (wp : Option Nat) (g : Geometry) (type : LayoutType) :
    (layoutResizeCheck w e (.windowpane floating wp g) type).toNat =
      (g.size type).toNat - (leafMinimum w e type).toNat := by
  rw [layoutResizeCheck]
  split
  · rename_i h
    exact UInt32.toNat_sub_of_le _ _ (UInt32.le_of_lt h)
  · rename_i h
    have : ¬(leafMinimum w e type).toNat < (g.size type).toNat := h
    simp
    omega

/-- Along its own direction a node has what its children have together. -/
theorem layoutResizeCheck_along (w : WindowOptions) (e : Edge) (type : LayoutType) (g : Geometry)
    (cells : List LayoutCell) :
    layoutResizeCheck w e (.node type g cells) type =
      ((withEdges e type cells).map (available w type)).sum := by
  rw [layoutResizeCheck, if_pos rfl, withEdges]
  generalize e.children type cells = es
  induction es generalizing cells with
  | nil => cases cells <;> rfl
  | cons e es ih =>
      cases cells with
      | nil => rfl
      | cons c cs =>
          rw [checkTotal, ih, List.zip_cons_cons, List.map_cons, List.sum_cons, available]

theorem le_checkLeast {w : WindowOptions} {type : LayoutType} {es : List Edge}
    {cs : List LayoutCell} {minimum : UInt32} {x : Nat} :
    x ≤ (checkLeast w es cs type minimum).toNat ↔
      x ≤ minimum.toNat ∧ ∀ p ∈ es.zip cs, x ≤ (available w type p).toNat := by
  induction es generalizing cs minimum with
  | nil => cases cs <;> simp [checkLeast]
  | cons e es ih =>
      cases cs with
      | nil => simp [checkLeast]
      | cons c cs =>
          have hmin : ∀ a b : UInt32, (if a < b then a else b).toNat = min a.toNat b.toNat := by
            intro a b
            split
            · exact (Nat.min_eq_left (Nat.le_of_lt ‹_›)).symm
            · exact (Nat.min_eq_right (Nat.not_lt.mp ‹_›)).symm
          rw [checkLeast, ih, hmin, List.zip_cons_cons, List.forall_mem_cons]
          simp only [available, le_min_iff]
          constructor
          · rintro ⟨⟨hc, hm⟩, hcs⟩
            exact ⟨hm, hc, hcs⟩
          · rintro ⟨hm, hc, hcs⟩
            exact ⟨⟨hc, hm⟩, hcs⟩

/-- Across it a node has what every child has. -/
theorem le_layoutResizeCheck_across {w : WindowOptions} {e : Edge} {t type : LayoutType}
    (ht : t ≠ type) {g : Geometry} {cells : List LayoutCell} {x : Nat} (hx : x < 2 ^ 32) :
    x ≤ (layoutResizeCheck w e (.node t g cells) type).toNat ↔
      ∀ p ∈ withEdges e t cells, x ≤ (available w type p).toNat := by
  rw [layoutResizeCheck, if_neg ht, le_checkLeast, withEdges]
  have hmax : (UInt32.ofNat (2 ^ 32 - 1)).toNat = 2 ^ 32 - 1 := rfl
  rw [hmax]
  exact and_iff_right (by omega)

/-- One pass of the loop over the children: each in the tiled flow gets one unit of
the change, or gives one if it has one to give. -/
def adjustPass (w : WindowOptions) (type : LayoutType)
    (adjust : Edge → LayoutCell → Int → Exec LayoutCell) :
    List (Edge × LayoutCell) → Int → Exec (List (Edge × LayoutCell) × Int)
  | [], change => pure ([], change)
  | (e, c) :: cells, change =>
      if change = 0 then pure ((e, c) :: cells, 0)
      else if !inFlow c then do
        let (cells, change) ← adjustPass w type adjust cells change
        pure ((e, c) :: cells, change)
      else if 0 < change then do
        let c ← adjust e c 1
        let (cells, change) ← adjustPass w type adjust cells (change - 1)
        pure ((e, c) :: cells, change)
      else if 0 < layoutResizeCheck w e c type then do
        let c ← adjust e c (-1)
        let (cells, change) ← adjustPass w type adjust cells (change + 1)
        pure ((e, c) :: cells, change)
      else do
        let (cells, change) ← adjustPass w type adjust cells change
        pure ((e, c) :: cells, change)

/-- The loop: pass over the children while any change is left. -/
def adjustLoop (w : WindowOptions) (type : LayoutType)
    (adjust : Edge → LayoutCell → Int → Exec LayoutCell) :
    Nat → List (Edge × LayoutCell) → Int → Exec (List (Edge × LayoutCell))
  | 0, cells, change => if change = 0 then pure cells else throw .outOfFuel
  | fuel + 1, cells, change =>
      if change = 0 then pure cells
      else do
        let (cells, change) ← adjustPass w type adjust cells change
        adjustLoop w type adjust fuel cells change

/-- Children that run in a different direction all take the whole change. -/
def adjustAcross (adjust : Edge → LayoutCell → Int → Exec LayoutCell) (change : Int) :
    List (Edge × LayoutCell) → Exec (List LayoutCell)
  | [] => pure []
  | (e, c) :: cells => do
      let c ← if inFlow c then adjust e c change else pure c
      let cells ← adjustAcross adjust change cells
      pure (c :: cells)

/-- Adjust the size of a cell evenly, including altering its children. -/
def layoutResizeAdjust (w : WindowOptions) (type : LayoutType) :
    Nat → Edge → LayoutCell → Int → Exec LayoutCell
  | 0, _, _, _ => throw .outOfFuel
  | _ + 1, _, .windowpane floating wp g, change =>
      pure (.windowpane floating wp (g.addSize type change))
  | fuel + 1, e, .node t g cells, change =>
      if t ≠ type then do
        let cells ← adjustAcross (layoutResizeAdjust w type fuel) change (withEdges e t cells)
        pure (.node t (g.addSize type change) cells)
      else if !layoutCellHasTiledChild (.node t g cells) then
        -- A node with no tiled cells has nothing to adjust.
        pure (.node t (g.addSize type change) cells)
      else do
        let cells ← adjustLoop w type (layoutResizeAdjust w type fuel) fuel
          (withEdges e t cells) change
        pure (.node t (g.addSize type change) (cells.map Prod.snd))

/-! ### The window -/

/-- The change of the root when the window gets size `s`: down to what can be
taken, and nothing at all when that is nothing. -/
def resizeChange (w : WindowOptions) (root : LayoutCell) (type : LayoutType) (s : UInt32) : Int :=
  let change := wrapI32 (asI32 s - asI32 (root.size type))
  let limit := asI32 (layoutResizeCheck w .root root type)
  let change := if change < 0 ∧ change < wrapI32 (-limit) then wrapI32 (-limit) else change
  if limit = 0 then
    if s ≤ root.size type then 0 else wrapI32 (asI32 s - asI32 (root.size type))
  else change

def resizeAlong (w : WindowOptions) (fuel : Nat) (root : LayoutCell) (type : LayoutType)
    (s : UInt32) : Exec LayoutCell :=
  let change := resizeChange w root type s
  if change ≠ 0 then layoutResizeAdjust w type fuel .root root change else pure root

def layoutResize (w : WindowOptions) (fuel : Nat) (root : LayoutCell) (sx sy : UInt32) :
    Exec LayoutCell := do
  let root ← resizeAlong w fuel root .leftright sx
  let root ← resizeAlong w fuel root .topbottom sy
  pure (layoutFixOffsets root)

/-! ### Siblings -/

/-- Adjust sibling `i`. -/
def adjustSibling (w : WindowOptions) (fuel : Nat) (type : LayoutType)
    (cells : List (Edge × LayoutCell)) (i : Nat) (change : Int) :
    Exec (List (Edge × LayoutCell)) :=
  match cells[i]? with
  | none => throw .nullPointer
  | some (e, c) => do
      let c ← layoutResizeAdjust w type fuel e c change
      pure (cells.set i (e, c))

/-- Look towards the tail from sibling `i` for a cell with space. -/
def donorTail (w : WindowOptions) (type : LayoutType) (cells : List (Edge × LayoutCell))
    (i : Nat) : Option Nat :=
  ((cells.drop (i + 1)).findIdx? fun p => 0 < available w type p).map (i + 1 + ·)

/-- Look towards the head from below index `i` for a cell with space. -/
def donorHead (w : WindowOptions) (type : LayoutType) (cells : List (Edge × LayoutCell))
    (i : Nat) : Option Nat :=
  ((cells.take i).reverse.findIdx? fun p => 0 < available w type p).map (i - 1 - ·)

theorem donorTail_eq_some {w : WindowOptions} {type : LayoutType}
    {cells : List (Edge × LayoutCell)} {i j : Nat} (h : donorTail w type cells i = some j) :
    i < j ∧ ∃ p, cells[j]? = some p ∧ 0 < available w type p := by
  obtain ⟨k, hk, rfl⟩ := Option.map_eq_some_iff.mp h
  obtain ⟨hlt, hp, -⟩ := List.findIdx?_eq_some_iff_getElem.mp hk
  have hget : cells[i + 1 + k]? = some (cells.drop (i + 1))[k] := by
    rw [← List.getElem?_drop, List.getElem?_eq_getElem hlt]
  exact ⟨by omega, _, hget, of_decide_eq_true hp⟩

theorem donorHead_eq_some {w : WindowOptions} {type : LayoutType}
    {cells : List (Edge × LayoutCell)} {i j : Nat} (hi : i ≤ cells.length)
    (h : donorHead w type cells i = some j) :
    j < i ∧ ∃ p, cells[j]? = some p ∧ 0 < available w type p := by
  obtain ⟨k, hk, rfl⟩ := Option.map_eq_some_iff.mp h
  obtain ⟨hlt, hp, -⟩ := List.findIdx?_eq_some_iff_getElem.mp hk
  have hk' : k < i := by simpa [Nat.min_eq_left hi] using hlt
  have hget : cells[i - 1 - k]? = some (cells.take i).reverse[k] := by
    rw [List.getElem_reverse, ← List.getElem?_eq_getElem, List.getElem?_take_of_lt]
    · simp [Nat.min_eq_left hi]
    · simp [Nat.min_eq_left hi]
      omega
  exact ⟨by omega, _, hget, of_decide_eq_true hp⟩

/-- Move `size` from sibling `lcremove` to sibling `lcadd`. -/
def transfer (w : WindowOptions) (fuel : Nat) (type : LayoutType)
    (cells : List (Edge × LayoutCell)) (lcadd lcremove : Nat) (size : UInt32) :
    Exec (List (Edge × LayoutCell) × Int) := do
  let cells ← adjustSibling w fuel type cells lcadd (asI32 size)
  let cells ← adjustSibling w fuel type cells lcremove (wrapI32 (-asI32 size))
  pure (cells, asI32 size)

/-- The cell that growing sibling `i` takes from. -/
def growDonor (w : WindowOptions) (type : LayoutType) (cells : List (Edge × LayoutCell))
    (i : Nat) (opposite : Bool) : Option Nat :=
  (donorTail w type cells i).or (if opposite then donorHead w type cells i else none)

/-- Grow sibling `i` by at most `needed`; the answer is by how much. -/
def layoutResizePaneGrow (w : WindowOptions) (fuel : Nat) (type : LayoutType)
    (cells : List (Edge × LayoutCell)) (i : Nat) (needed : Int) (opposite : Bool) :
    Exec (List (Edge × LayoutCell) × Int) :=
  match growDonor w type cells i opposite with
  | none => pure (cells, 0)
  | some lcremove =>
      let size := match cells[lcremove]? with
        | some p => available w type p
        | none => 0
      let size := if UInt32.ofInt needed < size then UInt32.ofInt needed else size
      transfer w fuel type cells i lcremove size

/-- Shrink sibling `i` by at most `-needed`. The space comes from it or from a
cell before it and goes to the next one. -/
def layoutResizePaneShrink (w : WindowOptions) (fuel : Nat) (type : LayoutType)
    (cells : List (Edge × LayoutCell)) (i : Nat) (needed : Int) :
    Exec (List (Edge × LayoutCell) × Int) :=
  match donorHead w type cells (i + 1) with
  | none => pure (cells, 0)
  | some lcremove =>
      if i + 1 < cells.length then
        let size := match cells[lcremove]? with
          | some p => available w type p
          | none => 0
        let size := if UInt32.ofInt (-needed) < size then UInt32.ofInt (-needed) else size
        transfer w fuel type cells (i + 1) lcremove size
      else pure (cells, 0)

/-- Grow or shrink sibling `i` until `needed` is reached or no more change is
possible. -/
def resizeSibling (w : WindowOptions) (type : LayoutType) (i : Nat) (change : Int)
    (opposite : Bool) :
    Nat → List (Edge × LayoutCell) → Int → Exec (List (Edge × LayoutCell))
  | 0, cells, needed => if needed = 0 then pure cells else throw .outOfFuel
  | fuel + 1, cells, needed =>
      if needed = 0 then pure cells
      else if 0 < change then do
        let (cells, size) ← layoutResizePaneGrow w fuel type cells i needed opposite
        if size = 0 then pure cells
        else resizeSibling w type i change opposite fuel cells (wrapI32 (needed - size))
      else do
        let (cells, size) ← layoutResizePaneShrink w fuel type cells i needed
        if size = 0 then pure cells
        else resizeSibling w type i change opposite fuel cells (wrapI32 (needed + size))

def resizeRound (w : WindowOptions) (type : LayoutType) (i : Nat) (change : Int) (opposite : Bool)
    (fuel : Nat) (cells : List (Edge × LayoutCell)) (needed : Int) :
    Exec (List (Edge × LayoutCell) × Int) :=
  if 0 < change then layoutResizePaneGrow w fuel type cells i needed opposite
  else layoutResizePaneShrink w fuel type cells i needed

theorem resizeSibling_succ (w : WindowOptions) (type : LayoutType) (i : Nat) {change : Int}
    (opposite : Bool) (fuel : Nat) (cells : List (Edge × LayoutCell)) {needed : Int}
    (h : needed ≠ 0) :
    resizeSibling w type i change opposite (fuel + 1) cells needed =
      resizeRound w type i change opposite fuel cells needed >>= fun r =>
        if r.2 = 0 then pure r.1
        else resizeSibling w type i change opposite fuel r.1
          (wrapI32 (if 0 < change then needed - r.2 else needed + r.2)) := by
  rw [resizeSibling, if_neg h, resizeRound]
  split <;> rfl

/-! ### Cells by their path -/

/-- Rewrite the children of the node at a path. A path that leads to no node is a
pointer to nothing. -/
def modifyNode (f : Edge → LayoutType → List LayoutCell → Exec (List LayoutCell)) :
    List Nat → Edge → LayoutCell → Exec LayoutCell
  | _, _, .windowpane _ _ _ => throw .nullPointer
  | [], e, .node t g cells => do
      let cells ← f e t cells
      pure (.node t g cells)
  | i :: path, e, .node t g cells =>
      match cells[i]? with
      | none => throw .nullPointer
      | some c => do
          let c ← modifyNode f path (e.child t cells i) c
          pure (.node t g (cells.set i c))

/-- Resize child `i` of the node at `path`. -/
def layoutResizeLayout (w : WindowOptions) (fuel : Nat) (root : LayoutCell) (path : List Nat)
    (i : Nat) (type : LayoutType) (change : Int32) (opposite : Bool) : Exec LayoutCell := do
  let root ← modifyNode (fun e t cells => do
    let cells ← resizeSibling w type i change.toInt opposite fuel (withEdges e t cells)
      change.toInt
    pure (cells.map Prod.snd)) path .root root
  pure (layoutFixOffsets root)

/-- Find the next parent of `type` above the cell at a path: the path of the parent
and the index of the child that was come from. -/
def typedParent (type : LayoutType) : List Nat → LayoutCell → Option (List Nat × Nat)
  | i :: path, .node t _ cells =>
      match cells[i]? with
      | none => none
      | some c =>
          match typedParent type path c with
          | some (up, j) => some (i :: up, j)
          | none => if t = type then some ([], i) else none
  | _, _ => none

/-- The number of children of the node at a path. -/
def childCount : List Nat → LayoutCell → Nat
  | [], .node _ _ cells => cells.length
  | i :: path, .node _ _ cells =>
      match cells[i]? with
      | none => 0
      | some c => childCount path c
  | _, .windowpane _ _ _ => 0

/-- Resize the pane in the cell at `path`. -/
def layoutResizePane (w : WindowOptions) (fuel : Nat) (root : LayoutCell) (path : List Nat)
    (type : LayoutType) (change : Int32) (opposite : Bool) : Exec LayoutCell :=
  match typedParent type path root with
  | none => pure root
  | some (up, i) =>
      if i + 1 = childCount up root then
        -- If this is the last cell, move back one. The first has none before it, and
        -- a null cell is only looked at when there is a change to make.
        if i = 0 then
          if change = 0 then pure (layoutFixOffsets root) else throw .nullPointer
        else layoutResizeLayout w fuel root up (i - 1) type change opposite
      else layoutResizeLayout w fuel root up i type change opposite

end Ztmux.Layout
