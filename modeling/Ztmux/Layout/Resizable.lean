import Ztmux.Layout.Custom

/-!
Cells that can be resized.

A pane is resized with the other children of the nearest node of the type above it. When its cell is
the last child the one before it is taken, and there is none when it is the only one. A layout can
be read in which a node has one child.
-/

namespace Ztmux.Layout

/-- No pointer to nothing is followed. -/
def NoNull {α : Type} (x : Exec α) : Prop := x ≠ .error .nullPointer

section

variable {α β : Type} {w : WindowOptions} {type : LayoutType}

theorem noNull_pure (a : α) : NoNull (pure a : Exec α) := fun h => (nomatch h)

theorem noNull_outOfFuel : NoNull (throw .outOfFuel : Exec α) := fun h => (nomatch h)

theorem NoNull.bind {x : Exec α} {f : α → Exec β} (hx : NoNull x)
    (hf : ∀ a, x = .ok a → NoNull (f a)) :
    NoNull (x >>= f) := by
  cases x with
  | error fault =>
      intro h
      exact hx (congrArg Except.error (Except.error.inj h))
  | ok a => exact hf a rfl

/-! ### Adjusting -/

theorem adjustPass_noNull {adjust : Edge → LayoutCell → Int → Exec LayoutCell}
    (h : ∀ e c n, NoNull (adjust e c n))
    (cells : List (Edge × LayoutCell)) (change : Int) :
    NoNull (adjustPass w type adjust cells change) := by
  induction cells generalizing change with
  | nil => exact noNull_pure _
  | cons p cells ih =>
      rw [adjustPass]
      split_ifs
      · exact noNull_pure _
      · exact (ih _).bind fun _ _ => noNull_pure _
      · exact (h _ _ _).bind fun _ _ => (ih _).bind fun _ _ => noNull_pure _
      · exact (h _ _ _).bind fun _ _ => (ih _).bind fun _ _ => noNull_pure _
      · exact (ih _).bind fun _ _ => noNull_pure _

theorem adjustLoop_noNull {adjust : Edge → LayoutCell → Int → Exec LayoutCell}
    (h : ∀ e c n, NoNull (adjust e c n))
    (fuel : Nat) (cells : List (Edge × LayoutCell)) (change : Int) :
    NoNull (adjustLoop w type adjust fuel cells change) := by
  induction fuel generalizing cells change with
  | zero =>
      rw [adjustLoop]
      split_ifs
      · exact noNull_pure _
      · exact noNull_outOfFuel
  | succ fuel ih =>
      rw [adjustLoop]
      split_ifs
      · exact noNull_pure _
      · exact (adjustPass_noNull h _ _).bind fun _ _ => ih _ _

theorem adjustAcross_noNull {adjust : Edge → LayoutCell → Int → Exec LayoutCell}
    (h : ∀ e c n, NoNull (adjust e c n))
    (change : Int) (cells : List (Edge × LayoutCell)) :
    NoNull (adjustAcross adjust change cells) := by
  induction cells with
  | nil => exact noNull_pure _
  | cons p cells ih =>
      rw [adjustAcross]
      split_ifs
      · exact (h _ _ _).bind fun _ _ => ih.bind fun _ _ => noNull_pure _
      · exact (noNull_pure _).bind fun _ _ => ih.bind fun _ _ => noNull_pure _

theorem layoutResizeAdjust_noNull (fuel : Nat) (e : Edge) (c : LayoutCell) (change : Int) :
    NoNull (layoutResizeAdjust w type fuel e c change) := by
  induction fuel generalizing e c change with
  | zero => exact noNull_outOfFuel
  | succ fuel ih =>
      cases c with
      | windowpane floating wp g => exact noNull_pure _
      | node t g cells =>
          rw [layoutResizeAdjust]
          split_ifs
          · exact (adjustAcross_noNull ih _ _).bind fun _ _ => noNull_pure _
          · exact noNull_pure _
          · exact (adjustLoop_noNull ih _ _ _).bind fun _ _ => noNull_pure _

/-! ### Siblings -/

variable {cells : List (Edge × LayoutCell)} {fuel i : Nat}

theorem adjustSibling_noNull (hi : i < cells.length) (change : Int) :
    NoNull (adjustSibling w fuel type cells i change) := by
  rw [adjustSibling, List.getElem?_eq_getElem hi]
  exact (layoutResizeAdjust_noNull _ _ _ _).bind fun _ _ => noNull_pure _

theorem adjustSibling_length {cells' : List (Edge × LayoutCell)} {change : Int}
    (h : adjustSibling w fuel type cells i change = .ok cells') : cells'.length = cells.length := by
  rw [adjustSibling] at h
  cases hget : cells[i]? with
  | none =>
      rw [hget] at h
      cases h
  | some p =>
      rw [hget] at h
      obtain ⟨c, -, hpure⟩ := bind_eq_ok.mp h
      rw [← Except.ok.inj hpure, List.length_set]

/-- What a round keeps: the number of siblings. -/
def KeepsLength (cells : List (Edge × LayoutCell)) (x : Exec (List (Edge × LayoutCell) × Int)) :
    Prop :=
  NoNull x ∧ ∀ r, x = .ok r → r.1.length = cells.length

theorem keepsLength_none : KeepsLength cells (pure (cells, 0)) :=
  ⟨noNull_pure _, fun _ h => by rw [← Except.ok.inj h]⟩

theorem transfer_keepsLength {lcadd lcremove : Nat} (hadd : lcadd < cells.length)
    (hremove : lcremove < cells.length)
    (size : UInt32) : KeepsLength cells (transfer w fuel type cells lcadd lcremove size) := by
  constructor
  · refine (adjustSibling_noNull hadd _).bind fun cells' hcells' => ?_
    rw [← adjustSibling_length hcells'] at hremove
    exact (adjustSibling_noNull hremove _).bind fun _ _ => noNull_pure _
  · intro r h
    obtain ⟨cells₁, hfirst, h⟩ := bind_eq_ok.mp h
    obtain ⟨cells₂, hsecond, hpure⟩ := bind_eq_ok.mp h
    rw [← Except.ok.inj hpure]
    exact (adjustSibling_length hsecond).trans (adjustSibling_length hfirst)

theorem growDonor_lt {j : Nat} {opposite : Bool} (hi : i < cells.length)
    (h : growDonor w type cells i opposite = some j) :
    j < cells.length := by
  rw [growDonor, Option.or_eq_some_iff] at h
  rcases h with h | ⟨-, h⟩
  · obtain ⟨-, p, hget, -⟩ := donorTail_eq_some h
    exact (List.getElem?_eq_some_iff.mp hget).1
  · split_ifs at h
    exact (donorHead_eq_some hi.le h).1.trans hi

theorem resizeRound_keepsLength (hi : i < cells.length) (change : Int) (opposite : Bool)
    (needed : Int) :
    KeepsLength cells (resizeRound w type i change opposite fuel cells needed) := by
  rw [resizeRound]
  split_ifs
  · rw [layoutResizePaneGrow]
    cases hdonor : growDonor w type cells i opposite with
    | none => exact keepsLength_none
    | some j => exact transfer_keepsLength hi (growDonor_lt hi hdonor) _
  · rw [layoutResizePaneShrink]
    cases hdonor : donorHead w type cells (i + 1) with
    | none => exact keepsLength_none
    | some j =>
        dsimp only
        by_cases hnext : i + 1 < cells.length
        · rw [if_pos hnext]
          exact transfer_keepsLength hnext ((donorHead_eq_some hi hdonor).1.trans_le hi) _
        · rw [if_neg hnext]
          exact keepsLength_none

theorem resizeSibling_noNull (hi : i < cells.length) (change : Int) (opposite : Bool)
    (needed : Int) :
    NoNull (resizeSibling w type i change opposite fuel cells needed) := by
  induction fuel generalizing cells needed with
  | zero =>
      rw [resizeSibling]
      split_ifs
      · exact noNull_pure _
      · exact noNull_outOfFuel
  | succ fuel ih =>
      by_cases hneeded : needed = 0
      · rw [resizeSibling, if_pos hneeded]
        exact noNull_pure _
      · rw [resizeSibling_succ w type i opposite fuel cells hneeded]
        obtain ⟨hround, hlength⟩ :=
          @resizeRound_keepsLength w type cells fuel i hi change opposite needed
        refine hround.bind fun r hr => ?_
        split_ifs
        · exact noNull_pure _
        · exact ih (by rw [hlength r hr]; exact hi) _
        · exact ih (by rw [hlength r hr]; exact hi) _

/-! ### Cells by their path -/

variable {root : LayoutCell} {path up : List Nat}

theorem modifyNode_noNull {f : Edge → LayoutType → List LayoutCell → Exec (List LayoutCell)}
    {e : Edge} {t : LayoutType}
    {g : Geometry} {cells : List LayoutCell} (hnode : cellAt path root = some (.node t g cells))
    (hf : ∀ e, NoNull (f e t cells)) : NoNull (modifyNode f path e root) := by
  induction path generalizing root e with
  | nil =>
      obtain rfl := Option.some.inj hnode
      exact (hf e).bind fun _ _ => noNull_pure _
  | cons i path ih =>
      cases root with
      | windowpane floating wp g => cases hnode
      | node t' g' cells' =>
          rw [cellAt] at hnode
          rw [modifyNode]
          cases hget : cells'[i]? with
          | none =>
              rw [hget] at hnode
              cases hnode
          | some c =>
              rw [hget] at hnode
              exact (ih hnode).bind fun _ _ => noNull_pure _

/-- The nearest node of the type has the child that was come from. -/
theorem typedParent_eq_some (h : typedParent type path root = some (up, i)) :
    ∃ g cells, cellAt up root = some (.node type g cells) ∧ i < cells.length ∧ childCount up root =
      cells.length := by
  induction path generalizing root up with
  | nil => cases root <;> cases h
  | cons j path ih =>
      cases root with
      | windowpane floating wp g => cases h
      | node t g cells =>
          rw [typedParent] at h
          cases hget : cells[j]? with
          | none =>
              rw [hget] at h
              cases h
          | some c =>
              rw [hget] at h
              dsimp only at h
              cases hbelow : typedParent type path c with
              | some found =>
                  rw [hbelow] at h
                  obtain ⟨rfl, rfl⟩ := Prod.mk.inj (Option.some.inj h)
                  obtain ⟨g', cells', hcell, hlt, hcount⟩ := ih hbelow
                  refine ⟨g', cells', ?_, hlt, ?_⟩
                  · rw [cellAt, hget]
                    exact hcell
                  · rw [childCount, hget]
                    exact hcount
              | none =>
                  rw [hbelow] at h
                  dsimp only at h
                  split_ifs at h with htype
                  obtain ⟨rfl, rfl⟩ := Prod.mk.inj (Option.some.inj h)
                  obtain rfl := htype
                  exact ⟨g, cells, rfl, (List.getElem?_eq_some_iff.mp hget).1, rfl⟩

theorem layoutResizeLayout_noNull {g : Geometry} {cells : List LayoutCell}
    (hnode : cellAt up root = some (.node type g cells)) (hi : i < cells.length) (change : Int32)
    (opposite : Bool) :
    NoNull (layoutResizeLayout w fuel root up i type change opposite) := by
  refine NoNull.bind ?_ fun _ _ => noNull_pure _
  refine modifyNode_noNull hnode fun e => NoNull.bind ?_ fun _ _ => noNull_pure _
  exact resizeSibling_noNull (by rw [length_withEdges]; exact hi) _ _ _

/-- Resizing any pane, in either direction and by any change, follows no pointer to nothing. -/
def Resizable (w : WindowOptions) (root : LayoutCell) : Prop :=
  ∀ (path : List Nat) (floating : Bool) (wp : Option Nat) (g : Geometry),
    cellAt path root = some (.windowpane floating wp g) →
    ∀ (fuel : Nat) (type : LayoutType) (change : Int32) (opposite : Bool),
      NoNull (layoutResizePane w fuel root path type change opposite)

/-- The nearest node of either type above a pane has more than one child. -/
def HasSiblings (root : LayoutCell) : Prop :=
  ∀ (path : List Nat) (floating : Bool) (wp : Option Nat) (g : Geometry),
    cellAt path root = some (.windowpane floating wp g) →
    ∀ (type : LayoutType) (up : List Nat) (i : Nat), typedParent type path root = some (up, i) →
      1 < childCount up root

theorem layoutResizePane_noNull
    (h : ∀ up i, typedParent type path root = some (up, i) → 1 < childCount up root)
    (change : Int32) (opposite : Bool) :
    NoNull (layoutResizePane w fuel root path type change opposite) := by
  rw [layoutResizePane]
  cases hparent : typedParent type path root with
  | none => exact noNull_pure _
  | some found =>
      obtain ⟨up, i⟩ := found
      obtain ⟨g, cells, hcell, hlt, hcount⟩ := typedParent_eq_some hparent
      have hmore := h up i hparent
      dsimp only
      split_ifs with hlast hfirst
      · omega
      · omega
      · exact layoutResizeLayout_noNull hcell (by omega) change opposite
      · exact layoutResizeLayout_noNull hcell hlt change opposite

/-- The panes can be resized if and only if none has only one child of the nearest node of a type
above it. -/
theorem resizable_iff (w : WindowOptions) (root : LayoutCell) :
    Resizable w root ↔ HasSiblings root := by
  constructor
  · intro h path floating wp g hcell type up i hparent
    obtain ⟨-, cells, -, hlt, hcount⟩ := typedParent_eq_some hparent
    by_contra hone
    have hresize := h path floating wp g hcell 0 type 1 false
    rw [layoutResizePane, hparent] at hresize
    dsimp only at hresize
    rw [if_pos (by omega), if_pos (by omega), if_neg (by decide)] at hresize
    exact hresize rfl
  · intro h path floating wp g hcell fuel type change opposite
    exact layoutResizePane_noNull (h path floating wp g hcell type) change opposite

end

end Ztmux.Layout
