import Ztmux.Grids.ReadingOrder

/-!
Moving by words.

Going forward, the reader stops where the next run of letters or separators begins, and going back
from there it comes to where the last one began. A line that fills the width of the grid is read one
column too far, and a cursor behind the end of its line begins with the next one; the motions are
exact where neither matters.
-/

namespace Ztmux.Grids

open Utf8 ScreenWrite Runs

/-! ### Forward -/

section

variable (table : Utf8Table) (gd : Grid)

/-- The reader is at the place with this number, or behind the end of its line and next to it. -/
structure At (gr : GridReader) (xx i : Nat) : Prop where
  inside : gr.cy < gd.hsize + gd.sy
  column : gr.cx ≤ gd.sx ∨ gr.cx ≤ xx + 1
  limit : xx = endColumn table gd gr.cy
  index : i = lineStart table gd gr.cy + min gr.cx (xx + 1)

/-- The reader is at the place with this number; at the end it is behind the last line. -/
def StopsAt (gr : GridReader) (j : Nat) : Prop :=
  placeAt table gd j = some (gr.cx, gr.cy) ∨
    (j = placeCount table gd ∧ gr.cy = lastLine gd ∧ endColumn table gd gr.cy < gr.cx)

/-- What is read at the place with this number. -/
def seenAt (kind : Nat → Nat → Option Bool) (p : Nat) : Option Bool :=
  (placeAt table gd p).bind fun q => kind q.1 q.2

end

section

variable {table : Utf8Table} {gd : Grid} {gr : GridReader} {xx i : Nat}
    {kind : Nat → Nat → Option Bool}

theorem seenAt_of_place {p x y : Nat} (h : placeAt table gd p = some (x, y)) :
    seenAt table gd kind p = kind x y := by
  rw [seenAt, h]
  rfl

theorem At.le (hat : At table gd gr xx i) : i ≤ placeCount table gd := by
  rw [hat.index, hat.limit]
  refine le_trans ?_ (lineStart_mono table gd hat.inside)
  rw [lineStart_succ]
  exact Nat.add_le_add_left (Nat.min_le_right _ _) _

/-- One more column, which may be behind the line. -/
theorem At.right (hat : At table gd gr xx i) (hcx : gr.cx ≤ xx) :
    At table gd { gr with cx := gr.cx + 1 } xx (i + 1) := by
  refine ⟨hat.inside, .inr (Nat.succ_le_succ hcx), hat.limit, ?_⟩
  rw [hat.index, Nat.min_eq_left (Nat.le_succ_of_le hcx), Nat.min_eq_left (Nat.succ_le_succ hcx)]
  rfl

theorem placeAt_column {j : Nat} (hat : At table gd gr xx i)
    (h : placeAt table gd j = some (gr.cx, gr.cy)) : gr.cx ≤ xx :=
  hat.limit ▸ (placeAt_eq_some h).2.1

/-- Going on to the next line does not move the reader to another place. -/
theorem gridReaderHandleWrap_ok (h : GridWellFormed table gd) (hat : At table gd gr xx i) :
    ∃ gr' xx', (∀ fuel, gridReaderHandleWrap table gd (fuel + 2) gr xx =
      .ok (decide (i < placeCount table gd), gr', xx')) ∧
      At table gd gr' xx' i ∧ StopsAt table gd gr' i ∧
      (i < placeCount table gd → placeAt table gd i = some (gr'.cx, gr'.cy)) := by
  have hlast : lastLine gd + 1 = gd.hsize + gd.sy := by
    have hin := hat.inside
    rw [lastLine]
    omega
  by_cases hpast : xx < gr.cx
  · have hnext : i = lineStart table gd (gr.cy + 1) := by
      rw [hat.index, Nat.min_eq_right hpast, lineStart_succ, hat.limit]
    by_cases hcy : gr.cy = lastLine gd
    · have hend : i = placeCount table gd := by rw [hnext, hcy, hlast]; rfl
      refine ⟨gr, xx, fun fuel => ?_, hat, .inr ⟨hend, hcy, hat.limit ▸ hpast⟩,
        fun hlt => absurd hend hlt.ne⟩
      rw [gridReaderHandleWrap, if_pos hpast, if_pos hcy, decide_eq_false (not_lt_of_ge hend.ge)]
      rfl
    · have hbelow : gr.cy < lastLine gd := Nat.lt_of_le_of_ne (by have := hat.inside; omega) hcy
      have hin : gr.cy + 1 < gd.hsize + gd.sy := by omega
      obtain ⟨hlimit, -⟩ := lineLimit_ok h hin
      have hplace : placeAt table gd i = some (0, gr.cy + 1) :=
        hnext ▸ placeAt_of_line hin (Nat.zero_le _)
      have hlt : i < placeCount table gd := (List.getElem?_eq_some_iff.mp hplace).1
      refine ⟨⟨0, gr.cy + 1⟩, endColumn table gd (gr.cy + 1), fun fuel => ?_,
        ⟨hin, .inl (Nat.zero_le _), rfl, by rw [hnext]; rfl⟩, .inl hplace, fun _ => hplace⟩
      have hstart : gridReaderCursorStartOfLine gd gr false = .ok ⟨0, gr.cy⟩ := rfl
      have hdown : gridReaderCursorDown table gd ⟨0, gr.cy⟩ = .ok ⟨0, gr.cy + 1⟩ := by
        simp only [gridReaderCursorDown, if_pos hbelow]
        rfl
      rw [gridReaderHandleWrap, if_pos hpast, if_neg hcy, hstart, ok_bind, hdown, ok_bind, hlimit,
        ok_bind, gridReaderHandleWrap, if_neg (Nat.not_lt_zero _), decide_eq_true hlt]
      rfl
  · have hcx : gr.cx ≤ endColumn table gd gr.cy := hat.limit ▸ Nat.not_lt.mp hpast
    have hplace : placeAt table gd i = some (gr.cx, gr.cy) := by
      rw [hat.index, Nat.min_eq_left (by omega)]
      exact placeAt_of_line hat.inside hcx
    have hlt : i < placeCount table gd := (List.getElem?_eq_some_iff.mp hplace).1
    refine ⟨gr, xx, fun fuel => ?_, hat, .inl hplace, fun _ => hplace⟩
    rw [gridReaderHandleWrap, if_neg hpast, decide_eq_true hlt]
    rfl

theorem skipWord_ok (h : GridWellFormed table gd) (kind : Nat → Nat → Option Bool) (l : Bool)
    (hat : At table gd gr xx i)
    (hplace : placeAt table gd i = some (gr.cx, gr.cy)) :
    ∃ gr' xx' r, (∀ goesOn : GridReader →
      Exec Bool, (∀ gr, goesOn gr = .ok (decide (kind gr.cx gr.cy = some l))) →
        ∀ fuel, placeCount table gd - i + 1 ≤ fuel → skipWord table gd goesOn fuel gr xx =
          .ok (gr', xx')) ∧
      At table gd gr' xx' r ∧ i < r ∧ r ≤ placeCount table gd ∧
      All (seenAt table gd kind) (some l) (i + 1) r ∧
      (r < placeCount table gd → seenAt table gd kind r ≠ some l) := by
  induction hd : placeCount table gd - i generalizing gr xx i with
  | zero =>
      exact absurd (List.getElem?_eq_some_iff.mp hplace).1
        (by change ¬ i < placeCount table gd; omega)
  | succ d ih =>
      obtain ⟨gr₁, xx₁, hwrap, hat₁, -, hplace₁⟩ :=
        gridReaderHandleWrap_ok h (hat.right (placeAt_column hat hplace))
      by_cases hlt : i + 1 < placeCount table gd
      · have hseen : seenAt table gd kind (i + 1) = kind gr₁.cx gr₁.cy :=
          seenAt_of_place (hplace₁ hlt)
        by_cases hgo : kind gr₁.cx gr₁.cy = some l
        · obtain ⟨gr', xx', r, hrun, hat', hir, hrn, hall, hstop⟩ :=
            ih hat₁ (hplace₁ hlt) (by omega)
          refine ⟨gr', xx', r, fun goesOn hgoes fuel hfuel => ?_, hat',
            by omega, hrn, hall.pred (hseen.trans hgo), hstop⟩
          obtain ⟨fuel, rfl⟩ : ∃ k, fuel = k + 2 := ⟨fuel - 2, by omega⟩
          rw [skipWord, hwrap fuel, ok_bind, decide_eq_true hlt]
          dsimp only
          rw [Bool.not_true, if_neg Bool.false_ne_true, hgoes, ok_bind, decide_eq_true hgo,
            if_pos rfl]
          exact hrun goesOn hgoes (fuel + 1) (by omega)
        · refine ⟨gr₁, xx₁, i + 1, fun goesOn hgoes fuel hfuel => ?_, hat₁, Nat.lt_succ_self i,
            hlt.le, fun q hq hlt' => absurd hq (Nat.not_le.mpr hlt'), fun _ => hseen ▸ hgo⟩
          obtain ⟨fuel, rfl⟩ : ∃ k, fuel = k + 2 := ⟨fuel - 2, by omega⟩
          rw [skipWord, hwrap fuel, ok_bind, decide_eq_true hlt]
          dsimp only
          rw [Bool.not_true, if_neg Bool.false_ne_true, hgoes, ok_bind, decide_eq_false hgo,
            if_neg Bool.false_ne_true]
          rfl
      · refine ⟨gr₁, xx₁, i + 1, fun goesOn _ fuel hfuel => ?_, hat₁, Nat.lt_succ_self i, hat₁.le,
          fun q hq hlt' => absurd hq (Nat.not_le.mpr hlt'), fun hlt' => absurd hlt' hlt⟩
        obtain ⟨fuel, rfl⟩ : ∃ k, fuel = k + 2 := ⟨fuel - 2, by omega⟩
        rw [skipWord, hwrap fuel, ok_bind, decide_eq_false hlt]
        rfl

theorem skipBlanks_ok (h : GridWellFormed table gd) (kind : Nat → Nat → Option Bool)
    (hat : At table gd gr xx i) :
    ∃ gr' j, (∀ whitespace : GridReader →
      Exec Bool, (∀ gr, whitespace gr = .ok (kind gr.cx gr.cy).isNone) →
        ∀ fuel, placeCount table gd - i + 2 ≤ fuel → skipBlanks table gd whitespace fuel gr xx =
          .ok gr') ∧
      StopsAt table gd gr' j ∧ (gr'.cx ≤ gd.sx ∨ gr'.cx ≤ endColumn table gd gr'.cy + 1) ∧ i ≤ j ∧
      j ≤ placeCount table gd ∧ All (seenAt table gd kind) none i j ∧
      (j < placeCount table gd → seenAt table gd kind j ≠ none) := by
  induction hd : placeCount table gd - i generalizing gr xx i with
  | zero =>
      obtain ⟨gr₁, xx₁, hwrap, hat₁, hstops, -⟩ := gridReaderHandleWrap_ok h hat
      have hnot : ¬ i < placeCount table gd := by omega
      refine ⟨gr₁, i, fun whitespace _ fuel hfuel => ?_, hstops, hat₁.limit ▸ hat₁.column,
        Nat.le_refl i, hat.le, fun q hq hlt' => absurd hq (Nat.not_le.mpr hlt'), fun hlt =>
          absurd hlt hnot⟩
      obtain ⟨fuel, rfl⟩ : ∃ k, fuel = k + 2 := ⟨fuel - 2, by omega⟩
      rw [skipBlanks, hwrap fuel, ok_bind, decide_eq_false hnot]
      rfl
  | succ d ih =>
      obtain ⟨gr₁, xx₁, hwrap, hat₁, hstops, hplace₁⟩ := gridReaderHandleWrap_ok h hat
      have hlt : i < placeCount table gd := by omega
      have hseen : seenAt table gd kind i = kind gr₁.cx gr₁.cy := seenAt_of_place (hplace₁ hlt)
      cases hkind : kind gr₁.cx gr₁.cy with
      | some l =>
          refine ⟨gr₁, i, fun whitespace hblank fuel hfuel => ?_, hstops, hat₁.limit ▸ hat₁.column,
            Nat.le_refl i, hlt.le, fun q hq hlt' => absurd hq (Nat.not_le.mpr hlt'), fun _ hnone =>
              (nomatch hnone.symm.trans (hseen.trans hkind))⟩
          obtain ⟨fuel, rfl⟩ : ∃ k, fuel = k + 2 := ⟨fuel - 2, by omega⟩
          rw [skipBlanks, hwrap fuel, ok_bind, decide_eq_true hlt]
          dsimp only
          rw [Bool.not_true, if_neg Bool.false_ne_true, hblank, ok_bind, hkind]
          rfl
      | none =>
          obtain ⟨gr', j, hrun, hstops', hcolumn, hij, hjn, hall, hstop⟩ :=
            ih (hat₁.right (placeAt_column hat₁ (hplace₁ hlt))) (by omega)
          refine ⟨gr', j, fun whitespace hblank fuel hfuel => ?_, hstops', hcolumn, by omega, hjn,
            hall.pred (hseen.trans hkind), hstop⟩
          obtain ⟨fuel, rfl⟩ : ∃ k, fuel = k + 2 := ⟨fuel - 2, by omega⟩
          rw [skipBlanks, hwrap fuel, ok_bind, decide_eq_true hlt]
          dsimp only
          rw [Bool.not_true, if_neg Bool.false_ne_true, hblank, ok_bind, hkind]
          exact hrun whitespace hblank (fuel + 1) (by omega)

section

variable {whitespace separators : GridReader → Exec Bool}

/-- The test for going on with separators. -/
theorem Tells.separator (h : Tells whitespace separators kind) (gr : GridReader) :
    (do
      let separator ← separators gr
      if !separator then pure false
      else do
        let blank ← whitespace gr
        pure !blank : Exec Bool) = .ok (decide (kind gr.cx gr.cy = some false)) := by
  obtain ⟨b, hb, hkind⟩ := h.separators gr
  rw [hb, ok_bind, h.whitespace gr]
  cases hk : kind gr.cx gr.cy with
  | none => cases b <;> rfl
  | some l =>
      obtain rfl := hkind l hk
      cases l <;> rfl

/-- The test for going on with letters. -/
theorem Tells.letter (h : Tells whitespace separators kind) (gr : GridReader) :
    (do
      let separator ← separators gr
      if separator then pure false
      else do
        let blank ← whitespace gr
        pure !blank : Exec Bool) = .ok (decide (kind gr.cx gr.cy = some true)) := by
  obtain ⟨b, hb, hkind⟩ := h.separators gr
  rw [hb, ok_bind, h.whitespace gr]
  cases hk : kind gr.cx gr.cy with
  | none => cases b <;> rfl
  | some l =>
      obtain rfl := hkind l hk
      cases l <;> rfl

end

/-- The reader moves to where the next run begins as it is read. -/
theorem nextWord_ok (h : GridWellFormed table gd) (kind : Nat → Nat → Option Bool)
    (hat : At table gd gr (endColumn table gd gr.cy) i) :
    ∃ gr' j, (∀ whitespace separators fuel, Tells whitespace separators kind →
      placeCount table gd + 2 ≤ fuel →
        nextWord table gd whitespace separators fuel gr = .ok gr') ∧
      StopsAt table gd gr' j ∧ (gr'.cx ≤ gd.sx ∨ gr'.cx ≤ endColumn table gd gr'.cy + 1) ∧
      FirstFrom (seenAt table gd kind) (placeCount table gd) (min (i + 1) (placeCount table gd))
        j := by
  obtain ⟨hlimit, -⟩ := lineLimit_ok h hat.inside
  obtain ⟨gr₁, xx₁, hwrap, hat₁, hstops, hplace₁⟩ := gridReaderHandleWrap_ok h hat
  by_cases hlt : i < placeCount table gd
  · have hseen : seenAt table gd kind i = kind gr₁.cx gr₁.cy := seenAt_of_place (hplace₁ hlt)
    rw [Nat.min_eq_left hlt]
    cases hkind : kind gr₁.cx gr₁.cy with
    | none =>
        obtain ⟨gr', j, hrun, hstops', hcolumn, hij, hjn, hall, hstop⟩ := skipBlanks_ok h kind hat₁
        have hne : i ≠ j := fun heq => hstop (heq ▸ hlt) (heq ▸ hseen.trans hkind)
        refine ⟨gr', j, fun whitespace separators fuel htells hfuel => ?_, hstops', hcolumn,
          firstFrom_of_blank hall (Nat.lt_of_le_of_ne hij hne) hjn hstop⟩
        obtain ⟨fuel, rfl⟩ : ∃ k, fuel = k + 2 := ⟨fuel - 2, by omega⟩
        rw [nextWord, hlimit, ok_bind, hwrap fuel, ok_bind, decide_eq_true hlt]
        dsimp only
        rw [Bool.not_true, if_neg Bool.false_ne_true, htells.whitespace, ok_bind, hkind,
          Option.isNone_none, if_pos rfl]
        exact hrun whitespace htells.whitespace _ (by omega)
    | some l =>
        obtain ⟨gr₂, xx₂, r, hword, hat₂, hir, hrn, hrest, hother⟩ :=
          skipWord_ok h kind l hat₁ (hplace₁ hlt)
        obtain ⟨gr', j, hrun, hstops', hcolumn, hrj, hjn, hall, hstop⟩ := skipBlanks_ok h kind hat₂
        have hhere : seenAt table gd kind i = some l := hseen.trans hkind
        refine ⟨gr', j, fun whitespace separators fuel htells hfuel => ?_, hstops', hcolumn,
          firstFrom_of_run (hhere ▸ hrest.pred hhere) hir hall hrj hjn
            (fun hlt' => hhere ▸ hother hlt') hstop⟩
        obtain ⟨fuel, rfl⟩ : ∃ k, fuel = k + 2 := ⟨fuel - 2, by omega⟩
        obtain ⟨b, hb, hletter⟩ := htells.separators gr₁
        obtain rfl := hletter l hkind
        rw [nextWord, hlimit, ok_bind, hwrap fuel, ok_bind, decide_eq_true hlt]
        dsimp only
        rw [Bool.not_true, if_neg Bool.false_ne_true, htells.whitespace, ok_bind, hkind,
          Option.isNone_some, if_neg Bool.false_ne_true, hb, ok_bind]
        cases l with
        | false =>
            rw [Bool.not_false, if_pos rfl, hword _ htells.separator (fuel + 2) (by omega), ok_bind]
            exact hrun whitespace htells.whitespace _ (by omega)
        | true =>
            rw [Bool.not_true, if_neg Bool.false_ne_true,
              hword _ htells.letter (fuel + 2) (by omega), ok_bind]
            exact hrun whitespace htells.whitespace _ (by omega)
  · have hend : i = placeCount table gd := Nat.le_antisymm hat.le (Nat.not_lt.mp hlt)
    refine ⟨gr₁, i, fun whitespace separators fuel htells hfuel => ?_, hstops,
      hat₁.limit ▸ hat₁.column, ?_⟩
    · obtain ⟨fuel, rfl⟩ : ∃ k, fuel = k + 2 := ⟨fuel - 2, by omega⟩
      rw [nextWord, hlimit, ok_bind, hwrap fuel, ok_bind, decide_eq_false hlt]
      rfl
    · rw [Nat.min_eq_right (hend ▸ Nat.le_succ i), hend]
      exact ⟨Nat.le_refl _, Nat.le_refl _, fun hlt' => absurd hlt' (lt_irrefl _),
        fun q hq hlt' => absurd hq (Nat.not_le.mpr hlt')⟩

end

/-! ### Back -/

section

variable {table : Utf8Table} {gd : Grid} {items : List Utf8.Item}

theorem wraps_column (h : GridWellFormed table gd) {x y : Nat} (hy : y < gd.hsize + gd.sy)
    (hx : x < gd.sx)
    (hkind : placeKind table gd items x y ≠ none) : x ≤ endColumn table gd y := by
  by_cases hw : Wraps gd y
  · rw [(lineLimit_ok h hy).2.1 hw]
    omega
  · by_contra hnot
    exact hkind (if_pos ⟨hw, by omega⟩)

/-- From here the reader goes back to the last place before `j` that is not blank, if there is one.
-/
def GoesBack (table : Utf8Table) (gd : Grid) (items : List Utf8.Item) (x y j : Nat) : Prop :=
  ∃ gr' o, (∀ whitespace separators fuel, Tells whitespace separators (readKind table gd items) →
      y * (gd.sx + 2) + x + 1 ≤ fuel →
      previousCell table gd whitespace separators false fuel ⟨x, y⟩ = .ok (gr', o)) ∧
    (o = none → All (kindAt table gd items) none 0 j) ∧
    ∀ l, o = some l → ∃ p, placeAt table gd p = some (gr'.cx, gr'.cy) ∧ kindAt table gd items p =
      some l ∧ p < j ∧
      All (kindAt table gd items) none (p + 1) j

/-- The columns of a line are looked at one after the other. -/
theorem goesBack_line (h : GridWellFormed table gd) {x y j : Nat} (hy : y < gd.hsize + gd.sy)
    (hread : ∀ x', x' < x → readKind table gd items x' y = placeKind table gd items x' y)
    (hx : x ≤ gd.sx ∨ x ≤ endColumn table gd y + 1)
    (hblank : All (kindAt table gd items) none
      (lineStart table gd y + min x (endColumn table gd y + 1)) j)
    (hj : lineStart table gd y + min x (endColumn table gd y + 1) ≤ j)
    (hstart : All (kindAt table gd items) none (lineStart table gd y) j →
      GoesBack table gd items 0 y j) :
    GoesBack table gd items x y j := by
  induction x with
  | zero => exact hstart (by rwa [Nat.zero_min, Nat.add_zero] at hblank)
  | succ x ih =>
      have hread' := hread x (Nat.lt_succ_self x)
      have hx' : x < gd.sx ∨ x ≤ endColumn table gd y := by omega
      have hstep : ∀ (whitespace separators : GridReader → Exec Bool) fuel,
          previousCell table gd whitespace separators false (fuel + 1) ⟨x + 1, y⟩ = (do
            let blank ← whitespace ⟨x, y⟩
            if !blank then do
              let separator ← separators ⟨x, y⟩
              pure (⟨x, y⟩, some !separator)
            else previousCell table gd whitespace separators false fuel ⟨x, y⟩) :=
              fun whitespace separators fuel => by
        rw [previousCell, if_pos (Nat.succ_pos x)]
        rfl
      cases hkind : placeKind table gd items x y with
      | some l =>
          have hcolumn : x ≤ endColumn table gd y := by
            rcases hx' with hlt | hle
            · exact wraps_column h hy hlt (by rw [hkind]; exact Option.some_ne_none l)
            · exact hle
          have hplace := placeAt_of_line hy hcolumn
          rw [Nat.min_eq_left (Nat.add_le_add_right hcolumn 1), ← Nat.add_assoc] at hblank hj
          refine ⟨⟨x, y⟩, some l, fun whitespace separators fuel htells hfuel => ?_,
            fun hnone => (nomatch hnone), fun l' hl' => ?_⟩
          · obtain ⟨fuel, rfl⟩ : ∃ k, fuel = k + 1 := ⟨fuel - 1, by omega⟩
            obtain ⟨b, hb, hletter⟩ := htells.separators ⟨x, y⟩
            obtain rfl := hletter l (hread'.trans hkind)
            rw [hstep, htells.whitespace, ok_bind]
            dsimp only
            rw [hread', hkind, hb]
            cases l <;> rfl
          · obtain rfl := Option.some.inj hl'
            exact ⟨_, hplace, (kindAt_of_line hy hcolumn).trans hkind, hj, hblank⟩
      | none =>
          have hback : All (kindAt table gd items) none
              (lineStart table gd y + min x (endColumn table gd y + 1)) j ∧
              lineStart table gd y + min x (endColumn table gd y + 1) ≤ j := by
            by_cases hcolumn : x ≤ endColumn table gd y
            · rw [Nat.min_eq_left (Nat.add_le_add_right hcolumn 1), ← Nat.add_assoc] at hblank hj
              rw [Nat.min_eq_left (Nat.le_succ_of_le hcolumn)]
              exact ⟨hblank.pred ((kindAt_of_line hy hcolumn).trans hkind), Nat.le_of_succ_le hj⟩
            · rw [Nat.min_eq_right (by omega)] at hblank hj
              rw [Nat.min_eq_right (by omega)]
              exact ⟨hblank, hj⟩
          obtain ⟨gr', o, hrun, hfound⟩ :=
            ih (fun x' hlt => hread x' (Nat.lt_succ_of_lt hlt)) (by omega) hback.1 hback.2
          refine ⟨gr', o, fun whitespace separators fuel htells hfuel => ?_, hfound⟩
          obtain ⟨fuel, rfl⟩ : ∃ k, fuel = k + 1 := ⟨fuel - 1, by omega⟩
          rw [hstep, htells.whitespace, ok_bind]
          dsimp only
          rw [hread', hkind]
          exact hrun whitespace separators fuel htells (by omega)

/-- Behind the length of a line the places are blank. -/
theorem kindAt_behind (h : GridWellFormed table gd) (items : List Utf8.Item) {x y n : Nat}
    (hy : y < gd.hsize + gd.sy)
    (hsx : 0 < gd.sx) (hn : gridLineLength table gd y = .ok n) (hnx : n ≤ x)
    (hx : x ≤ endColumn table gd y) :
    kindAt table gd items (lineStart table gd y + x) = none := by
  rw [kindAt_of_line hy hx, placeKind]
  split_ifs with hend
  · rfl
  · have hlt : x < gd.sx := by
      by_cases hw : Wraps gd y
      · rw [(lineLimit_ok h hy).2.1 hw] at hx
        omega
      · have := endColumn_le h hy
        by_contra hnot
        exact hend ⟨hw, by omega⟩
    exact readKind_behind h items hy hn hnx hlt

theorem previousCell_ok (h : GridWellFormed table gd) (hsx : 0 < gd.sx) {x y j : Nat}
    (hy : y < gd.hsize + gd.sy)
    (hread : ∀ x', x' < x → readKind table gd items x' y = placeKind table gd items x' y)
    (hx : x ≤ gd.sx ∨ x ≤ endColumn table gd y + 1)
    (hblank : All (kindAt table gd items) none
      (lineStart table gd y + min x (endColumn table gd y + 1)) j)
    (hj : lineStart table gd y + min x (endColumn table gd y + 1) ≤ j) :
    GoesBack table gd items x y j := by
  induction y generalizing x with
  | zero =>
      refine goesBack_line h hy hread hx hblank hj fun hall =>
        ⟨⟨0, 0⟩, none, fun whitespace separators fuel _ hfuel => ?_, fun _ => hall,
          fun l hl => (nomatch hl)⟩
      obtain ⟨fuel, rfl⟩ : ∃ k, fuel = k + 1 := ⟨fuel - 1, by omega⟩
      rw [previousCell, if_neg (lt_irrefl _), if_pos rfl]
      rfl
  | succ y ih =>
      have hjy : lineStart table gd (y + 1) ≤ j := (Nat.le_add_right _ _).trans hj
      refine goesBack_line h hy hread hx hblank hj fun hall => ?_
      have hy' : y < gd.hsize + gd.sy := Nat.lt_of_succ_lt hy
      obtain ⟨n, hn, hnsx, -⟩ := gridLineLength_ok h hy'
      have hend : n ≤ endColumn table gd y + 1 := by
        by_cases hw : Wraps gd y
        · rw [(lineLimit_ok h hy').2.1 hw]
          omega
        · rw [Except.ok.inj (hn.symm.trans ((lineLimit_ok h hy').2.2 hw))]
          exact Nat.le_succ _
      rw [lineStart_succ] at hall hjy
      -- From the length of the line above to its end there are blanks.
      have hall' : All (kindAt table gd items) none
          (lineStart table gd y + min n (endColumn table gd y + 1)) j := by
        intro q hq hlt
        rw [Nat.min_eq_left hend] at hq
        by_cases hline : lineStart table gd y + (endColumn table gd y + 1) ≤ q
        · exact hall q hline hlt
        · obtain ⟨x', rfl⟩ := Nat.exists_eq_add_of_le ((Nat.le_add_right _ n).trans hq)
          exact kindAt_behind h items hy' hsx hn (by omega) (by omega)
      obtain ⟨gr', o, hrun, hfound⟩ :=
        ih hy' (fun x' hlt => (placeKind_eq h items hy' (hlt.trans_le hnsx)).symm) (.inl hnsx) hall'
        ((Nat.add_le_add_left (Nat.min_le_right _ _) _).trans hjy)
      refine ⟨gr', o, fun whitespace separators fuel htells hfuel => ?_, hfound⟩
      rw [Nat.succ_mul] at hfuel
      obtain ⟨fuel, rfl⟩ : ∃ k, fuel = k + 1 := ⟨fuel - 1, by omega⟩
      have hup : gridReaderCursorUp table gd ⟨0, y + 1⟩ = .ok ⟨0, y⟩ := rfl
      have heol : gridReaderCursorEndOfLine table gd ⟨0, y⟩ false false = .ok ⟨n, y⟩ := by
        change (gridLineLength table gd y >>= fun cx => pure (⟨cx, y⟩ : GridReader)) = _
        rw [hn]
        rfl
      rw [previousCell, if_neg (lt_irrefl _), if_neg (Nat.succ_ne_zero y), hup, ok_bind, heol,
        ok_bind]
      exact hrun whitespace separators fuel htells (by omega)

/-- The place to the left is in the same line or ends the one above. -/
theorem placeAt_left {x y x' y' p : Nat} (hplace : placeAt table gd (p + 1) = some (x, y))
    (hplace' : placeAt table gd p = some (x', y')) :
    (x = x' + 1 ∧ y = y') ∨ (x = 0 ∧ y = y' + 1 ∧ x' = endColumn table gd y') := by
  obtain ⟨hy, hx, heq⟩ := placeAt_eq_some hplace
  rcases x with _ | x
  · rcases y with _ | y
    · exact absurd heq (Nat.succ_ne_zero p)
    · rw [lineStart_succ] at heq
      obtain rfl : p = lineStart table gd y + endColumn table gd y := by omega
      obtain ⟨rfl, rfl⟩ := Prod.mk.inj (Option.some.inj
        ((placeAt_of_line (Nat.lt_of_succ_lt hy) (Nat.le_refl _)).symm.trans hplace'))
      exact .inr ⟨rfl, rfl, rfl⟩
  · obtain rfl : p = lineStart table gd y + x := by omega
    obtain ⟨rfl, rfl⟩ :=
      Prod.mk.inj (Option.some.inj ((placeAt_of_line hy (Nat.le_of_succ_le hx)).symm.trans hplace'))
    exact .inl ⟨rfl, rfl⟩

/-- One column to the left, in the line above when that is wrapped. -/
theorem wordStart_left (h : GridWellFormed table gd) (hsx : 0 < gd.sx) {x y x' y' p : Nat}
    (hplace : placeAt table gd (p + 1) = some (x, y)) (hplace' : placeAt table gd p = some (x', y'))
    (hleft : x ≠ 0 ∨ Wraps gd y') (whitespace separators : GridReader → Exec Bool)
    (wordIsLetters : Bool) (fuel : Nat) :
    wordStart table gd whitespace separators wordIsLetters (fuel + 1) ⟨x, y⟩ = (do
      let blank ← whitespace ⟨x', y'⟩
      if blank then pure ⟨x, y⟩
      else do
        let separator ← separators ⟨x', y'⟩
        if wordIsLetters = separator then pure ⟨x, y⟩
        else wordStart table gd whitespace separators wordIsLetters fuel ⟨x', y'⟩) := by
  rcases placeAt_left hplace hplace' with ⟨rfl, rfl⟩ | ⟨rfl, rfl, rfl⟩
  · rw [wordStart, if_neg (Nat.succ_ne_zero x')]
    simp only [pure_bind, if_pos (Nat.succ_pos x'), Nat.add_sub_cancel]
  · have hw : Wraps gd y' := hleft.resolve_left (not_not.mpr rfl)
    have hy' : y' < gd.hsize + gd.sy := (placeAt_eq_some hplace').1
    obtain ⟨gl, hgl, hwraps⟩ := gridGetLine_ok h hy'
    have hup : gridReaderCursorUp table gd ⟨0, y' + 1⟩ = .ok ⟨0, y'⟩ := rfl
    have heol : gridReaderCursorEndOfLine table gd ⟨0, y'⟩ false true = .ok ⟨gd.sx, y'⟩ := rfl
    rw [wordStart, if_pos rfl, if_neg (Nat.succ_ne_zero y'), Nat.add_sub_cancel, hgl, ok_bind,
      hwraps.mpr hw, Bool.not_true, if_neg Bool.false_ne_true, hup, ok_bind, heol, ok_bind,
      (lineLimit_ok h hy').2.1 hw]
    simp only [pure_bind, if_pos hsx]

theorem readKind_left {x y x' y' p : Nat} (hplace : placeAt table gd (p + 1) = some (x, y))
    (hplace' : placeAt table gd p = some (x', y')) (hleft : x ≠ 0 ∨ Wraps gd y') :
    kindAt table gd items p = readKind table gd items x' y' := by
  obtain ⟨hy', hx', rfl⟩ := placeAt_eq_some hplace'
  rw [kindAt_of_line hy' hx']
  refine if_neg fun ⟨hnot, hend⟩ => ?_
  rcases placeAt_left hplace hplace' with ⟨rfl, rfl⟩ | ⟨rfl, -, -⟩
  · have hx := (placeAt_eq_some hplace).2.1
    omega
  · exact hnot (hleft.resolve_left (not_not.mpr rfl))

/-- With what the tests tell, the reader goes on to the left over cells of its own kind. -/
theorem wordStart_step {whitespace separators : GridReader → Exec Bool} {l : Bool}
    {x y x' y' fuel : Nat}
    (htells : Tells whitespace separators (readKind table gd items))
    (hleft : wordStart table gd whitespace separators l (fuel + 1) ⟨x, y⟩ = (do
      let blank ← whitespace ⟨x', y'⟩
      if blank then pure ⟨x, y⟩
      else do
        let separator ← separators ⟨x', y'⟩
        if l = separator then pure ⟨x, y⟩
        else wordStart table gd whitespace separators l fuel ⟨x', y'⟩)) :
    wordStart table gd whitespace separators l (fuel + 1) ⟨x, y⟩ =
      if readKind table gd items x' y' = some l then
        wordStart table gd whitespace separators l fuel ⟨x', y'⟩
      else .ok ⟨x, y⟩ := by
  obtain ⟨b, hb, hletter⟩ := htells.separators ⟨x', y'⟩
  rw [hleft, htells.whitespace, ok_bind, hb]
  cases hkind : readKind table gd items x' y' with
  | none => rfl
  | some l' =>
      obtain rfl := hletter l' hkind
      cases l <;> cases l' <;> rfl

/-- From a place that is not blank the reader goes back to the beginning of its run. -/
theorem wordStart_ok (h : GridWellFormed table gd) (hsx : 0 < gd.sx) {x y p : Nat} {l : Bool}
    (hplace : placeAt table gd p = some (x, y)) (hkind : kindAt table gd items p = some l) :
    ∃ gr' s, (∀ whitespace separators fuel, Tells whitespace separators (readKind table gd items) →
      p + 1 ≤ fuel →
        wordStart table gd whitespace separators l fuel ⟨x, y⟩ = .ok gr') ∧
      placeAt table gd s = some (gr'.cx, gr'.cy) ∧ s ≤ p ∧
      All (kindAt table gd items) (some l) s (p + 1) ∧
      ∀ q, q + 1 = s → kindAt table gd items q ≠ some l := by
  induction p generalizing x y with
  | zero =>
      obtain ⟨-, -, heq⟩ := placeAt_eq_some hplace
      obtain rfl : x = 0 := by omega
      obtain rfl : y = 0 := by
        rcases y with _ | y
        · rfl
        · rw [lineStart_succ] at heq
          omega
      refine ⟨⟨0, 0⟩, 0, fun whitespace separators fuel _ hfuel => ?_, hplace, Nat.le_refl 0,
        fun q _ hlt => ?_, fun q hq => (nomatch hq)⟩
      · obtain ⟨fuel, rfl⟩ : ∃ k, fuel = k + 1 := ⟨fuel - 1, by omega⟩
        rw [wordStart, if_pos rfl, if_pos rfl]
        rfl
      · obtain rfl : q = 0 := by omega
        exact hkind
  | succ p ih =>
      have hlt : p < placeCount table gd :=
        Nat.lt_of_succ_lt (List.getElem?_eq_some_iff.mp hplace).1
      obtain ⟨x', y', hplace'⟩ := placeAt_of_lt hlt
      have hhere : All (kindAt table gd items) (some l) (p + 1) (p + 1 + 1) := fun q hq hlt => by
        obtain rfl : q = p + 1 := by omega
        exact hkind
      by_cases hleft : x ≠ 0 ∨ Wraps gd y'
      · have hread := @readKind_left table gd items x y x' y' p hplace hplace' hleft
        by_cases hsame : kindAt table gd items p = some l
        · obtain ⟨gr', s, hrun, hs, hle, hall, hbefore⟩ := ih hplace' hsame
          refine ⟨gr', s, fun whitespace separators fuel htells hfuel => ?_, hs,
            Nat.le_succ_of_le hle, hall.succ hkind, hbefore⟩
          obtain ⟨fuel, rfl⟩ : ∃ k, fuel = k + 1 := ⟨fuel - 1, by omega⟩
          rw [wordStart_step htells
            (wordStart_left h hsx hplace hplace' hleft whitespace separators l fuel),
            if_pos (hread ▸ hsame)]
          exact hrun whitespace separators fuel htells (by omega)
        · refine ⟨⟨x, y⟩, p + 1, fun whitespace separators fuel htells hfuel => ?_, hplace,
            Nat.le_refl _, hhere, fun q hq => Nat.succ.inj hq ▸ hsame⟩
          obtain ⟨fuel, rfl⟩ : ∃ k, fuel = k + 1 := ⟨fuel - 1, by omega⟩
          rw [wordStart_step htells
            (wordStart_left h hsx hplace hplace' hleft whitespace separators l fuel),
            if_neg (hread ▸ hsame)]
      · obtain ⟨hx, hnot⟩ := not_or.mp hleft
        obtain ⟨hxy, -⟩ | ⟨-, hy, hend⟩ := placeAt_left hplace hplace'
        · exact absurd (hxy ▸ Nat.succ_ne_zero x') hx
        · obtain rfl := not_not.mp hx
          obtain ⟨hy', hx', heq⟩ := placeAt_eq_some hplace'
          have hnone : kindAt table gd items p = none := by
            rw [heq, kindAt_of_line hy' hx']
            exact if_pos ⟨hnot, hend.ge⟩
          refine ⟨⟨0, y⟩, p + 1, fun whitespace separators fuel _ hfuel => ?_, hplace,
            Nat.le_refl _, hhere, fun q hq => ?_⟩
          · obtain ⟨fuel, rfl⟩ : ∃ k, fuel = k + 1 := ⟨fuel - 1, by omega⟩
            obtain ⟨gl, hgl, hwraps⟩ := gridGetLine_ok h hy'
            have hwrapped : gl.flags.wrapped = false :=
              Bool.eq_false_iff.mpr fun hw => hnot (hwraps.mp hw)
            rw [wordStart, if_pos rfl, if_neg (hy ▸ Nat.succ_ne_zero y'), hy, Nat.add_sub_cancel,
              hgl, ok_bind, hwrapped]
            rfl
          · rw [Nat.succ.inj hq, hnone]
            exact fun heq => (nomatch heq)

/-- Going back from a place, the reader comes to where the last run before it begins. -/
theorem previousWord_ok (h : GridWellFormed table gd) (hsx : 0 < gd.sx) {x y j : Nat}
    (hy : y < gd.hsize + gd.sy)
    (hread : ∀ x', x' < x → readKind table gd items x' y = placeKind table gd items x' y)
    (hx : x ≤ gd.sx ∨ x ≤ endColumn table gd y + 1)
    (hj : j = lineStart table gd y + min x (endColumn table gd y + 1)) :
    ∃ gr', (∀ whitespace separators fuel, Tells whitespace separators (readKind table gd items) →
        y * (gd.sx + 2) + x + 1 + placeCount table gd ≤ fuel →
        previousWord table gd whitespace separators true false fuel ⟨x, y⟩ = .ok gr') ∧
      ∀ s, LastBefore (kindAt table gd items) j s → placeAt table gd s = some (gr'.cx, gr'.cy) := by
  obtain ⟨gr₁, o, hrun, hnone, hsome⟩ := previousCell_ok h hsx hy hread hx
    (fun q hq hlt => absurd (hj ▸ hq) (Nat.not_le.mpr hlt)) hj.ge
  cases o with
  | none =>
      refine ⟨gr₁, fun whitespace separators fuel htells hfuel => ?_,
        fun s hs => absurd hs (not_lastBefore (hnone rfl))⟩
      simp only [previousWord, if_true, pure_bind]
      rw [hrun whitespace separators fuel htells (by omega), ok_bind]
      rfl
  | some l =>
      obtain ⟨p, hplace, hkind, hpj, hblank⟩ := hsome l rfl
      have hlt : p < placeCount table gd := (List.getElem?_eq_some_iff.mp hplace).1
      obtain ⟨gr', s, hword, hs, hle, hall, hbefore⟩ := wordStart_ok h hsx hplace hkind
      refine ⟨gr', fun whitespace separators fuel htells hfuel => ?_, fun s' hs' => ?_⟩
      · simp only [previousWord, if_true, pure_bind]
        rw [hrun whitespace separators fuel htells (by omega), ok_bind]
        exact hword whitespace separators fuel htells (by omega)
      · have hlast : LastBefore (kindAt table gd items) j s :=
          lastBefore_of_run (hkind ▸ Option.some_ne_none l) (hkind ▸ hall) hle
            (fun q hq => hkind ▸ hbefore q hq) hblank hpj
        rw [← hlast.unique hs']
        exact hs

/-- Behind a last line that fills the width, a cell of the last run is taken for its end. -/
theorem previousWord_hidden (h : GridWellFormed table gd) (hsx : 0 < gd.sx) {y : Nat} {l : Bool}
    (hy : y < gd.hsize + gd.sy)
    (hw : ¬ Wraps gd y) (hend : endColumn table gd y = gd.sx)
    (hhidden : readKind table gd items gd.sx y = some l)
    (hlast : readKind table gd items (gd.sx - 1) y = some l) :
    ∃ gr', (∀ whitespace separators fuel, Tells whitespace separators (readKind table gd items) →
        placeCount table gd + 1 ≤ fuel →
        previousWord table gd whitespace separators true false fuel ⟨gd.sx + 1, y⟩ = .ok gr') ∧
      ∀ s, LastBefore (kindAt table gd items) (lineStart table gd (y + 1)) s → placeAt table gd s =
        some (gr'.cx, gr'.cy) := by
  have hplace : placeAt table gd (lineStart table gd y + (gd.sx - 1) + 1) = some (gd.sx, y) := by
    rw [Nat.add_assoc, Nat.sub_add_cancel hsx]
    exact placeAt_of_line hy hend.ge
  have hcolumn : gd.sx - 1 ≤ endColumn table gd y := by omega
  have hplace' := placeAt_of_line hy hcolumn
  have hkind : kindAt table gd items (lineStart table gd y + (gd.sx - 1)) = some l := by
    rw [kindAt_of_line hy hcolumn, placeKind_eq h items hy (by omega), hlast]
  obtain ⟨gr', s, hword, hs, hle, hall, hbefore⟩ := wordStart_ok h hsx hplace' hkind
  have hlt := lineStart_add_lt hy hend.ge
  have hnext : lineStart table gd (y + 1) = lineStart table gd y + (gd.sx - 1) + 1 + 1 := by
    rw [lineStart_succ, hend]
    omega
  refine ⟨gr', fun whitespace separators fuel htells hfuel => ?_, fun s' hs' => ?_⟩
  · obtain ⟨fuel, rfl⟩ : ∃ k, fuel = k + 1 := ⟨fuel - 1, by omega⟩
    obtain ⟨b, hb, hletter⟩ := htells.separators ⟨gd.sx, y⟩
    obtain rfl := hletter l hhidden
    have hcell : previousCell table gd whitespace separators false (fuel + 1) ⟨gd.sx + 1, y⟩ =
        .ok (⟨gd.sx, y⟩, some l) := by
      rw [previousCell, if_pos (Nat.succ_pos _)]
      change (whitespace ⟨gd.sx, y⟩ >>= _) = _
      rw [htells.whitespace, ok_bind]
      dsimp only
      rw [hhidden, Option.isNone_some, Bool.not_false, if_pos rfl]
      change (separators ⟨gd.sx, y⟩ >>= _) = _
      rw [hb, ok_bind, Bool.not_not]
      rfl
    simp only [previousWord, if_true, pure_bind]
    rw [hcell, ok_bind]
    dsimp only
    rw [wordStart_step htells
      (wordStart_left h hsx hplace hplace' (.inl (Nat.ne_of_gt hsx)) whitespace separators l fuel),
      if_pos hlast]
    exact hword whitespace separators fuel htells (by omega)
  · have hbefore' : LastBefore (kindAt table gd items) (lineStart table gd (y + 1)) s := by
      refine lastBefore_of_run (hkind ▸ Option.some_ne_none l) (hkind ▸ hall) hle
        (fun q hq => hkind ▸ hbefore q hq)
        (fun q hq hlt' => ?_) (by omega)
      obtain rfl : q = lineStart table gd y + gd.sx := by omega
      rw [kindAt_of_line hy hend.ge]
      exact if_pos ⟨hw, hend.le⟩
    rw [← hbefore'.unique hs']
    exact hs

end

/-! ### Both -/

section

variable (table : Utf8Table) (gd : Grid) (width : Width) (separators : List UInt8)
    (items : List Utf8.Item)

/-- The number of places up to the cursor. -/
def placesUpTo (gr : GridReader) : Nat :=
  lineStart table gd gr.cy + min gr.cx (endColumn table gd gr.cy) + 1

/-- From the cursor the reader moves to where the next run begins, and from there back to where the
last one began; that is the run of the cursor if it is in one. -/
structure WordsFound (gr gr' gr'' : GridReader) (j : Nat) : Prop where
  next : Returns (fun fuel => gridReaderCursorNextWord table gd width separators fuel gr) gr'
  first : FirstFrom (kindAt table gd items) (placeCount table gd) (placesUpTo table gd gr) j
  stops : StopsAt table gd gr' j
  previous : Returns
    (fun fuel => gridReaderCursorPreviousWord table gd width separators true false fuel gr') gr''
  last : ∀ s, LastBefore (kindAt table gd items) j s → placeAt table gd s = some (gr''.cx, gr''.cy)
  run : ∀ c, placeAt table gd c = some (gr.cx, gr.cy) → kindAt table gd items c ≠ none →
    ∃ s, LastBefore (kindAt table gd items) j s ∧ s ≤ c ∧
    All (kindAt table gd items) (kindAt table gd items c) s (c + 1)

/-- A cursor behind the end of its line is not before a word that begins the next line, and no line
up to the next run that fills the width has more behind it, but for what goes on like its last
character and ends with it. -/
structure Regular (gr : GridReader) : Prop where
  start : endColumn table gd gr.cy < gr.cx →
    ¬ Begins (kindAt table gd items) (lineStart table gd (gr.cy + 1))
  hidden : ∀ y l, gr.cy ≤ y → y < gd.hsize + gd.sy → ¬ Wraps gd y → endColumn table gd y = gd.sx →
    readKind table gd items gd.sx y = some l →
    (∀ q, placesUpTo table gd gr ≤ q → q < lineStart table gd (y + 1) →
      ¬ Begins (kindAt table gd items) q) →
    readKind table gd items (gd.sx - 1) y = some l ∧
    kindAt table gd items (lineStart table gd (y + 1)) ≠ some l

end

section

variable {table : Utf8Table} {gd : Grid} {width : Width} {separators : List UInt8}
    {items : List Utf8.Item} {gr : GridReader}

theorem StopsAt.unique {j j' : Nat} (h : StopsAt table gd gr j) (h' : StopsAt table gd gr j') :
    j = j' := by
  rcases h with h | ⟨rfl, hcy, hcx⟩ <;> rcases h' with h' | ⟨rfl, hcy', hcx'⟩
  · rw [(placeAt_eq_some h).2.2, (placeAt_eq_some h').2.2]
  · exact absurd (placeAt_eq_some h).2.1 (Nat.not_le.mpr hcx')
  · exact absurd (placeAt_eq_some h').2.1 (Nat.not_le.mpr hcx)
  · rfl

theorem seenAt_of_kindAt {p : Nat} (h : kindAt table gd items p ≠ none) :
    seenAt table gd (readKind table gd items) p = kindAt table gd items p := by
  rw [kindAt] at h ⊢
  rw [seenAt]
  cases hplace : placeAt table gd p with
  | none => rfl
  | some q =>
      rw [hplace] at h
      change placeKind table gd items q.1 q.2 ≠ none at h
      change readKind table gd items q.1 q.2 = placeKind table gd items q.1 q.2
      rw [placeKind] at h ⊢
      split_ifs at h ⊢ with hend
      · exact absurd rfl h
      · rfl

theorem seenAt_inside (h : GridWellFormed table gd) {x y : Nat} (hy : y < gd.hsize + gd.sy)
    (hx : x ≤ endColumn table gd y)
    (hsx : x < gd.sx) : seenAt table gd (readKind table gd items) (lineStart table gd y + x) =
      kindAt table gd items (lineStart table gd y + x) := by
  rw [seenAt_of_place (placeAt_of_line hy hx), kindAt_of_line hy hx, placeKind_eq h items hy hsx]

theorem harmless_iff (h : GridWellFormed table gd) (hcx : gr.cx < gd.sx) :
    Harmless (kindAt table gd items) (seenAt table gd (readKind table gd items))
      (placeCount table gd) (placesUpTo table gd gr) ↔
      ∀ y l, gr.cy ≤ y → y < gd.hsize + gd.sy → ¬ Wraps gd y → endColumn table gd y = gd.sx →
        readKind table gd items gd.sx y = some l →
        (∀ q, placesUpTo table gd gr ≤ q → q < lineStart table gd (y + 1) →
          ¬ Begins (kindAt table gd items) q) →
        readKind table gd items (gd.sx - 1) y = some l ∧
        kindAt table gd items (lineStart table gd (y + 1)) ≠ some l := by
  have hafter : ∀ {y}, gr.cy < y → placesUpTo table gd gr ≤ lineStart table gd y := fun hlt => by
    refine le_trans ?_ (lineStart_mono table gd hlt)
    rw [lineStart_succ, placesUpTo, ← Nat.add_assoc]
    exact Nat.add_le_add_right (Nat.add_le_add_left (Nat.min_le_right _ _) _) 1
  refine ⟨fun hharmless y l hcy hy hw hend hhidden hnone => ?_,
    fun hhidden p hp hpn hk hs hnone => ?_⟩
  · have hplace := placeAt_of_line hy hend.ge
    have hcolumn : gd.sx - 1 ≤ endColumn table gd y := by omega
    have hseen : seenAt table gd (readKind table gd items) (lineStart table gd y + gd.sx) =
        some l :=
      (seenAt_of_place hplace).trans hhidden
    have hle : placesUpTo table gd gr ≤ lineStart table gd y + gd.sx := by
      rcases Nat.eq_or_lt_of_le hcy with rfl | hlt
      · rw [placesUpTo, Nat.add_assoc]
        exact Nat.add_le_add_left (lt_of_le_of_lt (Nat.min_le_left _ _) hcx) _
      · exact (hafter hlt).trans (Nat.le_add_right _ _)
    obtain ⟨hbefore, hnext⟩ := hharmless _ hle (lineStart_add_lt hy hend.ge)
      (by rw [kindAt_of_line hy hend.ge]; exact if_pos ⟨hw, hend.le⟩)
        (hseen ▸ Option.some_ne_none l)
      (fun q hq hlt => hnone q hq (by rw [lineStart_succ, hend]; omega))
    rw [hseen] at hbefore hnext
    refine ⟨?_, ?_⟩
    · rw [← hbefore (lineStart table gd y + (gd.sx - 1)) (by omega),
        seenAt_of_place (placeAt_of_line hy hcolumn)]
    · rwa [lineStart_succ, hend]
  · obtain ⟨x, y, hplace⟩ := placeAt_of_lt hpn
    obtain ⟨hy, hx, rfl⟩ := placeAt_eq_some hplace
    have hsee : seenAt table gd (readKind table gd items) (lineStart table gd y + x) =
        readKind table gd items x y :=
      seenAt_of_place hplace
    have hsx : gd.sx ≤ x := Nat.not_lt.mp fun hlt => hs ((seenAt_inside h hy hx hlt).trans hk)
    obtain rfl : gd.sx = x := Nat.le_antisymm hsx (hx.trans (endColumn_le h hy))
    have hend : endColumn table gd y = gd.sx := Nat.le_antisymm (endColumn_le h hy) hx
    have hw : ¬ Wraps gd y := fun hw => by
      have := (lineLimit_ok h hy).2.1 hw
      omega
    have hcy : gr.cy ≤ y := Nat.not_lt.mp fun hlt => by
      have hmono := lineStart_mono table gd (Nat.succ_le_of_lt hlt)
      rw [lineStart_succ, hend] at hmono
      rw [placesUpTo] at hp
      omega
    obtain ⟨l, hl⟩ := Option.ne_none_iff_exists'.mp (hsee ▸ hs)
    obtain ⟨hlast, hnext⟩ := hhidden y l hcy hy hw hend hl fun q hq hlt => hnone q hq (by
      rw [lineStart_succ, hend] at hlt
      omega)
    rw [hsee, hl]
    refine ⟨fun q hq => ?_, ?_⟩
    · obtain rfl : q = lineStart table gd y + (gd.sx - 1) := by omega
      rw [seenAt_of_place (placeAt_of_line hy (by omega : gd.sx - 1 ≤ endColumn table gd y)), hlast]
    · rwa [lineStart_succ, hend] at hnext

/-- Behind the end of a line, a run that is read at the start of the next one begins there. -/
theorem begins_lineStart (h : GridWellFormed table gd) {y : Nat} (hsx : 0 < gd.sx)
    (hy : y < gd.hsize + gd.sy)
    (hw : ¬ Wraps gd y)
    (hbegins : Begins (seenAt table gd (readKind table gd items)) (lineStart table gd (y + 1))) :
    Begins (kindAt table gd items) (lineStart table gd (y + 1)) := by
  by_cases hy' : y + 1 < gd.hsize + gd.sy
  · have hsee := @seenAt_inside table gd items h 0 (y + 1) hy' (Nat.zero_le _) hsx
    have hne : kindAt table gd items (lineStart table gd (y + 1)) ≠ none := hsee ▸ hbegins.1
    refine ⟨hne, fun p hp heq => hne ?_⟩
    rw [lineStart_succ] at hp
    obtain rfl : p = lineStart table gd y + endColumn table gd y := by omega
    rw [← heq, kindAt_of_line hy (Nat.le_refl _)]
    exact if_pos ⟨hw, Nat.le_refl _⟩
  · refine absurd ?_ hbegins.1
    have hle : placeCount table gd ≤ lineStart table gd (y + 1) :=
      lineStart_mono table gd (Nat.not_lt.mp hy')
    rw [seenAt, placeAt, List.getElem?_eq_none hle]
    rfl

/-- Where the next word is found as it is read. -/
theorem nextWord_iff (h : GridWellFormed table gd) (hsingle : SingleWidth table gd)
    (hsplits : Splits width separators items) (hcx : gr.cx < gd.sx)
    (hcy : gr.cy < gd.hsize + gd.sy) :
    ∃ gr' j, Returns (fun fuel => gridReaderCursorNextWord table gd width separators fuel gr) gr' ∧
    StopsAt table gd gr' j ∧
      (gr'.cx ≤ gd.sx ∨ gr'.cx ≤ endColumn table gd gr'.cy + 1) ∧
      (FirstFrom (kindAt table gd items) (placeCount table gd) (placesUpTo table gd gr) j ↔
        Regular table gd items gr) := by
  have hat : At table gd gr (endColumn table gd gr.cy)
      (lineStart table gd gr.cy + min gr.cx (endColumn table gd gr.cy + 1)) :=
        ⟨hcy, .inl hcx.le, rfl, rfl⟩
  obtain ⟨gr', j, hrun, hstops, hcolumn, hseen⟩ := nextWord_ok h (readKind table gd items) hat
  obtain ⟨n, htells⟩ := gridReaderInSet_tells h hsingle hsplits
  refine ⟨gr', j,
    ⟨max n (placeCount table gd + 2), fun fuel hfuel => hrun _ _ fuel (htells fuel (by omega))
    (by omega)⟩, hstops, hcolumn, ?_⟩
  have hsx : 0 < gd.sx := Nat.zero_lt_of_lt hcx
  have hin : min gr.cx (endColumn table gd gr.cy) ≤ endColumn table gd gr.cy := Nat.min_le_right _ _
  have hupTo : placesUpTo table gd gr ≤ placeCount table gd := lineStart_add_lt hcy hin
  obtain ⟨j₀, hfirst⟩ := exists_firstFrom (kindAt table gd items) hupTo
  have hbefore : ∀ p, p + 1 = placesUpTo table gd gr →
      seenAt table gd (readKind table gd items) p = kindAt table gd items p := fun p hp => by
    rw [placesUpTo] at hp
    rw [Nat.succ.inj hp]
    exact seenAt_inside h hcy hin (lt_of_le_of_lt (Nat.min_le_left _ _) hcx)
  have hhidden := (firstFrom_read_iff (fun p hp => seenAt_of_kindAt hp) hbefore (Nat.succ_pos _)
    (kindAt_of_le (Nat.le_refl _)) hfirst).trans (harmless_iff h hcx)
  -- Once the run that is read is searched from the same place, only what is hidden matters.
  have hsame : FirstFrom (seenAt table gd (readKind table gd items)) (placeCount table gd)
      (placesUpTo table gd gr) j →
      (FirstFrom (kindAt table gd items) (placeCount table gd) (placesUpTo table gd gr) j ↔ _) :=
        fun hread =>
    ⟨fun hkind => hhidden.mp (hfirst.unique hkind ▸ hread),
      fun hregular => (hhidden.mpr hregular).unique hread ▸ hfirst⟩
  by_cases hpast : endColumn table gd gr.cy < gr.cx
  · have hw : ¬ Wraps gd gr.cy := fun hw => by
      have := (lineLimit_ok h hcy).2.1 hw
      omega
    have hnext : placesUpTo table gd gr = lineStart table gd (gr.cy + 1) := by
      rw [placesUpTo, Nat.min_eq_right hpast.le, lineStart_succ]
      rfl
    have hindex : lineStart table gd gr.cy + min gr.cx (endColumn table gd gr.cy + 1) =
        placesUpTo table gd gr := by
      rw [Nat.min_eq_right hpast, hnext, lineStart_succ]
    rw [hindex] at hseen
    have hread : ¬ Begins (kindAt table gd items) (placesUpTo table gd gr) →
        FirstFrom (seenAt table gd (readKind table gd items)) (placeCount table gd)
          (placesUpTo table gd gr) j := fun hnot => by
      rcases Nat.lt_or_eq_of_le hupTo with hlt | heq
      · rw [Nat.min_eq_left hlt] at hseen
        exact hseen.of_not_begins fun hbegins =>
          hnot (hnext ▸ begins_lineStart h hsx hcy hw (hnext ▸ hbegins))
      · rw [Nat.min_eq_right (heq ▸ Nat.le_succ _)] at hseen
        exact heq ▸ hseen
    refine ⟨fun hkind => ?_, fun hregular => ?_⟩
    · have hnot : ¬ Begins (kindAt table gd items) (placesUpTo table gd gr) := fun hbegins => by
        rcases Nat.lt_or_eq_of_le hupTo with hlt | heq
        · rw [Nat.min_eq_left hlt] at hseen
          exact hkind.first _ (Nat.le_refl _) hseen.le hbegins
        · exact hbegins.1 (kindAt_of_le heq.ge)
      exact ⟨fun _ => hnext ▸ hnot, (hsame (hread hnot)).mp hkind⟩
    · exact (hsame (hread (hnext ▸ hregular.start hpast))).mpr hregular.hidden
  · have hindex : lineStart table gd gr.cy + min gr.cx (endColumn table gd gr.cy + 1) + 1 =
        placesUpTo table gd gr := by
      rw [placesUpTo, Nat.min_eq_left (by omega), Nat.min_eq_left (Nat.not_lt.mp hpast)]
    rw [hindex, Nat.min_eq_left hupTo] at hseen
    exact ⟨fun hkind => ⟨fun hlt => absurd hlt hpast, (hsame hseen).mp hkind⟩,
      fun hregular => (hsame hseen).mpr hregular.hidden⟩

/-- Moving by words is exact where the line ends do not matter, and nowhere else. -/
theorem gridReaderCursorWords_iff (h : GridWellFormed table gd) (hsingle : SingleWidth table gd)
    (hsplits : Splits width separators items) (hcx : gr.cx < gd.sx)
    (hcy : gr.cy < gd.hsize + gd.sy) :
    (∃ gr' gr'' j, WordsFound table gd width separators items gr gr' gr'' j) ↔
    Regular table gd items gr := by
  obtain ⟨gr', j, hnext, hstops, hcolumn, hiff⟩ := nextWord_iff h hsingle hsplits hcx hcy
  refine ⟨fun ⟨gr₁, gr'', j₁, hfound⟩ => ?_, fun hregular => ?_⟩
  · obtain rfl := hfound.next.unique hnext
    exact hiff.mp (hfound.stops.unique hstops ▸ hfound.first)
  · have hfirst := hiff.mpr hregular
    have hsx : 0 < gd.sx := Nat.zero_lt_of_lt hcx
    obtain ⟨n, htells⟩ := gridReaderInSet_tells h hsingle hsplits
    have hprevious : ∃ gr'' m,
        (∀ whitespace separators fuel, Tells whitespace separators (readKind table gd items) →
        m ≤ fuel → previousWord table gd whitespace separators true false fuel gr' = .ok gr'') ∧
        ∀ s, LastBefore (kindAt table gd items) j s →
        placeAt table gd s = some (gr''.cx, gr''.cy) := by
      rcases hstops with hplace | ⟨rfl, hcy', hcx'⟩
      · obtain ⟨hy, hx, heq⟩ := placeAt_eq_some hplace
        have hle : gr'.cx ≤ gd.sx := hx.trans (endColumn_le h hy)
        obtain ⟨gr'', hrun, hlast⟩ := @previousWord_ok table gd items h hsx gr'.cx gr'.cy j hy
          (fun x hlt => (placeKind_eq h items hy (hlt.trans_le hle)).symm) (.inl hle)
          (by rw [heq, Nat.min_eq_left (Nat.le_succ_of_le hx)])
        exact ⟨gr'', _, hrun, hlast⟩
      · have hrows : gr'.cy + 1 = gd.hsize + gd.sy := by
          rw [hcy', lastLine]
          omega
        have hy : gr'.cy < gd.hsize + gd.sy := by omega
        have hcount : placeCount table gd = lineStart table gd (gr'.cy + 1) := by rw [hrows]; rfl
        have hmin : placeCount table gd = lineStart table gd gr'.cy +
            min gr'.cx (endColumn table gd gr'.cy + 1) := by
          rw [hcount, lineStart_succ, Nat.min_eq_right hcx']
        by_cases hplain : ∀ x, x < gr'.cx → readKind table gd items x gr'.cy =
          placeKind table gd items x gr'.cy
        · obtain ⟨gr'', hrun, hlast⟩ := previousWord_ok h hsx hy hplain hcolumn hmin
          exact ⟨gr'', _, hrun, hlast⟩
        · -- Only behind a line that fills the width is something else read.
          push Not at hplain
          obtain ⟨x, hlt, hne⟩ := hplain
          have hxs : gd.sx ≤ x := Nat.not_lt.mp fun hxs => hne (placeKind_eq h items hy hxs).symm
          have hend : endColumn table gd gr'.cy = gd.sx := by
            have := endColumn_le h hy
            omega
          have hw : ¬ Wraps gd gr'.cy := fun hw => by
            have := (lineLimit_ok h hy).2.1 hw
            omega
          have hx : x = gd.sx := by omega
          have hcx'' : gr'.cx = gd.sx + 1 := by omega
          have hnone : placeKind table gd items gd.sx gr'.cy = none := if_pos ⟨hw, hend.le⟩
          rw [hx, hnone] at hne
          obtain ⟨l, hl⟩ := Option.ne_none_iff_exists'.mp hne
          obtain ⟨hlast, -⟩ := hregular.hidden gr'.cy l (by omega) hy hw hend hl fun q hq hlt =>
              hfirst.first q hq (hcount ▸ hlt)
          obtain ⟨gr'', hrun, hlast'⟩ := previousWord_hidden h hsx hy hw hend hl hlast
          refine ⟨gr'', placeCount table gd + 1, fun whitespace separators fuel htells hfuel => ?_,
            fun s hs => hlast' s (hcount ▸ hs)⟩
          rw [← hrun whitespace separators fuel htells hfuel, ← hcx'']
    obtain ⟨gr'', m, hrun, hlast⟩ := hprevious
    refine ⟨gr', gr'', j, hnext, hfirst, hstops,
      ⟨max n m, fun fuel hfuel => hrun _ _ fuel (htells fuel (by omega)) (by omega)⟩, hlast,
      fun c hplace hkind => ?_⟩
    obtain ⟨-, hx, heq⟩ := placeAt_eq_some hplace
    have hupTo : placesUpTo table gd gr = c + 1 := by rw [placesUpTo, Nat.min_eq_left hx, heq]
    rw [hupTo] at hfirst
    obtain ⟨s, hs⟩ := exists_lastBefore hkind hfirst.le
    exact ⟨s, hs, hs.run hfirst hkind⟩

end

theorem blankEnded_singleWidth : SingleWidth Utf8Table.empty blankEnded := by
  rintro (_ | _ | x) (_ | y) gc hgc <;> obtain rfl := Except.ok.inj hgc <;> exact ⟨rfl, rfl⟩

/-- From the letter to the end and back. -/
theorem letter_word :
    ∃ gr' gr'' j, WordsFound Utf8Table.empty blankEnded (fun _ => some 1) [0x2d] [.byte 0x2d] ⟨0, 0⟩
      gr' gr'' j := by
  refine (gridReaderCursorWords_iff blankEnded_wellFormed blankEnded_singleWidth (.byte rfl .nil)
    (by decide) (by decide)).mpr
    ⟨fun hlt => absurd hlt (by decide), fun y l _ hy _ hend => ?_⟩
  obtain rfl : y = 0 := Nat.lt_one_iff.mp hy
  exact absurd hend (by decide)

end Ztmux.Grids
