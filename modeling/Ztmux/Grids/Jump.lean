import Ztmux.Grids.Reader

/-!
Jumping to a character.

Both ways the first place is found that holds the character, in the line of the cursor and those
joined to it. A line is looked at up to its length, which leaves out the blanks at its end; only the
line that a jump back starts in is looked at from the cursor on.
-/

namespace Ztmux.Grids

open Utf8 ScreenWrite

/-! ### Lines -/

/-- A line that goes on in the next. -/
def Wraps (gd : Grid) (y : Nat) : Prop := ∃ gl, gd.linedata[y]? = some gl ∧ gl.flags.wrapped = true

/-- The lines from `y` on wrap into `y'`. -/
structure WrapsInto (gd : Grid) (y y' : Nat) : Prop where
  le : y ≤ y'
  inside : y' < gd.hsize + gd.sy
  wraps : ∀ k, y ≤ k → k < y' → Wraps gd k

section

variable {table : Utf8Table} {gd : Grid} {y y' : Nat}

theorem WrapsInto.refl (h : y < gd.hsize + gd.sy) : WrapsInto gd y y :=
  ⟨Nat.le_refl y, h, fun _ hle hlt => absurd hle (Nat.not_le.mpr hlt)⟩

theorem joined_below (h : y < gd.hsize + gd.sy) :
    WrapsInto gd y y' ↔ y' = y ∨ Wraps gd y ∧ WrapsInto gd (y + 1) y' := by
  refine ⟨fun hj => ?_, fun hj => ?_⟩
  · rcases Nat.eq_or_lt_of_le hj.le with heq | hlt
    · exact .inl heq.symm
    · exact .inr ⟨hj.wraps y (Nat.le_refl y) hlt, hlt, hj.inside,
        fun k hle => hj.wraps k (Nat.le_of_succ_le hle)⟩
  · rcases hj with rfl | ⟨hwraps, hj⟩
    · exact .refl h
    · refine ⟨Nat.le_of_succ_le hj.le, hj.inside, fun k hle hlt => ?_⟩
      rcases Nat.eq_or_lt_of_le hle with rfl | hle
      · exact hwraps
      · exact hj.wraps k hle hlt

theorem joined_above (h : y + 1 < gd.hsize + gd.sy) :
    WrapsInto gd y' (y + 1) ↔ y' = y + 1 ∨ Wraps gd y ∧ WrapsInto gd y' y := by
  refine ⟨fun hj => ?_, fun hj => ?_⟩
  · rcases Nat.eq_or_lt_of_le hj.le with heq | hlt
    · exact .inl heq
    · exact .inr ⟨hj.wraps y (Nat.le_of_lt_succ hlt) (Nat.lt_succ_self y), Nat.le_of_lt_succ hlt,
        Nat.lt_of_succ_lt h, fun k hle hlt => hj.wraps k hle (Nat.lt_succ_of_lt hlt)⟩
  · rcases hj with rfl | ⟨hwraps, hj⟩
    · exact .refl h
    · refine ⟨Nat.le_succ_of_le hj.le, h, fun k hle hlt => ?_⟩
      rcases Nat.eq_or_lt_of_le (Nat.le_of_lt_succ hlt) with rfl | hlt
      · exact hwraps
      · exact hj.wraps k hle hlt

theorem gridGetLine_ok (h : GridWellFormed table gd) (hy : y < gd.hsize + gd.sy) :
    ∃ gl, gridGetLine gd y = .ok gl ∧ (gl.flags.wrapped = true ↔ Wraps gd y) := by
  obtain ⟨gl, hgl, -⟩ := h.line_at hy
  refine ⟨gl,
    by rw [gridGetLine, hgl]; rfl, fun hwraps => ⟨gl, hgl, hwraps⟩, fun ⟨gl', hgl', hwraps⟩ => ?_⟩
  obtain rfl := Option.some.inj (hgl.symm.trans hgl')
  exact hwraps

/-- A place of the grid with a cell of this kind. -/
def CellIs (table : Utf8Table) (gd : Grid) (p : GridCell → Bool) (x y : Nat) : Prop :=
  ∃ gc, gridGetCell table gd x y = .ok gc ∧ p gc = true

theorem not_cellIs {p : GridCell → Bool} {x : Nat} {gc : GridCell}
    (hgc : gridGetCell table gd x y = .ok gc) (hp : ¬ p gc = true) :
    ¬ CellIs table gd p x y := by
  rintro ⟨gc', hgc', hp'⟩
  obtain rfl := Except.ok.inj (hgc.symm.trans hgc')
  exact hp hp'

theorem trimBlanks_ok (h : GridWellFormed table gd) (y n : Nat) :
    ∃ m, trimBlanks table gd y n = .ok m ∧ m ≤ n ∧
    (∀ x, m ≤ x → x < n → CellIs table gd isBlank x y) ∧
      ∀ x, x + 1 = m → ¬ CellIs table gd isBlank x y := by
  induction n with
  | zero =>
      exact ⟨0, rfl, Nat.le_refl 0, fun x _ hlt => absurd hlt (Nat.not_lt_zero x),
        fun x hx => (nomatch hx)⟩
  | succ n ih =>
      obtain ⟨gc, hgc, -⟩ := h.read n y
      rw [trimBlanks, hgc, ok_bind]
      by_cases hblank : isBlank gc = true
      · rw [if_pos hblank]
        obtain ⟨m, hok, hle, hafter, hlast⟩ := ih
        refine ⟨m, hok, Nat.le_succ_of_le hle, fun x hmx hx => ?_, hlast⟩
        rcases Nat.eq_or_lt_of_le (Nat.le_of_lt_succ hx) with rfl | hlt
        · exact ⟨gc, hgc, hblank⟩
        · exact hafter x hmx hlt
      · rw [if_neg hblank]
        refine ⟨n + 1, rfl, Nat.le_refl _, fun x hle hlt => absurd hle (Nat.not_le.mpr hlt),
          fun x hx => ?_⟩
        obtain rfl := Nat.succ.inj hx
        exact not_cellIs hgc hblank

/-- The length of a line: from there on the cells within the width are blank, and the one before is
not. -/
theorem gridLineLength_ok (h : GridWellFormed table gd) (hy : y < gd.hsize + gd.sy) :
    ∃ n, gridLineLength table gd y = .ok n ∧ n ≤ gd.sx ∧
    (∀ x, n ≤ x → x < gd.sx → CellIs table gd isBlank x y) ∧
      ∀ x, x + 1 = n → ¬ CellIs table gd isBlank x y := by
  obtain ⟨gl, hgl, -⟩ := h.line_at hy
  obtain ⟨n, hok, hle, hafter, hlast⟩ :=
    trimBlanks_ok h y (if gd.sx < gl.cellsize then gd.sx else gl.cellsize)
  refine ⟨n, ?_, hle.trans ?_, fun x hnx hx => ?_, hlast⟩
  · rw [gridLineLength, gridGetLine, hgl]
    exact hok
  · split_ifs <;> omega
  · by_cases hin : x < gl.cellsize
    · exact hafter x hnx (by split_ifs <;> omega)
    · refine ⟨GRID_DEFAULT_CELL, ?_, by decide⟩
      rw [gridGetCell_of_lt hy hgl]
      exact lineGetCell_of_le (Nat.not_lt.mp hin) table

end

/-! ### Forward -/

section

variable (table : Utf8Table) (gd : Grid) (jc : Utf8Data)

/-- The character is at this place. -/
def Shown (x y : Nat) : Prop := CellIs table gd (fun gc => gridReaderCellEqualsData gc jc) x y

/-- A place of a line before its length. -/
def InLine (x y : Nat) : Prop := ∃ n, gridLineLength table gd y = .ok n ∧ x < n

/-- A place with the character, at or after the cursor, in the lines that its line wraps into. -/
structure ShownAfter (cx cy x y : Nat) : Prop where
  joined : WrapsInto gd cy y
  inLine : InLine table gd x y
  after : y = cy → cx ≤ x
  shown : Shown table gd jc x y

/-- A place with the character, at or before the cursor, in the lines that wrap into its line. -/
structure ShownBefore (cx cy x y : Nat) : Prop where
  joined : WrapsInto gd y cy
  inLine : y ≠ cy → InLine table gd x y
  before : y = cy → x ≤ cx
  shown : Shown table gd jc x y

end

section

variable {table : Utf8Table} {gd : Grid} {jc : Utf8Data}

theorem jumpInLine_ok (h : GridWellFormed table gd) (jc : Utf8Data) (y n px : Nat) :
    ∃ found, jumpInLine table gd jc y n px = .ok found ∧
      (found = none → ∀ x, px ≤ x → x < px + n → ¬ Shown table gd jc x y) ∧
      ∀ x, found = some x → px ≤ x ∧ x < px + n ∧ Shown table gd jc x y ∧ ∀ x', px ≤ x' → x' < x →
      ¬ Shown table gd jc x' y := by
  induction n generalizing px with
  | zero =>
      exact ⟨none, rfl, fun _ x hle hlt => absurd hle (Nat.not_le.mpr hlt),
        fun x hx => (by cases hx)⟩
  | succ n ih =>
      obtain ⟨gc, hgc, -⟩ := h.read px y
      rw [jumpInLine, hgc, ok_bind]
      by_cases heq : gridReaderCellEqualsData gc jc = true
      · rw [if_pos heq]
        refine ⟨some px, rfl, fun hnone => (by cases hnone), fun x hx => ?_⟩
        obtain rfl := Option.some.inj hx
        exact ⟨Nat.le_refl _,
          by omega, ⟨gc, hgc, heq⟩, fun x' hle hlt => absurd hle (Nat.not_le.mpr hlt)⟩
      · rw [if_neg heq]
        obtain ⟨found, hok, hnone, hsome⟩ := ih (px + 1)
        have hhere : ∀ x, px ≤ x → ¬ px + 1 ≤ x → ¬ Shown table gd jc x y := fun x hle hnot => by
          obtain rfl : x = px := by omega
          exact not_cellIs hgc heq
        refine ⟨found, hok, fun hfound x hle hlt => ?_, fun x hfound => ?_⟩
        · by_cases hle' : px + 1 ≤ x
          · exact hnone hfound x hle' (by omega)
          · exact hhere x hle hle'
        · obtain ⟨hle, hlt, hshown, hfirst⟩ := hsome x hfound
          refine ⟨by omega, by omega, hshown, fun x' hle' hlt' => ?_⟩
          by_cases hle'' : px + 1 ≤ x'
          · exact hfirst x' hle'' hlt'
          · exact hhere x' hle' hle''

/-- A place after the cursor is in its line or after the start of the next. -/
theorem shownAfter_below {cx cy x y : Nat} (hcy : cy < gd.hsize + gd.sy) {n : Nat}
    (hn : gridLineLength table gd cy = .ok n) :
    ShownAfter table gd jc cx cy x y ↔
      (y = cy ∧ cx ≤ x ∧ x < n ∧ Shown table gd jc x cy) ∨
      (Wraps gd cy ∧ ShownAfter table gd jc 0 (cy + 1) x y) := by
  refine ⟨fun ⟨hj, hin, hafter, hshown⟩ => ?_, fun hcases => ?_⟩
  · rcases (joined_below hcy).mp hj with rfl | ⟨hwraps, hj⟩
    · obtain ⟨n', hn', hlt⟩ := hin
      obtain rfl := Except.ok.inj (hn.symm.trans hn')
      exact .inl ⟨rfl, hafter rfl, hlt, hshown⟩
    · exact .inr ⟨hwraps, hj, hin, fun _ => Nat.zero_le x, hshown⟩
  · rcases hcases with ⟨rfl, hle, hlt, hshown⟩ | ⟨hwraps, hj, hin, -, hshown⟩
    · exact ⟨.refl hcy, ⟨n, hn, hlt⟩, fun _ => hle, hshown⟩
    · refine ⟨(joined_below hcy).mpr (.inr ⟨hwraps, hj⟩), hin, fun heq => ?_, hshown⟩
      have hle := hj.le
      omega

/-- A place that is the first in its line is the first of all. -/
theorem shownAfter_first {cx cy x n : Nat} (hcy : cy < gd.hsize + gd.sy)
    (hn : gridLineLength table gd cy = .ok n)
    (hle : cx ≤ x) (hlt : x < n) (hshown : Shown table gd jc x cy)
    (hfirst : ∀ x', cx ≤ x' → x' < x → ¬ Shown table gd jc x' cy) :
    ShownAfter table gd jc cx cy x cy ∧
      ∀ x' y', ShownAfter table gd jc cx cy x' y' → cy < y' ∨ cy = y' ∧ x ≤ x' := by
  refine ⟨⟨.refl hcy, ⟨n, hn, hlt⟩, fun _ => hle, hshown⟩, fun x' y' h => ?_⟩
  rcases Nat.eq_or_lt_of_le h.joined.le with rfl | hbelow
  · refine .inr ⟨rfl, Nat.not_lt.mp fun hlt' => ?_⟩
    exact hfirst x' (h.after rfl) hlt' h.shown
  · exact .inl hbelow

theorem jumpLines_ok (h : GridWellFormed table gd) (jc : Utf8Data) {n px py : Nat}
    (hn : py + n + 1 = gd.hsize + gd.sy) :
    ∃ found, jumpLines table gd jc n px py = .ok found ∧
      (found = none → ∀ x y, ¬ ShownAfter table gd jc px py x y) ∧
      ∀ x y, found = some (x, y) → ShownAfter table gd jc px py x y ∧
        ∀ x' y', ShownAfter table gd jc px py x' y' → y < y' ∨ y = y' ∧ x ≤ x' := by
  induction n generalizing px py with
  | zero =>
      have hpy : py < gd.hsize + gd.sy := by omega
      obtain ⟨len, hlen, -⟩ := gridLineLength_ok h hpy
      obtain ⟨found, hok, hnone, hsome⟩ := jumpInLine_ok h jc py (len - px) px
      rw [jumpLines, hlen, ok_bind, hok, ok_bind]
      cases found with
      | some x =>
          obtain ⟨hle, hlt, hshown, hfirst⟩ := hsome x rfl
          refine ⟨some (x, py), rfl, fun hnone => (nomatch hnone), fun x' y' heq => ?_⟩
          obtain ⟨rfl, rfl⟩ := Prod.mk.inj (Option.some.inj heq)
          exact shownAfter_first hpy hlen hle (by omega) hshown hfirst
      | none =>
          refine ⟨none, rfl, fun _ x y hafter => ?_, fun x y heq => (nomatch heq)⟩
          rcases (shownAfter_below hpy hlen).mp hafter with ⟨rfl, hle, hlt, hshown⟩ | ⟨-, hj, -⟩
          · exact hnone rfl x hle (by omega) hshown
          · have hle := hj.le
            have hin := hj.inside
            omega
  | succ n ih =>
      have hpy : py < gd.hsize + gd.sy := by omega
      obtain ⟨len, hlen, -⟩ := gridLineLength_ok h hpy
      obtain ⟨found, hok, hnone, hsome⟩ := jumpInLine_ok h jc py (len - px) px
      rw [jumpLines, hlen, ok_bind, hok, ok_bind]
      cases found with
      | some x =>
          obtain ⟨hle, hlt, hshown, hfirst⟩ := hsome x rfl
          refine ⟨some (x, py), rfl, fun hnone => (nomatch hnone), fun x' y' heq => ?_⟩
          obtain ⟨rfl, rfl⟩ := Prod.mk.inj (Option.some.inj heq)
          exact shownAfter_first hpy hlen hle (by omega) hshown hfirst
      | none =>
          obtain ⟨gl, hgl, hwraps⟩ := gridGetLine_ok h hpy
          have hbelow : ∀ x y, ShownAfter table gd jc px py x y ↔ Wraps gd py ∧
              ShownAfter table gd jc 0 (py + 1) x y := fun x y =>
            (shownAfter_below hpy hlen).trans
              (or_iff_right fun ⟨_, hle, hlt, hshown⟩ => hnone rfl x hle (by omega) hshown)
          dsimp only
          rw [hgl, ok_bind]
          by_cases hwrapped : gl.flags.wrapped = true
          · obtain ⟨found, hok', hnone', hsome'⟩ := @ih 0 (py + 1) (by omega)
            have hw := hwraps.mp hwrapped
            rw [hwrapped, Bool.not_true, if_neg Bool.false_ne_true]
            refine ⟨found, hok', fun hfound x y hafter => hnone' hfound x y
              ((hbelow x y).mp hafter).2, fun x y hfound => ?_⟩
            obtain ⟨hafter, hfirst⟩ := hsome' x y hfound
            exact ⟨(hbelow x y).mpr ⟨hw, hafter⟩,
              fun x' y' hafter' => hfirst x' y' ((hbelow x' y').mp hafter').2⟩
          · rw [Bool.not_eq_true] at hwrapped
            rw [hwrapped, Bool.not_false, if_pos rfl]
            refine ⟨none, rfl, fun _ x y hafter => ?_, fun x y heq => (nomatch heq)⟩
            exact absurd (hwraps.mpr ((hbelow x y).mp hafter).1) (Bool.eq_false_iff.mp hwrapped)

/-! ### Backward -/

theorem jumpBackInLine_ok (h : GridWellFormed table gd) (jc : Utf8Data) (y px : Nat) :
    ∃ found, jumpBackInLine table gd jc y px = .ok found ∧
      (found = none → ∀ x, x < px → ¬ Shown table gd jc x y) ∧
      ∀ x, found = some x → x < px ∧ Shown table gd jc x y ∧ ∀ x', x < x' → x' < px →
      ¬ Shown table gd jc x' y := by
  induction px with
  | zero =>
      exact ⟨none, rfl, fun _ x hlt => absurd hlt (Nat.not_lt_zero x), fun x hx => (by cases hx)⟩
  | succ px ih =>
      obtain ⟨gc, hgc, -⟩ := h.read px y
      rw [jumpBackInLine, hgc, ok_bind]
      by_cases heq : gridReaderCellEqualsData gc jc = true
      · rw [if_pos heq]
        refine ⟨some px, rfl, fun hnone => (by cases hnone), fun x hx => ?_⟩
        obtain rfl := Option.some.inj hx
        exact ⟨Nat.lt_succ_self _, ⟨gc, hgc, heq⟩, fun x' hlt hlt' => absurd hlt' (by omega)⟩
      · rw [if_neg heq]
        obtain ⟨found, hok, hnone, hsome⟩ := ih
        have hhere : ∀ x, x < px + 1 → ¬ x < px → ¬ Shown table gd jc x y := fun x hlt hnot => by
          obtain rfl : x = px := by omega
          exact not_cellIs hgc heq
        refine ⟨found, hok, fun hfound x hlt => ?_, fun x hfound => ?_⟩
        · by_cases hlt' : x < px
          · exact hnone hfound x hlt'
          · exact hhere x hlt hlt'
        · obtain ⟨hlt, hshown, hlast⟩ := hsome x hfound
          refine ⟨Nat.lt_succ_of_lt hlt, hshown, fun x' hx' hlt' => ?_⟩
          by_cases hlt'' : x' < px
          · exact hlast x' hx' hlt''
          · exact hhere x' hlt' hlt''

/-- A place with the character in the first columns of a line, or in the lines that wrap into it. -/
structure ShownBehind (table : Utf8Table) (gd : Grid) (jc : Utf8Data) (xx cy x y : Nat) : Prop where
  joined : WrapsInto gd y cy
  inLine : y ≠ cy → InLine table gd x y
  before : y = cy → x < xx
  shown : Shown table gd jc x y

theorem shownBehind_above {xx cy x y : Nat} (hcy : cy + 1 < gd.hsize + gd.sy) {n : Nat}
    (hn : gridLineLength table gd cy = .ok n) :
    ShownBehind table gd jc xx (cy + 1) x y ↔
      (y = cy + 1 ∧ x < xx ∧ Shown table gd jc x (cy + 1)) ∨
      (Wraps gd cy ∧ ShownBehind table gd jc n cy x y) := by
  refine ⟨fun ⟨hj, hin, hbefore, hshown⟩ => ?_, fun hcases => ?_⟩
  · rcases (joined_above hcy).mp hj with rfl | ⟨hwraps, hj⟩
    · exact .inl ⟨rfl, hbefore rfl, hshown⟩
    · have hle := hj.le
      refine .inr ⟨hwraps, hj, fun _ => hin (by omega), fun heq => ?_, hshown⟩
      obtain ⟨n', hn', hlt⟩ := hin (by omega)
      rw [heq] at hn'
      obtain rfl := Except.ok.inj (hn.symm.trans hn')
      exact hlt
  · rcases hcases with ⟨rfl, hlt, hshown⟩ | ⟨hwraps, hj, hin, hbefore, hshown⟩
    · exact ⟨.refl hcy, fun hne => absurd rfl hne, fun _ => hlt, hshown⟩
    · have hle := hj.le
      refine ⟨(joined_above hcy).mpr (.inr ⟨hwraps, hj⟩), fun _ => ?_,
        fun heq => absurd heq (by omega), hshown⟩
      by_cases heq : y = cy
      · exact ⟨n, heq ▸ hn, hbefore heq⟩
      · exact hin heq

/-- A place that is the last in its line is the last of all. -/
theorem shownBehind_last {xx cy x : Nat} (hcy : cy < gd.hsize + gd.sy) (hlt : x < xx)
    (hshown : Shown table gd jc x cy)
    (hlast : ∀ x', x < x' → x' < xx → ¬ Shown table gd jc x' cy) :
    ShownBehind table gd jc xx cy x cy ∧
      ∀ x' y', ShownBehind table gd jc xx cy x' y' → y' < cy ∨ y' = cy ∧ x' ≤ x := by
  refine ⟨⟨.refl hcy, fun hne => absurd rfl hne, fun _ => hlt, hshown⟩, fun x' y' h => ?_⟩
  rcases Nat.eq_or_lt_of_le h.joined.le with rfl | habove
  · refine .inr ⟨rfl, Nat.not_lt.mp fun hlt' => ?_⟩
    exact hlast x' hlt' (h.before rfl) h.shown
  · exact .inl habove

theorem jumpBackLines_ok (h : GridWellFormed table gd) (jc : Utf8Data) {xx cy : Nat}
    (hcy : cy < gd.hsize + gd.sy) :
    ∃ found, jumpBackLines table gd jc (cy + 1) xx = .ok found ∧
      (found = none → ∀ x y, ¬ ShownBehind table gd jc xx cy x y) ∧
      ∀ x y, found = some (x, y) → ShownBehind table gd jc xx cy x y ∧
        ∀ x' y', ShownBehind table gd jc xx cy x' y' → y' < y ∨ y' = y ∧ x' ≤ x := by
  induction cy generalizing xx with
  | zero =>
      obtain ⟨found, hok, hnone, hsome⟩ := jumpBackInLine_ok h jc 0 xx
      rw [jumpBackLines, hok, ok_bind]
      cases found with
      | some x =>
          obtain ⟨hlt, hshown, hlast⟩ := hsome x rfl
          refine ⟨some (x, 0), rfl, fun hnone => (nomatch hnone), fun x' y' heq => ?_⟩
          obtain ⟨rfl, rfl⟩ := Prod.mk.inj (Option.some.inj heq)
          exact shownBehind_last hcy hlt hshown hlast
      | none =>
          refine ⟨none, rfl, fun _ x y hbehind => ?_, fun x y heq => (nomatch heq)⟩
          obtain rfl := Nat.le_zero.mp hbehind.joined.le
          exact hnone rfl x (hbehind.before rfl) hbehind.shown
  | succ cy ih =>
      have habove : cy < gd.hsize + gd.sy := Nat.lt_of_succ_lt hcy
      obtain ⟨found, hok, hnone, hsome⟩ := jumpBackInLine_ok h jc (cy + 1) xx
      rw [jumpBackLines, hok, ok_bind]
      cases found with
      | some x =>
          obtain ⟨hlt, hshown, hlast⟩ := hsome x rfl
          refine ⟨some (x, cy + 1), rfl, fun hnone => (nomatch hnone), fun x' y' heq => ?_⟩
          obtain ⟨rfl, rfl⟩ := Prod.mk.inj (Option.some.inj heq)
          exact shownBehind_last hcy hlt hshown hlast
      | none =>
          obtain ⟨gl, hgl, hwraps⟩ := gridGetLine_ok h habove
          obtain ⟨len, hlen, -⟩ := gridLineLength_ok h habove
          have hbehind : ∀ x y, ShownBehind table gd jc xx (cy + 1) x y ↔ Wraps gd cy ∧
              ShownBehind table gd jc len cy x y :=
            fun x y =>
              (shownBehind_above hcy hlen).trans
                (or_iff_right fun ⟨_, hlt, hshown⟩ => hnone rfl x hlt hshown)
          dsimp only
          rw [hgl, ok_bind]
          by_cases hwrapped : gl.flags.wrapped = true
          · obtain ⟨found, hok', hnone', hsome'⟩ := @ih len habove
            have hw := hwraps.mp hwrapped
            rw [hwrapped, Bool.not_true, if_neg Bool.false_ne_true, hlen, ok_bind]
            refine ⟨found, hok', fun hfound x y hb => hnone' hfound x y ((hbehind x y).mp hb).2,
              fun x y hfound => ?_⟩
            obtain ⟨hb, hlast⟩ := hsome' x y hfound
            exact ⟨(hbehind x y).mpr ⟨hw, hb⟩,
              fun x' y' hb' => hlast x' y' ((hbehind x' y').mp hb').2⟩
          · rw [Bool.not_eq_true] at hwrapped
            rw [hwrapped, Bool.not_false, if_pos rfl]
            refine ⟨none, rfl, fun _ x y hb => ?_, fun x y heq => (nomatch heq)⟩
            exact absurd (hwraps.mpr ((hbehind x y).mp hb).1) (Bool.eq_false_iff.mp hwrapped)

/-! ### Both -/

/-- Of the places there are, the reader is moved to one that comes before or after all others;
without any it stays. -/
structure JumpsTo (places : Nat → Nat → Prop) (order : Nat → Nat → Nat → Nat → Prop)
    (gr : GridReader)
    (r : Bool × GridReader) : Prop where
  success : r.1 = true ↔ ∃ x y, places x y
  moved : r.1 = true → places r.2.cx r.2.cy ∧ ∀ x y, places x y → order r.2.cx r.2.cy x y
  stays : r.1 = false → r.2 = gr

theorem jumpsTo_of_found {places : Nat → Nat → Prop} {order : Nat → Nat → Nat → Nat → Prop}
    (gr : GridReader)
    {found : Option (Nat × Nat)} (hnone : found = none → ∀ x y, ¬ places x y)
    (hsome : ∀ x y, found = some (x, y) → places x y ∧ ∀ x' y', places x' y' → order x y x' y') :
    JumpsTo places order gr (found.elim (false, gr) fun p => (true, ⟨p.1, p.2⟩)) := by
  cases found with
  | none =>
      exact ⟨⟨fun h => (nomatch h), fun ⟨x, y, h⟩ => absurd h (hnone rfl x y)⟩,
        fun h => (nomatch h), fun _ => rfl⟩
  | some p =>
      obtain ⟨hplace, horder⟩ := hsome p.1 p.2 rfl
      exact ⟨⟨fun _ => ⟨p.1, p.2, hplace⟩, fun _ => rfl⟩, fun _ => ⟨hplace, horder⟩,
        fun h => (nomatch h)⟩

/-- Jumping forward finds the first place with the character from the cursor on and jumping back the
last one up to the cursor, in the lines that are joined to that of the cursor. -/
theorem gridReaderCursorJump_exact (h : GridWellFormed table gd) {gr : GridReader}
    (hcy : gr.cy < gd.hsize + gd.sy) :
    (∃ r, gridReaderCursorJump table gd jc gr = .ok r ∧
      JumpsTo (ShownAfter table gd jc gr.cx gr.cy) (fun x y x' y' => y < y' ∨ y = y' ∧ x ≤ x') gr
        r) ∧
    ∃ r, gridReaderCursorJumpBack table gd jc gr = .ok r ∧
      JumpsTo (ShownBefore table gd jc gr.cx gr.cy) (fun x y x' y' => y' < y ∨ y' = y ∧ x' ≤ x) gr
        r := by
  refine ⟨?_, ?_⟩
  · obtain ⟨found, hok, hnone, hsome⟩ :=
      @jumpLines_ok table gd h jc (lastLine gd - gr.cy) gr.cx gr.cy (by rw [lastLine]; omega)
    refine ⟨_, ?_, jumpsTo_of_found gr hnone hsome⟩
    rw [gridReaderCursorJump, if_neg (by rw [lastLine]; omega), hok, ok_bind]
    cases found <;> rfl
  · obtain ⟨found, hok, hnone, hsome⟩ := @jumpBackLines_ok table gd h jc (gr.cx + 1) gr.cy hcy
    have hbefore : ∀ x y, ShownBefore table gd jc gr.cx gr.cy x y ↔
        ShownBehind table gd jc (gr.cx + 1) gr.cy x y := fun x y =>
      ⟨fun ⟨hj, hin, hb, hs⟩ => ⟨hj, hin, fun heq => Nat.lt_succ_of_le (hb heq), hs⟩,
        fun ⟨hj, hin, hb, hs⟩ => ⟨hj, hin, fun heq => Nat.le_of_lt_succ (hb heq), hs⟩⟩
    refine ⟨_, ?_, jumpsTo_of_found gr (fun hfound x y hb => hnone hfound x y ((hbefore x y).mp hb))
      fun x y hfound => ?_⟩
    · rw [gridReaderCursorJumpBack, hok, ok_bind]
      cases found <;> rfl
    · obtain ⟨hb, hlast⟩ := hsome x y hfound
      exact ⟨(hbefore x y).mpr hb, fun x' y' hb' => hlast x' y' ((hbefore x' y').mp hb')⟩

end

/-- A line of a letter and a blank. -/
def blankEnded : Grid :=
  ⟨4, 1, 0, 0, [{ GridLine.zeroed with
    celldata := [{ GRID_CLEARED_ENTRY with data := 0x61 }, GRID_CLEARED_ENTRY]
    cellused := 2 }]⟩

theorem blankEnded_wellFormed : GridWellFormed Utf8Table.empty blankEnded :=
  .of_packed rfl (by decide)

/-- Two rows that are one line, with the same letter in either. -/
def wrappedLetters : Grid :=
  ⟨2, 2, 0, 0, [{ GridLine.zeroed with
      celldata :=
        [{ GRID_CLEARED_ENTRY with data := 0x61 }, { GRID_CLEARED_ENTRY with data := 0x62 }]
      cellused := 2
      flags := { GridLineFlags.empty with wrapped := true } },
    { GridLine.zeroed with
      celldata := [GRID_CLEARED_ENTRY, { GRID_CLEARED_ENTRY with data := 0x61 }]
      cellused := 2 }]⟩

theorem wrappedLetters_wellFormed : GridWellFormed Utf8Table.empty wrappedLetters :=
  .of_packed rfl (by decide)

/-- From behind the letter of the first row a jump forward finds that of the second. -/
theorem letter_found :
    gridReaderCursorJump Utf8Table.empty wrappedLetters (utf8Set 0x61) ⟨1, 0⟩ =
        .ok (true, ⟨1, 1⟩) ∧
      ShownAfter Utf8Table.empty wrappedLetters (utf8Set 0x61) 1 0 1 1 ∧
      ∀ x y, ShownAfter Utf8Table.empty wrappedLetters (utf8Set 0x61) 1 0 x y →
        1 < y ∨ 1 = y ∧ 1 ≤ x := by
  obtain ⟨⟨r, hr, hjumps⟩, -⟩ := @gridReaderCursorJump_exact Utf8Table.empty wrappedLetters
    (utf8Set 0x61) wrappedLetters_wellFormed ⟨1, 0⟩ (by decide)
  have hfound : gridReaderCursorJump Utf8Table.empty wrappedLetters (utf8Set 0x61) ⟨1, 0⟩ =
      .ok (true, ⟨1, 1⟩) := rfl
  obtain rfl := Except.ok.inj (hr.symm.trans hfound)
  exact ⟨hfound, hjumps.moved rfl⟩

/-- A blank at the end of a line is not found forward, and a jump back finds the one that the cursor
is on. -/
theorem lastBlank_missed :
    gridReaderCursorJump Utf8Table.empty blankEnded (utf8Set 0x20) ⟨0, 0⟩ = .ok (false, ⟨0, 0⟩) ∧
      gridReaderCursorJumpBack Utf8Table.empty blankEnded (utf8Set 0x20) ⟨1, 0⟩ =
        .ok (true, ⟨1, 0⟩) ∧
      Shown Utf8Table.empty blankEnded (utf8Set 0x20) 1 0 :=
  ⟨rfl, rfl, ⟨_, rfl, rfl⟩⟩

end Ztmux.Grids
