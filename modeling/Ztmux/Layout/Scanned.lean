import Ztmux.Layout.Custom
import Ztmux.Layout.Supply

/-!
What is read of a layout's text.

The cells that are read are tiled and every node has a cell. The conversions of `sscanf` are given
for texts in which the numbers are plain digits.
-/

namespace Ztmux.Layout

open LayoutCell

variable {scan : Sscanf}

theorem layoutConstruct_solid (fuel : Nat) :
    (∀ s c rest, layoutConstruct scan fuel s = .ok (some (c, rest)) → Solid c) ∧
    (∀ s cs rest, constructCells scan fuel s = .ok (some (cs, rest)) → cs ≠ [] ∧
      ∀ c ∈ cs, Solid c) := by
  induction fuel with
  | zero =>
      constructor
      · intro s c rest h
        cases h
      · intro s cs rest h
        cases h
  | succ fuel ih =>
      constructor
      · intro s c rest h
        rw [layoutConstruct] at h
        split_ifs at h with hdigit
        · cases h
        · cases hg : scanGeometry scan s with
          | none => rw [hg] at h; cases h
          | some g =>
              cases hs : skipGeometry s with
              | none => rw [hg, hs] at h; cases h
              | some s₁ =>
                  simp only [hg, hs] at h
                  split_ifs at h with hend
                  · cases h
                    exact .windowpane
                  · cases hopen : opened (skipPaneId s₁) with
                    | none => simp only [hopen] at h; cases h
                    | some r =>
                        simp only [hopen] at h
                        obtain ⟨q, hq, h⟩ := bind_eq_ok.mp h
                        cases q with
                        | none => cases h
                        | some q =>
                            obtain ⟨s₄, -, h⟩ := Option.map_eq_some_iff.mp (Except.ok.inj h)
                            cases h
                            obtain ⟨hne, hcells⟩ := ih.2 _ _ _ hq
                            exact .node hne hcells
      · intro s cs rest h
        rw [constructCells] at h
        obtain ⟨q, hq, h⟩ := bind_eq_ok.mp h
        cases q with
        | none => cases h
        | some q =>
            have hc := ih.1 _ _ _ hq
            cases hcomma : literal ',' q.2 with
            | none =>
                simp only [hcomma] at h
                cases h
                exact ⟨List.cons_ne_nil _ _, List.forall_mem_singleton.mpr hc⟩
            | some s₂ =>
                simp only [hcomma] at h
                obtain ⟨r', hr', h⟩ := bind_eq_ok.mp h
                obtain ⟨q', rfl, h⟩ := Option.map_eq_some_iff.mp (Except.ok.inj h)
                cases h
                obtain ⟨-, hcells⟩ := ih.2 _ _ _ hr'
                exact ⟨List.cons_ne_nil _ _, List.forall_mem_cons.mpr ⟨hc, hcells⟩⟩

/-! ### Reading step by step -/

section

variable {fuel : Nat} {s s₁ s₂ s₃ rest : Text} {c : LayoutCell} {cells : List LayoutCell}
    {t : LayoutType} {g : Geometry}

theorem constructCells_only (h : layoutConstruct scan fuel s = .ok (some (c, rest)))
    (hcomma : literal ',' rest = none) :
    constructCells scan (fuel + 1) s = .ok (some ([c], rest)) := by
  rw [constructCells, h]
  simp only [bind, Except.bind, hcomma]
  rfl

theorem constructCells_next (h : layoutConstruct scan fuel s = .ok (some (c, s₁)))
    (hcomma : literal ',' s₁ = some s₂)
    (hcells : constructCells scan fuel s₂ = .ok (some (cells, rest))) :
    constructCells scan (fuel + 1) s = .ok (some (c :: cells, rest)) := by
  rw [constructCells, h]
  simp only [bind, Except.bind, hcomma, hcells]
  rfl

theorem layoutConstruct_cells (hdigit : s.head?.all (fun c => !c.isDigit) = false)
    (hg : scanGeometry scan s = some g)
    (hs : skipGeometry s = some s₁) (hend : endsCell (skipPaneId s₁) = false)
    (hopen : opened (skipPaneId s₁) = some (t, s₂))
    (hcells : constructCells scan fuel s₂ = .ok (some (cells, s₃)))
    (hclose : literal (closeBracket t) s₃ = some rest) :
    layoutConstruct scan (fuel + 1) s = .ok (some (.node t g cells, rest)) := by
  rw [layoutConstruct, hdigit, hg, hs]
  simp only [hend, hopen, hcells, bind, Except.bind, hclose, Bool.false_eq_true, if_false]
  rfl

end

/-! ### The conversions -/

/-- The digits of a hexadecimal number. -/
def hexDigits : Text := "0123456789abcdef".toList

def hexValue (ds : Text) : Nat := ds.foldl (fun n c => 16 * n + hexDigits.idxOf c) 0

theorem hexValue_concat (ds : Text) (c : Char) :
    hexValue (ds ++ [c]) = 16 * hexValue ds + hexDigits.idxOf c :=
  List.foldl_concat _ _ _ _

theorem idxOf_digitChar : ∀ d : Fin 16, hexDigits.idxOf d.val.digitChar = d.val ∧ d.val.digitChar ∈
    hexDigits := by
  decide +kernel

theorem toDigits_hex (n : Nat) : hexValue (Nat.toDigits 16 n) = n ∧ ∀ c ∈ Nat.toDigits 16 n, c ∈
    hexDigits := by
  induction n using Nat.strong_induction_on with
  | _ n ih =>
      rcases Nat.lt_or_ge n 16 with hlt | hge
      · obtain ⟨hvalue, hmem⟩ := idxOf_digitChar ⟨n, hlt⟩
        rw [Nat.toDigits_of_lt_base hlt]
        refine ⟨(hexValue_concat [] _).trans ?_, List.forall_mem_singleton.mpr hmem⟩
        rw [hvalue]
        exact Nat.zero_add n
      · obtain ⟨hvalue, hmem⟩ := idxOf_digitChar ⟨n % 16, Nat.mod_lt n (by decide)⟩
        obtain ⟨ihvalue, ihmem⟩ := ih (n / 16) (Nat.div_lt_self (by omega) (by decide))
        rw [Nat.toDigits_of_base_le (by decide) hge]
        refine ⟨?_, List.forall_mem_append.mpr ⟨ihmem, List.forall_mem_singleton.mpr hmem⟩⟩
        rw [hexValue_concat, ihvalue, hvalue]
        exact Nat.div_add_mod n 16

theorem hex4_hex (n : UInt16) : hexValue (hex4 n) = n.toNat ∧ ∀ c ∈ hex4 n, c ∈ hexDigits := by
  obtain ⟨hvalue, hmem⟩ := toDigits_hex n.toNat
  constructor
  · rw [hex4, List.leftpad, hexValue, List.foldl_append]
    have hzeros : ∀ k, (List.replicate k '0').foldl (fun n c => 16 * n + hexDigits.idxOf c) 0 =
        0 := by
      intro k
      induction k with
      | zero => rfl
      | succ k ih => exact ih
    rw [hzeros]
    exact hvalue
  · rw [hex4, List.leftpad]
    refine List.forall_mem_append.mpr ⟨fun c hc => ?_, hmem⟩
    rw [List.eq_of_mem_replicate hc]
    decide

/-- The two conversions, for numbers without a sign and without white space before them. -/
def conversions : Sscanf where
  hx s :=
    let ds := s.takeWhile fun c => decide (c ∈ hexDigits)
    if ds = [] then none else some (UInt16.ofNat (hexValue ds))
  u s :=
    let ds := s.takeWhile Char.isDigit
    if ds = [] then none
    else some (UInt32.ofNat (Nat.ofDigitChars 10 ds 0), s.dropWhile Char.isDigit)
  hx_hex4 n rest := by
    obtain ⟨hvalue, hmem⟩ := hex4_hex n
    have htake : (hex4 n ++ ',' :: rest).takeWhile (fun c => decide (c ∈ hexDigits)) = hex4 n := by
      rw [List.takeWhile_append_of_pos fun c hc => decide_eq_true (hmem c hc),
        List.takeWhile_cons_of_neg (by decide), List.append_nil]
    have hne : hex4 n ≠ [] := by
      rw [hex4, List.leftpad]
      exact List.append_ne_nil_of_right_ne_nil _ Nat.toDigits_ne_nil
    rw [htake]
    dsimp only
    rw [if_neg hne, hvalue, UInt16.ofNat_toNat]
  u_digits ds rest hne hdigits hrest _ := by
    have htake : (ds ++ rest).takeWhile Char.isDigit = ds ∧ (ds ++ rest).dropWhile Char.isDigit =
        rest := by
      rw [List.takeWhile_append_of_pos hdigits, List.dropWhile_append_of_pos hdigits]
      cases rest with
      | nil => exact ⟨List.append_nil ds, rfl⟩
      | cons c rest =>
          have hc : ¬ c.isDigit := by simpa using hrest c rfl
          rw [List.takeWhile_cons_of_neg hc, List.dropWhile_cons_of_neg hc, List.append_nil]
          exact ⟨rfl, rfl⟩
    rw [htake.1, htake.2]
    exact if_neg hne
  u_other c rest hdigit _ _ _ := by
    rw [List.takeWhile_cons_of_neg (by simpa using hdigit)]
    exact if_pos rfl

end Ztmux.Layout
