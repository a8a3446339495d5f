import Ztmux.Compat.Run
import Ztmux.Hyperlinks.Escape

/-!
Sets of hyperlinks.

An entry is in two trees of its set, by its number and by its URI, and on one list of the
entries of all sets. When the list is full, the first of it is taken out of its own
set. A new address is one that has never been used.
-/

namespace Ztmux.Hyperlinks

open Ztmux Ztmux.Compat

def maxHyperlinks : UInt32 := 5000

def maxHyperlinkUri : Nat := 1024

/-- `hyperlinks_uri` -/
structure HyperlinksUri where
  tree : Nat
  inner : UInt32
  internalId : CString
  externalId : String
  uri : CString
  deriving DecidableEq

/-- `hyperlinks` -/
structure HyperlinkSet where
  nextInner : UInt32
  byInner : Heap Nat
  byUri : Heap Nat
  references : UInt32

structure State where
  sets : Nat → Option HyperlinkSet
  uris : Nat → Option HyperlinksUri
  nextAddress : Nat
  globalHyperlinks : List Nat
  globalHyperlinksCount : UInt32
  nextExternalId : UInt64

def State.empty : State := ⟨fun _ => none, fun _ => none, 0, [], 0, 1⟩

/-! ### Orders -/

/-- The bytes of two strings, up to their NULs, from the first to the last. -/
def strcmp (a b : CString) : Ordering :=
  if a.val.map UInt8.toNat < b.val.map UInt8.toNat then .lt
  else if a.val.map UInt8.toNat = b.val.map UInt8.toNat then .eq
  else .gt

def hyperlinksByUriCmp (left right : HyperlinksUri) : Ordering :=
  if left.internalId.val = [] ∨ right.internalId.val = [] then
    if left.internalId.val ≠ [] then .lt
    else if right.internalId.val ≠ [] then .gt
    else compare left.inner.toNat right.inner.toNat
  else (strcmp left.internalId right.internalId).then (strcmp left.uri right.uri)

def hyperlinksByInnerCmp (left right : HyperlinksUri) : Ordering :=
  compare left.inner.toNat right.inner.toNat

/-- What `hyperlinks_by_uri_cmp` compares: entries with an ID come before those
without one. -/
abbrev UriKey := (List Nat ×ₗ List Nat) ⊕ₗ Nat

def HyperlinksUri.uriKey (u : HyperlinksUri) : UriKey :=
  if u.internalId.val = [] then toLex (.inr u.inner.toNat)
  else toLex (.inl (toLex (u.internalId.val.map UInt8.toNat, u.uri.val.map UInt8.toNat)))

/-- The contents of an address; of a freed one, anything. -/
def State.uriAt (σ : State) (p : Nat) : HyperlinksUri :=
  (σ.uris p).getD ⟨0, 0, CString.empty, "", CString.empty⟩

def State.innerKey (σ : State) (p : Nat) : Nat := (σ.uriAt p).inner.toNat

def State.uriKey (σ : State) (p : Nat) : UriKey := (σ.uriAt p).uriKey

/-! ### Memory -/

def derefSet (σ : State) (hl : Nat) : Exec HyperlinkSet :=
  match σ.sets hl with
  | some s => .ok s
  | none => .error .useAfterFree

def derefUri (σ : State) (hlu : Nat) : Exec HyperlinksUri :=
  match σ.uris hlu with
  | some u => .ok u
  | none => .error .useAfterFree

def State.setSet (σ : State) (hl : Nat) (s : Option HyperlinkSet) : State :=
  { σ with sets := Function.update σ.sets hl s }

/-! ### Operations -/

def hyperlinksRemove (fuel : Nat) (σ : State) (hlu : Nat) : Exec State := do
  let u ← derefUri σ hlu
  let s ← derefSet σ u.tree
  let byInner ← rbRemove fuel s.byInner hlu
  let byUri ← rbRemove fuel s.byUri hlu
  pure
    { σ with
      sets := Function.update σ.sets u.tree (some { s with byInner := byInner, byUri := byUri })
      uris := Function.update σ.uris hlu none
      globalHyperlinks := σ.globalHyperlinks.erase hlu
      globalHyperlinksCount := σ.globalHyperlinksCount - 1 }

def externalIdOf (id : UInt64) : String :=
  "tmux" ++ String.ofList ((Nat.toDigits 16 id.toNat).map Char.toUpper)

/-- The entry of a set with an ID and a URI. The other fields of what is compared are
not initialized. -/
def findByUri (fuel : Nat) (σ : State) (hl : Nat) (internalId uri : CString) :
    Exec (Option Nat) := do
  let s ← derefSet σ hl
  rbFindBy (fun hlu => hyperlinksByUriCmp ⟨hl, 0, internalId, "", uri⟩ (σ.uriAt hlu)) fuel s.byUri
    s.byUri.root

/-- Take out the first entry when the list is full. -/
def evictFirst (fuel : Nat) (σ : State) : Exec State :=
  if σ.globalHyperlinksCount = maxHyperlinks then
    match σ.globalHyperlinks with
    | [] => .error .nullPointer
    | first :: _ => hyperlinksRemove fuel σ first
  else pure σ

/-- The memory with a new entry that is in no tree yet. -/
def State.allocUri (σ : State) (u : HyperlinksUri) : State :=
  { σ with
    uris := Function.update σ.uris σ.nextAddress (some u)
    nextAddress := σ.nextAddress + 1
    nextExternalId := σ.nextExternalId + 1 }

/-- Put a new entry into the trees of its set and on the list. -/
def addUri (fuel : Nat) (σ : State) (hl : Nat) (internalId uri : CString) :
    Exec (State × UInt32) := do
  let s ← derefSet σ hl
  let hlu := σ.nextAddress
  let σ := σ.allocUri ⟨hl, s.nextInner, internalId, externalIdOf σ.nextExternalId, uri⟩
  let byUri ← rbInsert σ.uriKey fuel s.byUri hlu
  let byInner ← rbInsert σ.innerKey fuel s.byInner hlu
  let s := { s with nextInner := s.nextInner + 1, byInner := byInner.1, byUri := byUri.1 }
  let σ ← evictFirst fuel
    { σ with
      sets := Function.update σ.sets hl (some s)
      globalHyperlinks := σ.globalHyperlinks ++ [hlu]
      globalHyperlinksCount := σ.globalHyperlinksCount + 1 }
  let u ← derefUri σ hlu
  pure (σ, u.inner)

/-- The contents of an entry that was found. -/
def readFound (σ : State) : Option Nat → Exec (Option HyperlinksUri)
  | none => pure none
  | some hlu => do pure (some (← derefUri σ hlu))

def hyperlinksGet (fuel : Nat) (σ : State) (hl : Nat) (inner : UInt32) :
    Exec (Option HyperlinksUri) := do
  let s ← derefSet σ hl
  let hlu ← rbFindBy
    (fun hlu => hyperlinksByInnerCmp ⟨hl, inner, CString.empty, "", CString.empty⟩ (σ.uriAt hlu))
    fuel s.byInner s.byInner.root
  readFound σ hlu

def hyperlinksInit (σ : State) : State × Nat :=
  ({ σ.setSet σ.nextAddress (some ⟨1, ⟨none, fun _ => ⟨none, none, none, .black⟩⟩,
      ⟨none, fun _ => ⟨none, none, none, .black⟩⟩, 1⟩) with nextAddress := σ.nextAddress + 1 },
    σ.nextAddress)

def hyperlinksCopy (σ : State) (hl : Nat) : Exec State := do
  let s ← derefSet σ hl
  pure (σ.setSet hl (some { s with references := s.references + 1 }))

/-- The loop of `rb_foreach`, which knows the next entry before it removes one. -/
def resetFrom (fuel : Nat) : Nat → State → Nat → Option Nat → Exec State
  | 0, _, _, _ => .error .outOfFuel
  | _ + 1, σ, _, none => pure σ
  | turns + 1, σ, hl, some hlu => do
      let s ← derefSet σ hl
      let next ← rbNext fuel s.byInner (some hlu)
      let σ ← hyperlinksRemove fuel σ hlu
      resetFrom fuel turns σ hl next

def hyperlinksReset (fuel : Nat) (σ : State) (hl : Nat) : Exec State := do
  let s ← derefSet σ hl
  resetFrom fuel fuel σ hl (← rbMin fuel s.byInner)

def hyperlinksFree (fuel : Nat) (σ : State) (hl : Nat) : Exec State := do
  let s ← derefSet σ hl
  let σ := σ.setSet hl (some { s with references := s.references - 1 })
  if s.references - 1 = 0 then do
    let σ ← hyperlinksReset fuel σ hl
    pure (σ.setSet hl none)
  else pure σ

section Put

-- What `utf8_width` answers for a sequence.
variable (width : Utf8.Width)

/-- A URI that is too long is not stored. One without an ID is never looked for. -/
def hyperlinksPut (fuel : Nat) (σ : State) (hl : Nat) (uriIn : CString)
    (internalIdIn : Option CString) : Exec (State × UInt32) := do
  let internalIdIn := internalIdIn.getD CString.empty
  let uri := utf8Stravis width uriIn
  if maxHyperlinkUri < uri.val.length then pure (σ, 0)
  else do
    let internalId := utf8Stravis width internalIdIn
    let found ← if internalIdIn.val = [] then pure none else findByUri fuel σ hl internalId uri
    match found with
    | some hlu => do
        let u ← derefUri σ hlu
        pure (σ, u.inner)
    | none => addUri fuel σ hl internalId uri

end Put

/-! ### The comparators compare keys -/

theorem compare_inl {α β : Type} [LinearOrder α] [LinearOrder β] (a b : α) :
    compare (toLex (.inl a) : α ⊕ₗ β) (toLex (.inl b)) = compare a b := by
  rcases lt_trichotomy a b with h | rfl | h
  · rw [compare_lt_iff_lt.mpr h, compare_lt_iff_lt.mpr (Sum.Lex.inl_lt_inl_iff.mpr h)]
  · rw [compare_eq_iff_eq.mpr rfl, compare_eq_iff_eq.mpr rfl]
  · rw [compare_gt_iff_gt.mpr h, compare_gt_iff_gt.mpr (Sum.Lex.inl_lt_inl_iff.mpr h)]

theorem compare_inr {α β : Type} [LinearOrder α] [LinearOrder β] (a b : β) :
    compare (toLex (.inr a) : α ⊕ₗ β) (toLex (.inr b)) = compare a b := by
  rcases lt_trichotomy a b with h | rfl | h
  · rw [compare_lt_iff_lt.mpr h, compare_lt_iff_lt.mpr (Sum.Lex.inr_lt_inr_iff.mpr h)]
  · rw [compare_eq_iff_eq.mpr rfl, compare_eq_iff_eq.mpr rfl]
  · rw [compare_gt_iff_gt.mpr h, compare_gt_iff_gt.mpr (Sum.Lex.inr_lt_inr_iff.mpr h)]

theorem compare_toLex_prod {α β : Type} [LinearOrder α] [LinearOrder β] (a c : α) (b d : β) :
    compare (toLex (a, b)) (toLex (c, d)) = (compare a c).then (compare b d) := by
  rcases lt_trichotomy a c with h | rfl | h
  · rw [compare_lt_iff_lt.mpr h, compare_lt_iff_lt.mpr (Prod.Lex.toLex_lt_toLex.mpr (.inl h))]
    rfl
  · rw [compare_eq_iff_eq.mpr (rfl : a = a), Ordering.eq_then]
    rcases lt_trichotomy b d with h | rfl | h
    · have hlex : toLex (a, b) < toLex (a, d) := Prod.Lex.toLex_lt_toLex.mpr (.inr ⟨rfl, h⟩)
      rw [compare_lt_iff_lt.mpr h, compare_lt_iff_lt.mpr hlex]
    · rw [compare_eq_iff_eq.mpr rfl, compare_eq_iff_eq.mpr rfl]
    · have hlex : toLex (a, d) < toLex (a, b) := Prod.Lex.toLex_lt_toLex.mpr (.inr ⟨rfl, h⟩)
      rw [compare_gt_iff_gt.mpr h, compare_gt_iff_gt.mpr hlex]
  · rw [compare_gt_iff_gt.mpr h, compare_gt_iff_gt.mpr (Prod.Lex.toLex_lt_toLex.mpr (.inl h))]
    rfl

theorem compare_eq_strcmp (a b : CString) :
    LinearOrder.toOrd.compare (a.val.map UInt8.toNat) (b.val.map UInt8.toNat) = strcmp a b := by
  rw [strcmp]
  split_ifs with hlt heq
  · exact compare_lt_iff_lt.mpr hlt
  · exact compare_eq_iff_eq.mpr heq
  · exact compare_gt_iff_gt.mpr (lt_of_le_of_ne (not_lt.mp hlt) fun h => heq h.symm)

/-- The order of entries by URI is that of their keys, so it is a linear one. -/
theorem hyperlinksByUriCmp_eq (left right : HyperlinksUri) :
    hyperlinksByUriCmp left right = compare left.uriKey right.uriKey := by
  rw [hyperlinksByUriCmp, HyperlinksUri.uriKey, HyperlinksUri.uriKey]
  by_cases hleft : left.internalId.val = []
  · by_cases hright : right.internalId.val = []
    · rw [if_pos (.inl hleft), if_neg (not_not.mpr hleft), if_neg (not_not.mpr hright),
        if_pos hleft, if_pos hright, compare_inr]
    · rw [if_pos (.inl hleft), if_neg (not_not.mpr hleft), if_pos hright, if_pos hleft,
        if_neg hright]
      exact (compare_gt_iff_gt.mpr (Sum.Lex.inl_lt_inr _ _)).symm
  · by_cases hright : right.internalId.val = []
    · rw [if_pos (.inr hright), if_pos hleft, if_neg hleft, if_pos hright]
      exact (compare_lt_iff_lt.mpr (Sum.Lex.inl_lt_inr _ _)).symm
    · rw [if_neg (not_or.mpr ⟨hleft, hright⟩), if_neg hleft, if_neg hright, compare_inl,
        compare_toLex_prod, compare_eq_strcmp, compare_eq_strcmp]

end Ztmux.Hyperlinks
