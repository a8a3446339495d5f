import Ztmux.Keys.Extended

/-!
The tree of the terminal's keys.

A node has a byte, a key, the nodes of smaller and of greater bytes in its place, and the nodes of
the next place. What is looked for may be longer than the string of a key, so the search ends at a
key that nothing follows; the search for the string that is added ends there too.
-/

namespace Ztmux.Keys.Tree

open Extended (KEYC_UNKNOWN)

abbrev Text := List UInt8

/-! ### Model -/

inductive TtyKey
  | null
  | node (ch : UInt8) (key : UInt64) (left right next : TtyKey)
  deriving DecidableEq, Repr

inductive Step
  | left
  | right
  | next
  deriving DecidableEq, Repr

/-- A pointer to a node: the way to it. -/
abbrev Place := List Step

namespace TtyKey

/-- Read the key of a node. -/
def keyAt : TtyKey → Place → Option UInt64
  | null, _ => none
  | node _ key _ _ _, [] => some key
  | node _ _ left _ _, .left :: place => left.keyAt place
  | node _ _ _ right _, .right :: place => right.keyAt place
  | node _ _ _ _ next, .next :: place => next.keyAt place

/-- Write the key of a node. -/
def setKey : TtyKey → Place → UInt64 → TtyKey
  | null, _, _ => null
  | node ch _ left right next, [], key => node ch key left right next
  | node ch old left right next, .left :: place, key =>
      node ch old (left.setKey place key) right next
  | node ch old left right next, .right :: place, key =>
      node ch old left (right.setKey place key) next
  | node ch old left right next, .next :: place, key =>
      node ch old left right (next.setKey place key)

end TtyKey

open TtyKey

def ttyKeysFind1 : TtyKey → Text → Nat → Option Place × Nat
  -- If no data, no match
  | _, [], size => (none, size)
  -- If the node is NULL, this is the end of the tree. No match
  | .null, _ :: _, size => (none, size)
  | .node ch key left right next, b :: buf, size =>
      if ch = b then
        -- At the end of the string, return the current node
        if buf = [] ∨ (next = .null ∧ key ≠ KEYC_UNKNOWN) then (some [], size + 1)
        else (ttyKeysFind1 next buf (size + 1)).map (Option.map (.next :: ·)) id
      else if b < ch then (ttyKeysFind1 left (b :: buf) size).map (Option.map (.left :: ·)) id
      else (ttyKeysFind1 right (b :: buf) size).map (Option.map (.right :: ·)) id

/-- Lookup a key in the tree. -/
def ttyKeysFind (keyTree : TtyKey) (buf : Text) : Option Place × Nat := ttyKeysFind1 keyTree buf 0

/-- Add next node to the tree, where there is none. -/
def ttyKeysNew (key : UInt64) : Text → Exec TtyKey
  | [] => throw .outOfBounds
  | c :: s =>
      if s = [] then pure (.node c key .null .null .null)
      else do
        let next ← ttyKeysNew key s
        pure (.node c KEYC_UNKNOWN .null .null next)

/-- Add next node to the tree. -/
def ttyKeysAdd1 (key : UInt64) : TtyKey → Text → Exec TtyKey
  | .null, s => ttyKeysNew key s
  | .node _ _ _ _ _, [] => throw .outOfBounds
  | .node ch old left right next, c :: s =>
      if c = ch then
        if s = [] then pure (.node ch key left right next)
        else do
          let next ← ttyKeysAdd1 key next s
          pure (.node ch old left right next)
      else if c < ch then do
        let left ← ttyKeysAdd1 key left (c :: s)
        pure (.node ch old left right next)
      else do
        let right ← ttyKeysAdd1 key right (c :: s)
        pure (.node ch old left right next)

def ttyKeysAdd (keyTree : TtyKey) (s : Text) (key : UInt64) : Exec TtyKey :=
  match (ttyKeysFind keyTree s).1 with
  | none => ttyKeysAdd1 key keyTree s
  | some tk => pure (keyTree.setKey tk key)

/-- A number of calls of `tty_keys_add`. -/
def addAll : TtyKey → List (Text × UInt64) → Exec TtyKey
  | keyTree, [] => pure keyTree
  | keyTree, c :: calls => do
      let keyTree ← ttyKeysAdd keyTree c.1 c.2
      addAll keyTree calls

/-! ### The node of a string -/

/-- The key of the node for exactly these bytes. -/
def keyOf : TtyKey → Text → Option UInt64
  | _, [] => none
  | .null, _ :: _ => none
  | .node ch key left right next, c :: s =>
      if c = ch then if s = [] then some key else keyOf next s
      else if c < ch then keyOf left (c :: s)
      else keyOf right (c :: s)

section

variable {ch c : UInt8} {key : UInt64} {left right next : TtyKey} {s : Text}

@[simp] theorem keyOf_nil (t : TtyKey) : keyOf t [] = none := by cases t <;> rfl

@[simp] theorem keyOf_null (s : Text) : keyOf .null s = none := by cases s <;> rfl

theorem keyOf_single : keyOf (.node ch key left right next) [ch] = some key := by
  rw [keyOf, if_pos rfl, if_pos rfl]

theorem keyOf_next (h : s ≠ []) :
    keyOf (.node ch key left right next) (ch :: s) = keyOf next s := by
  rw [keyOf, if_pos rfl, if_neg h]

theorem keyOf_left (h : c < ch) :
    keyOf (.node ch key left right next) (c :: s) = keyOf left (c :: s) := by
  rw [keyOf, if_neg (UInt8.ne_of_lt h), if_pos h]

theorem keyOf_right (hne : c ≠ ch) (h : ¬ c < ch) :
    keyOf (.node ch key left right next) (c :: s) = keyOf right (c :: s) := by
  rw [keyOf, if_neg hne, if_neg h]

end

/-- A tree that is not empty has a key for some byte. -/
theorem null_of_keyOf {t : TtyKey} (h : ∀ c, keyOf t [c] = none) : t = .null := by
  cases t with
  | null => rfl
  | node ch key left right next =>
      exact absurd (keyOf_single.symm.trans (h ch)) (fun h => (nomatch h))

/-- The search for something longer ends here: there is a key, and no longer string. -/
def Stops (t : TtyKey) (q : Text) : Prop :=
  ∃ k, keyOf t q = some k ∧ k ≠ KEYC_UNKNOWN ∧ ∀ c, keyOf t (q ++ [c]) = none

/-- What a search says: there is no node for the string and the search does not end early, or it
ends at the node for a beginning of the string, which can be read and written. -/
def Finds (t : TtyKey) (s : Text) (size : Nat) (r : Option Place × Nat) : Prop :=
  (r.1 = none ∧ keyOf t s = none ∧ ∀ q, q <+: s → ¬ Stops t q) ∨
  ∃ q place k, q ≠ [] ∧ q <+: s ∧ r = (some place, size + q.length) ∧ keyOf t q = some k ∧
  t.keyAt place = some k ∧
    (∀ key s', keyOf (t.setKey place key) s' = if s' = q then some key else keyOf t s') ∧
    (q = s ∨ Stops t q)

section

variable {ch b : UInt8} {key : UInt64} {left right next : TtyKey} {buf : Text} {size : Nat}
    {r : Option Place × Nat}

theorem finds_here (h : buf = [] ∨ (next = .null ∧ key ≠ KEYC_UNKNOWN)) :
    Finds (.node ch key left right next) (ch :: buf) size (some [], size + 1) := by
  refine .inr ⟨[ch], [], key, List.cons_ne_nil _ _, ⟨buf, rfl⟩, rfl, keyOf_single, rfl,
    fun key' s' => ?_, ?_⟩
  · rw [setKey]
    match s' with
    | [] => rw [keyOf_nil, keyOf_nil, if_neg (List.cons_ne_nil _ _).symm]
    | c :: s =>
        by_cases hc : c = ch
        · subst hc
          by_cases hs : s = []
          · rw [hs, keyOf_single, if_pos rfl]
          · rw [keyOf_next hs, keyOf_next hs, if_neg fun h => hs (List.cons.inj h).2]
        · rw [if_neg fun h => hc (List.cons.inj h).1, keyOf, keyOf, if_neg hc, if_neg hc]
  · rcases h with rfl | ⟨rfl, hkey⟩
    · exact .inl rfl
    · exact .inr ⟨key, keyOf_single, hkey, fun c => keyOf_next (List.cons_ne_nil _ _)⟩

theorem Stops.of_next {q : Text} (hq : q ≠ []) :
    Stops (.node ch key left right next) (ch :: q) ↔ Stops next q := by
  have hlong : ∀ c, q ++ [c] ≠ [] := fun c => by simp
  simp only [Stops, List.cons_append, keyOf_next hq, keyOf_next (hlong _)]

theorem finds_next (hbuf : buf ≠ []) (hgo : ¬ (next = .null ∧ key ≠ KEYC_UNKNOWN))
    (h : Finds next buf (size + 1) r) :
    Finds (.node ch key left right next) (ch :: buf) size (r.map (Option.map (.next :: ·)) id) := by
  rcases h with ⟨hnone, hkey, hstops⟩ | ⟨q, place, k, hq, hstarts, rfl, hkey, hat, hset, hstop⟩
  · refine .inl ⟨?_, (keyOf_next hbuf).trans hkey, fun q hstarts hstop => ?_⟩
    · rw [Prod.map_fst, hnone]
      rfl
    · match q with
      | [] =>
          obtain ⟨k, hk, -⟩ := hstop
          rw [keyOf_nil] at hk
          cases hk
      | c :: q =>
          obtain ⟨rfl, hstarts'⟩ := List.cons_prefix_cons.mp hstarts
          by_cases hq : q = []
          · subst hq
            obtain ⟨k, hk, hknown, hleaf⟩ := hstop
            rw [keyOf_single] at hk
            obtain rfl := Option.some.inj hk
            refine hgo ⟨null_of_keyOf fun d => ?_, hknown⟩
            rw [← hleaf d]
            exact (keyOf_next (List.cons_ne_nil _ _)).symm
          · exact hstops q hstarts' ((Stops.of_next hq).mp hstop)
  · refine .inr ⟨ch :: q, .next :: place, k, List.cons_ne_nil _ _,
      List.cons_prefix_cons.mpr ⟨rfl, hstarts⟩, ?_, (keyOf_next hq).trans hkey, hat, fun key' s' =>
        ?_, ?_⟩
    · rw [List.length_cons, Nat.add_right_comm, Nat.add_assoc size]
      rfl
    · rw [setKey]
      match s' with
      | [] => rw [keyOf_nil, keyOf_nil, if_neg (List.cons_ne_nil _ _).symm]
      | c :: s =>
          by_cases hc : c = ch
          · subst hc
            by_cases hs : s = []
            · rw [hs, keyOf_single, keyOf_single, if_neg fun h => hq (List.cons.inj h).2.symm]
            · rw [keyOf_next hs, keyOf_next hs, hset]
              simp only [List.cons.injEq, true_and]
          · rw [if_neg fun h => hc (List.cons.inj h).1, keyOf, keyOf, if_neg hc, if_neg hc]
    · exact hstop.imp (congrArg (List.cons ch)) (Stops.of_next hq).mpr

theorem Stops.of_side {sub : TtyKey}
    (hsub : ∀ s, keyOf (.node ch key left right next) (b :: s) = keyOf sub (b :: s)) {q : Text} :
    Stops (.node ch key left right next) (b :: q) ↔ Stops sub (b :: q) := by
  simp only [Stops, List.cons_append, hsub]

theorem finds_side {sub : TtyKey} {step : Step}
    (hsub : ∀ s, keyOf (.node ch key left right next) (b :: s) = keyOf sub (b :: s))
    (hat : ∀ place, (node ch key left right next).keyAt (step :: place) = sub.keyAt place)
    (hset : ∀ place key',
      (∀ s', s'.head? ≠ some b → keyOf (sub.setKey place key') s' = keyOf sub s') →
      ∀ s', keyOf ((node ch key left right next).setKey (step :: place) key') s' =
        if s'.head? = some b then keyOf (sub.setKey place key') s' else keyOf
    (.node ch key left right next) s')
    (h : Finds sub (b :: buf) size r) :
    Finds (.node ch key left right next) (b :: buf) size (r.map (Option.map (step :: ·)) id) := by
  rcases h with ⟨hnone, hkey, hstops⟩ | ⟨q, place, k, hq, hstarts, rfl, hkey, hplace, hwrite, hstop⟩
  · refine .inl ⟨?_, (hsub buf).trans hkey, fun q hstarts hstop => ?_⟩
    · rw [Prod.map_fst, hnone]
      rfl
    · match q with
      | [] =>
          obtain ⟨k, hk, -⟩ := hstop
          rw [keyOf_nil] at hk
          cases hk
      | c :: q =>
          obtain ⟨rfl, -⟩ := List.cons_prefix_cons.mp hstarts
          exact hstops (c :: q) hstarts ((Stops.of_side hsub).mp hstop)
  · obtain ⟨c, q, rfl⟩ := List.exists_cons_of_ne_nil hq
    obtain ⟨rfl, -⟩ := List.cons_prefix_cons.mp hstarts
    refine .inr ⟨c :: q, step :: place, k, hq, hstarts, rfl, (hsub q).trans hkey,
      (hat place).trans hplace, fun key' s' => ?_, ?_⟩
    · rw [hset place key' fun s hs => (hwrite key' s).trans (if_neg fun h => hs (by rw [h]; rfl))]
      by_cases hhead : s'.head? = some c
      · obtain ⟨rest, rfl⟩ := List.head?_eq_some_iff.mp hhead
        rw [if_pos hhead, hwrite, hsub]
      · rw [if_neg hhead, if_neg fun h => hhead (by rw [h]; rfl)]
    · exact hstop.imp id (Stops.of_side hsub).mpr

end

theorem ttyKeysFind1_finds (t : TtyKey) (s : Text) (size : Nat) :
    Finds t s size (ttyKeysFind1 t s size) := by
  have hnil : ∀ t : TtyKey, ¬ Stops t [] := by
    rintro t ⟨k, hk, -⟩
    rw [keyOf_nil] at hk
    cases hk
  induction t generalizing s size with
  | null =>
      have hnull : ∀ q, ¬ Stops .null q := by
        rintro q ⟨k, hk, -⟩
        rw [keyOf_null] at hk
        cases hk
      cases s with
      | nil => exact .inl ⟨rfl, keyOf_null _, fun q _ => hnull q⟩
      | cons b buf => exact .inl ⟨rfl, keyOf_null _, fun q _ => hnull q⟩
  | node ch key left right next hleft hright hnext =>
      cases s with
      | nil =>
          refine .inl ⟨rfl, keyOf_nil _, fun q hstarts => ?_⟩
          rw [List.prefix_nil.mp hstarts]
          exact hnil _
      | cons b buf =>
          rw [ttyKeysFind1]
          by_cases hb : ch = b
          · subst hb
            rw [if_pos rfl]
            by_cases hhere : buf = [] ∨ (next = .null ∧ key ≠ KEYC_UNKNOWN)
            · rw [if_pos hhere]
              exact finds_here hhere
            · rw [if_neg hhere]
              rw [not_or] at hhere
              exact finds_next hhere.1 hhere.2 (hnext buf (size + 1))
          · rw [if_neg hb]
            by_cases hless : b < ch
            · rw [if_pos hless]
              refine finds_side (fun s => keyOf_left hless) (fun place => rfl)
                (fun place key' hsame s' => ?_) (hleft (b :: buf) size)
              rw [setKey]
              match s' with
              | [] => simp
              | c :: s =>
                  by_cases hc : c = b
                  · rw [hc, if_pos List.head?_cons, keyOf_left hless]
                  · have hhead : (c :: s).head? ≠ some b := fun h => hc (Option.some.inj h)
                    rw [if_neg hhead, keyOf, keyOf, hsame _ hhead]
            · rw [if_neg hless]
              refine finds_side (fun s => keyOf_right (Ne.symm hb) hless) (fun place => rfl)
                (fun place key' hsame s' => ?_)
                (hright (b :: buf) size)
              rw [setKey]
              match s' with
              | [] => simp
              | c :: s =>
                  by_cases hc : c = b
                  · rw [hc, if_pos List.head?_cons, keyOf_right (Ne.symm hb) hless]
                  · have hhead : (c :: s).head? ≠ some b := fun h => hc (Option.some.inj h)
                    rw [if_neg hhead, keyOf, keyOf, hsame _ hhead]

/-! ### A string that is added -/

/-- What `tty_keys_add1` leaves: the string has the key, and its beginnings have nodes. -/
def Adds (key : UInt64) (t : TtyKey) (s : Text) (t' : TtyKey) : Prop :=
  ∀ s', keyOf t' s' = if s' = s then some key
    else if s' ≠ [] ∧ s' <+: s then some ((keyOf t s').getD KEYC_UNKNOWN) else keyOf t s'

section

variable {ch c : UInt8} {key old : UInt64} {left right next : TtyKey} {s : Text}

theorem adds_next (hs : s ≠ []) {next' : TtyKey} (h : Adds key next s next') {t : TtyKey}
    (ht : ∀ s', s' ≠ [] → keyOf t (ch :: s') = keyOf next s')
    (hold : (keyOf t [ch]).getD KEYC_UNKNOWN = old)
    (hother : ∀ c s', c ≠ ch → keyOf (.node ch old left right next') (c :: s') =
      keyOf t (c :: s')) :
    Adds key t (ch :: s) (.node ch old left right next') := by
  intro s'
  match s' with
  | [] => rw [keyOf_nil, keyOf_nil, if_neg (List.cons_ne_nil _ _).symm, if_neg fun h => h.1 rfl]
  | c :: s' =>
      by_cases hc : c = ch
      · subst hc
        by_cases hs' : s' = []
        · subst hs'
          rw [keyOf_single, if_neg fun h => hs (List.cons.inj h).2.symm,
            if_pos ⟨List.cons_ne_nil _ _, List.cons_prefix_cons.mpr ⟨rfl, List.nil_prefix⟩⟩, hold]
        · rw [keyOf_next hs', h s', ht s' hs']
          simp only [List.cons.injEq, true_and, List.cons_prefix_cons, ne_eq, reduceCtorEq,
            not_false_eq_true, hs']
      · rw [hother c s' hc, if_neg fun h => hc (List.cons.inj h).1,
          if_neg fun h => hc (List.cons_prefix_cons.mp h.2).1]

theorem adds_single {t : TtyKey} (ht : ∀ s', s' ≠ [] → keyOf t (ch :: s') = keyOf next s')
    (hother : ∀ c s', c ≠ ch → keyOf (.node ch key left right next) (c :: s') = keyOf t (c :: s')) :
    Adds key t [ch] (.node ch key left right next) := by
  intro s'
  match s' with
  | [] => rw [keyOf_nil, keyOf_nil, if_neg (List.cons_ne_nil _ _).symm, if_neg fun h => h.1 rfl]
  | c :: s' =>
      by_cases hc : c = ch
      · subst hc
        by_cases hs' : s' = []
        · subst hs'
          rw [keyOf_single, if_pos rfl]
        · rw [keyOf_next hs', ht s' hs', if_neg fun h => hs' (List.cons.inj h).2,
            if_neg fun h => hs' (List.prefix_nil.mp (List.cons_prefix_cons.mp h.2).2)]
      · rw [hother c s' hc, if_neg fun h => hc (List.cons.inj h).1,
          if_neg fun h => hc (List.cons_prefix_cons.mp h.2).1]

theorem ttyKeysNew_adds (key : UInt64) (hs : s ≠ []) :
    ∃ t, ttyKeysNew key s = .ok t ∧ Adds key .null s t := by
  induction s with
  | nil => exact absurd rfl hs
  | cons c s ih =>
      have hother : ∀ (k : UInt64) (next : TtyKey) (d : UInt8) (s' : Text), d ≠ c →
          keyOf (.node c k .null .null next) (d :: s') = keyOf .null (d :: s') :=
            fun k next d s' hd => by
        rw [keyOf_null, keyOf, if_neg hd]
        split_ifs <;> exact keyOf_null _
      rw [ttyKeysNew]
      by_cases hnil : s = []
      · subst hnil
        exact ⟨_, if_pos rfl, adds_single (fun s' _ => by rw [keyOf_null, keyOf_null])
          fun d s' hd => hother _ _ d s' hd⟩
      · obtain ⟨next, hok, hadds⟩ := ih hnil
        rw [if_neg hnil, hok, ok_bind]
        exact ⟨_, rfl, adds_next hnil hadds (fun s' _ => by rw [keyOf_null, keyOf_null])
          (by rw [keyOf_null]; rfl)
          fun d s' hd => hother _ _ d s' hd⟩

theorem adds_side {t t' sub sub' : TtyKey} (hsub : ∀ s', keyOf t (c :: s') = keyOf sub (c :: s'))
    (hsub' : ∀ s', keyOf t' (c :: s') = keyOf sub' (c :: s'))
    (hother : (∀ s', s'.head? ≠ some c → keyOf sub' s' = keyOf sub s') → ∀ s', s'.head? ≠ some c →
      keyOf t' s' = keyOf t s')
    (h : Adds key sub (c :: s) sub') : Adds key t (c :: s) t' := by
  have hfar : ∀ (x : TtyKey) (s' : Text), s'.head? ≠ some c →
      (if s' = c :: s then some key else if s' ≠ [] ∧
        s' <+: c :: s then some ((keyOf x s').getD KEYC_UNKNOWN) else keyOf x s') =
        keyOf x s' := fun x s' hhead => by
    rw [if_neg fun h => hhead (by rw [h]; rfl), if_neg]
    rintro ⟨hne, hstarts⟩
    obtain ⟨d, rest, rfl⟩ := List.exists_cons_of_ne_nil hne
    exact hhead (congrArg some (List.cons_prefix_cons.mp hstarts).1)
  intro s'
  by_cases hhead : s'.head? = some c
  · obtain ⟨rest, rfl⟩ := List.head?_eq_some_iff.mp hhead
    rw [hsub', h, hsub]
  · rw [hfar t s' hhead]
    exact hother (fun s' hs' => (h s').trans (hfar sub s' hs')) s' hhead

theorem ttyKeysAdd1_adds (key : UInt64) (t : TtyKey) (hs : s ≠ []) :
    ∃ t', ttyKeysAdd1 key t s = .ok t' ∧ Adds key t s t' := by
  induction t generalizing s with
  | null =>
      cases s with
      | nil => exact absurd rfl hs
      | cons c s => exact ttyKeysNew_adds key hs
  | node ch old left right next hleft hright hnext =>
      obtain ⟨c, s, rfl⟩ := List.exists_cons_of_ne_nil hs
      rw [ttyKeysAdd1]
      by_cases hc : c = ch
      · subst hc
        rw [if_pos rfl]
        by_cases hnil : s = []
        · subst hnil
          rw [if_pos rfl]
          exact ⟨_, rfl, adds_single (fun s' hs' => keyOf_next hs')
            fun d s' hd => by rw [keyOf, keyOf, if_neg hd, if_neg hd]⟩
        · obtain ⟨next', hok, hadds⟩ := hnext hnil
          rw [if_neg hnil, hok, ok_bind]
          exact ⟨_, rfl, adds_next hnil hadds (fun s' hs' => keyOf_next hs')
            (by rw [keyOf_single]; rfl)
            fun d s' hd => by rw [keyOf, keyOf, if_neg hd, if_neg hd]⟩
      · rw [if_neg hc]
        by_cases hless : c < ch
        · obtain ⟨left', hok, hadds⟩ := hleft (List.cons_ne_nil c s)
          rw [if_pos hless, hok, ok_bind]
          refine ⟨_, rfl, adds_side (fun s' => keyOf_left hless) (fun s' => keyOf_left hless)
            (fun hsame s' hhead => ?_) hadds⟩
          match s' with
          | [] => rw [keyOf_nil, keyOf_nil]
          | d :: s' => rw [keyOf, keyOf, hsame _ hhead]
        · obtain ⟨right', hok, hadds⟩ := hright (List.cons_ne_nil c s)
          rw [if_neg hless, hok, ok_bind]
          refine ⟨_, rfl, adds_side (fun s' => keyOf_right hc hless)
            (fun s' => keyOf_right hc hless) (fun hsame s' hhead => ?_) hadds⟩
          match s' with
          | [] => rw [keyOf_nil, keyOf_nil]
          | d :: s' => rw [keyOf, keyOf, hsame _ hhead]

end

end Ztmux.Keys.Tree
