import Ztmux.Options.Style

/-!
Answers from the cache.

A style that is kept is the one that its text is parsed to, but it is kept as well when the text
could not be parsed. A question is answered as if nothing was kept unless it is asked again about
such a text.
-/

namespace Ztmux.Options

section

variable {World FormatTree Style : Type}

/-- What is answered when nothing is kept. -/
def fresh (P : Parsers World FormatTree Style) (w : World) (ft : Option FormatTree)
    (oe : Option OptionsTableEntry) (value : String) : Option Style :=
  let text := P.expanded w ft value
  let r := P.parse oe text.2 P.styleSet text.1
  if r.1 ≠ 0 then none else some r.2.1

/-- The right answer to a question. -/
def expected (P : Parsers World FormatTree Style) (c : Chains) (s : State World Style) (oo : Nat)
    (name : String) (ft : Option FormatTree) : Option Style :=
  (optionsGet c s.tree oo name).bind fun found =>
    match found.2.2.value with
    | .string value =>
        if optionsIsString found.2.2.tableentry then fresh P s.world ft found.2.2.tableentry value
        else none
    | _ => none

/-- The text of an option is parsed, in what the rest of the program has. -/
def OptionsEntry.parsed (P : Parsers World FormatTree Style) (w : World) (o : OptionsEntry Style) :
    Option (Int × Style) :=
  match o.value with
  | .string value =>
      some ((P.parse o.tableentry w P.styleSet value).1,
        (P.parse o.tableentry w P.styleSet value).2.1)
  | _ => none

/-- The condition on a step: an option is not asked again about a text that cannot be parsed, and
the texts of the styles that are kept are parsed to the same as before. -/
structure Meets (P : Parsers World FormatTree Style) (c : Chains) (s : State World Style)
    (op : Op World FormatTree) : Prop where
  parses : ∀ (oo : Nat) (name : String) (ft : Option FormatTree)
    (found : Nat × String × OptionsEntry Style),
    op = .toStyle oo name ft → optionsGet c s.tree oo name = some found → found.2.2.cached = true →
      ∃ style, found.2.2.parsed P s.world = some (0, style)
  same : ∀ (s' : State World Style) (answer : Option (Option Style)), step P c s op =
    .ok (s', answer) →
    ∀ (oo : Nat) (name : String) (o : OptionsEntry Style), s'.tree oo name = some o →
    o.cached = true →
      o.parsed P s'.world = o.parsed P s.world

/-- All steps of a run meet the condition. -/
def RunMeets (P : Parsers World FormatTree Style) (c : Chains) :
    State World Style → List (Op World FormatTree) → Prop
  | _, [] => True
  | s, op :: ops =>
      Meets P c s op ∧ ∀ s' answer, step P c s op = .ok (s', answer) → RunMeets P c s' ops

/-- All questions of a run are answered, and rightly. -/
def RunRight (P : Parsers World FormatTree Style) (c : Chains) :
    State World Style → List (Op World FormatTree) → Prop
  | _, [] => True
  | s, op :: ops =>
      (∀ oo name ft, op = .toStyle oo name ft →
        ∃ s', step P c s op = .ok (s', some (expected P c s oo name ft))) ∧
      ∀ s' answer, step P c s op = .ok (s', answer) → RunRight P c s' ops

/-- A style that is kept is what its text is parsed to, whether that fails or not. -/
def Current (P : Parsers World FormatTree Style) (w : World) (o : OptionsEntry Style) : Prop :=
  o.cached = true → ∃ value, o.value = .string value ∧ hasFormat value = false ∧
    optionsIsString o.tableentry = true ∧ o.style = (P.parse o.tableentry w P.styleSet value).2.1

def AllCurrent (P : Parsers World FormatTree Style) (s : State World Style) : Prop :=
  ∀ oo name o, s.tree oo name = some o → Current P s.world o

variable {P : Parsers World FormatTree Style} {c : Chains} {s s' : State World Style} {w w' : World}
  {tree : Tree Style} {name name' : String} {o o' : OptionsEntry Style} {oo : Nat}

theorem current_of_not_cached (h : o.cached = false) : Current P w o :=
  fun hcached => absurd hcached (by rw [h]; decide)

theorem Current.of_parsed (h : Current P w o)
    (hsame : o.cached = true → o.parsed P w' = o.parsed P w) :
    Current P w' o := by
  intro hcached
  obtain ⟨value, hvalue, hformat, hstring, hstyle⟩ := h hcached
  refine ⟨value, hvalue, hformat, hstring, ?_⟩
  have hparsed := hsame hcached
  simp only [OptionsEntry.parsed, hvalue] at hparsed
  rw [hstyle]
  exact (Prod.mk.inj (Option.some.inj hparsed)).2.symm

theorem expanded_of_no_format (ft : Option FormatTree) {value : String}
    (h : hasFormat value = false) :
    P.expanded w ft value = (value, w) := by
  cases ft with
  | none => rfl
  | some ft => exact if_neg (by rw [h]; decide)

/-! ### Trees -/

/-- An option of a tree that was changed is one that was there or the new one. -/
theorem update_eq_some {new : Option (OptionsEntry Style)}
    (h : Function.update tree name new name' = some o) :
    tree name' = some o ∨ new = some o := by
  by_cases heq : name' = name
  · rw [heq, Function.update_self] at h
    exact .inr h
  · rw [Function.update_of_ne heq] at h
    exact .inl h

theorem optionsRemove_eq_some (h : optionsRemove tree name name' = some o) : tree name' = some o :=
  (update_eq_some h).resolve_right fun h => (nomatch h)

theorem optionsAdd_eq_some (h : optionsAdd tree name o' name' = some o) :
    tree name' = some o ∨ o = o' := by
  rw [optionsAdd] at h
  rcases update_eq_some h with h | h
  · cases hfound : optionsGetOnly tree name with
    | none =>
        rw [hfound] at h
        exact .inl h
    | some found =>
        rw [hfound] at h
        exact .inl (optionsRemove_eq_some h)
  · exact .inr (Option.some.inj h).symm

theorem optionsGetOnly_eq_some {key : String} (h : optionsGetOnly tree name = some (key, o)) :
    tree key = some o := by
  rw [optionsGetOnly] at h
  cases hname : tree name with
  | some found =>
      rw [hname] at h
      obtain ⟨rfl, rfl⟩ := Prod.mk.inj (Option.some.inj h)
      exact hname
  | none =>
      rw [hname] at h
      obtain ⟨found, hfound, heq⟩ := Option.map_eq_some_iff.mp h
      obtain ⟨rfl, rfl⟩ := Prod.mk.inj heq
      exact hfound

theorem optionsGet_eq_some {tree : Nat → Tree Style} {owner : Nat} {key : String}
    (h : optionsGet c tree oo name = some (owner, key, o)) : tree owner key = some o := by
  induction hdepth : c.depth oo using Nat.strong_induction_on generalizing oo with
  | _ n ih =>
      rw [optionsGet] at h
      cases hfound : optionsGetOnly (tree oo) name with
      | some found =>
          rw [hfound] at h
          obtain ⟨rfl, rfl⟩ := Prod.mk.inj (Option.some.inj h)
          exact optionsGetOnly_eq_some hfound
      | none =>
          rw [hfound] at h
          dsimp only at h
          split at h
          · cases h
          · next p hparent => exact ih _ (hdepth ▸ c.parent_lt oo p hparent) h rfl

/-! ### Steps -/

/-- The other options are as they were, and what was changed is not kept. -/
def Changes (s s' : State World Style) : Prop :=
  s'.world = s.world ∧ ∀ oo name o, s'.tree oo name = some o → s.tree oo name = some o ∨
  o.cached = false

theorem changes_setTree
    (h : ∀ name o, tree name = some o → s.tree oo name = some o ∨ o.cached = false) :
    Changes s (s.setTree oo tree) := by
  refine ⟨rfl, fun oo' name' o' htree => ?_⟩
  change Function.update s.tree oo tree oo' name' = some o' at htree
  by_cases heq : oo' = oo
  · rw [heq, Function.update_self] at htree
    rw [heq]
    exact h name' o' htree
  · rw [Function.update_of_ne heq] at htree
    exact .inl htree

theorem changes_add (ho : o'.cached = false) :
    Changes s (s.setTree oo (optionsAdd (s.tree oo) name o')) :=
  changes_setTree fun _ _ h => (optionsAdd_eq_some h).imp_right fun heq => by rw [heq, ho]

theorem changes_remove : Changes s (s.setTree oo (optionsRemove (s.tree oo) name)) :=
  changes_setTree fun _ _ h => .inl (optionsRemove_eq_some h)

theorem optionsSetString_changes {append : Bool} {value : String}
    (h : optionsSetString P c s oo name append value = .ok s') : Changes s s' := by
  rw [optionsSetString] at h
  cases hfound : optionsGetOnly (s.tree oo) name with
  | some found =>
      rw [hfound] at h
      obtain ⟨text, -, h⟩ := bind_eq_ok.mp h
      split_ifs at h with hstring
      obtain rfl := Except.ok.inj h
      refine changes_setTree fun _ _ h => (update_eq_some h).imp_right fun heq => ?_
      rw [← Option.some.inj heq]
      rfl
  | none =>
      rw [hfound] at h
      dsimp only at h
      split_ifs at h with huser
      · obtain rfl := Except.ok.inj h
        exact changes_add rfl
      · obtain ⟨oe, -, h⟩ := bind_eq_ok.mp h
        cases oe with
        | none => cases h
        | some oe =>
            dsimp only at h
            split_ifs at h
            obtain rfl := Except.ok.inj h
            exact changes_add rfl

theorem optionsRemoveOrDefault_changes (P : Parsers World FormatTree Style) (c : Chains)
    (s : State World Style) (oo : Nat) (name : String) :
    Changes s (optionsRemoveOrDefault P c s oo name) := by
  rw [optionsRemoveOrDefault]
  cases hfound : optionsGetOnly (s.tree oo) name with
  | none => exact ⟨rfl, fun _ _ _ h => .inl h⟩
  | some found =>
      obtain ⟨key, o⟩ := found
      dsimp only
      cases o.tableentry with
      | none => exact changes_remove
      | some oe =>
          dsimp only
          split_ifs
          · exact changes_add rfl
          · exact changes_remove

/-- A question leaves the other options as they were, is answered, and keeps what the text is parsed
to. -/
theorem optionsStringToStyle_answers (hcurrent : AllCurrent P s) (ft : Option FormatTree)
    (hparses : ∀ found, optionsGet c s.tree oo name = some found → found.2.2.cached = true →
      ∃ style, found.2.2.parsed P s.world = some (0, style)) :
    ∃ s', optionsStringToStyle P c s oo name ft = .ok (s', expected P c s oo name ft) ∧
      ∀ oo name o, s'.tree oo name = some o → Current P s.world o := by
  rw [optionsStringToStyle, expected]
  cases hfound : optionsGet c s.tree oo name with
  | none => exact ⟨s, rfl, hcurrent⟩
  | some found =>
      obtain ⟨owner, key, o⟩ := found
      rw [Option.bind_some]
      dsimp only
      cases hstring : optionsIsString o.tableentry with
      | false =>
          refine ⟨s, ?_, hcurrent⟩
          simp only [Bool.not_false, if_true]
          split <;> rfl
      | true =>
          obtain ⟨value, hvalue⟩ := o.typed hstring
          rw [hvalue, if_neg (by decide)]
          dsimp only
          rw [if_pos rfl]
          cases hcached : o.cached with
          | true =>
              obtain ⟨value', hvalue', hformat, -, hstyle⟩ :=
                hcurrent owner key o (optionsGet_eq_some hfound) hcached
              obtain rfl := OptionsValue.string.inj (hvalue.symm.trans hvalue')
              obtain ⟨style, hparsed⟩ := hparses _ hfound hcached
              simp only [OptionsEntry.parsed, hvalue] at hparsed
              have hzero := (Prod.mk.inj (Option.some.inj hparsed)).1
              refine ⟨s, ?_, hcurrent⟩
              rw [if_pos rfl, fresh, expanded_of_no_format ft hformat]
              dsimp only
              rw [hzero, if_neg (not_not.mpr rfl), hstyle]
          | false =>
              rw [if_neg (by decide)]
              refine ⟨_, rfl, fun oo' name' o' htree => ?_⟩
              change Function.update s.tree owner _ oo' name' = some o' at htree
              by_cases heq : oo' = owner
              · rw [heq, Function.update_self] at htree
                rcases update_eq_some htree with htree | hnew
                · exact hcurrent owner name' o' htree
                · obtain rfl := Option.some.inj hnew
                  intro hkept
                  have hformat : hasFormat value = false := by
                    have hflag : (!hasFormat value) = true := hkept
                    simpa using hflag
                  refine ⟨value, hvalue, hformat, hstring, ?_⟩
                  change (P.parse o.tableentry (P.expanded s.world ft value).2 P.styleSet
                    (P.expanded s.world ft value).1).2.1 = _
                  rw [expanded_of_no_format ft hformat]
                  rfl
              · rw [Function.update_of_ne heq] at htree
                exact hcurrent oo' name' o' htree

theorem AllCurrent.of_changes (h : AllCurrent P s) (hchanges : Changes s s') : AllCurrent P s' := by
  intro oo name o htree
  rw [hchanges.1]
  rcases hchanges.2 oo name o htree with hold | hnew
  · exact h oo name o hold
  · exact current_of_not_cached hnew

theorem AllCurrent.step {op : Op World FormatTree} {answer : Option (Option Style)}
    (h : AllCurrent P s)
    (hmeets : Meets P c s op) (hstep : step P c s op = .ok (s', answer)) : AllCurrent P s' := by
  have hsame := hmeets.same s' answer hstep
  suffices hold : ∀ oo name o, s'.tree oo name = some o → Current P s.world o from
    fun oo name o htree => (hold oo name o htree).of_parsed (hsame oo name o htree)
  cases op with
  | setString oo name append value =>
      rw [Options.step] at hstep
      obtain ⟨s₁, hset, hpure⟩ := bind_eq_ok.mp hstep
      obtain ⟨rfl, rfl⟩ := Prod.mk.inj (Except.ok.inj hpure)
      have hchanges := optionsSetString_changes hset
      have hall := h.of_changes hchanges
      rw [AllCurrent, hchanges.1] at hall
      exact hall
  | removeOrDefault oo name =>
      obtain ⟨rfl, rfl⟩ := Prod.mk.inj (Except.ok.inj hstep)
      have hchanges := optionsRemoveOrDefault_changes P c s oo name
      have hall := h.of_changes hchanges
      rw [AllCurrent, hchanges.1] at hall
      exact hall
  | toStyle oo name ft =>
      obtain ⟨s₁, hanswer, htree⟩ :=
        optionsStringToStyle_answers h ft fun found => hmeets.parses oo name ft found rfl
      rw [Options.step, hanswer] at hstep
      obtain ⟨rfl, rfl⟩ := Prod.mk.inj (Except.ok.inj hstep)
      exact htree
  | elsewhere w =>
      obtain ⟨rfl, rfl⟩ := Prod.mk.inj (Except.ok.inj hstep)
      exact h

/-- Every question of a run whose steps meet the condition is answered as if nothing was kept. -/
theorem runRight {ops : List (Op World FormatTree)}
    (hnew : ∀ oo name o, s.tree oo name = some o → o.cached = false) (hmeets : RunMeets P c s ops) :
    RunRight P c s ops := by
  have hcurrent : AllCurrent P s :=
    fun oo name o htree => current_of_not_cached (hnew oo name o htree)
  clear hnew
  induction ops generalizing s with
  | nil => trivial
  | cons op ops ih =>
      obtain ⟨hop, hops⟩ := hmeets
      refine ⟨?_, fun s' answer hstep => ih (hops s' answer hstep) (hcurrent.step hop hstep)⟩
      rintro oo name ft rfl
      obtain ⟨s', hanswer, -⟩ :=
        optionsStringToStyle_answers hcurrent ft fun found => hop.parses oo name ft found rfl
      refine ⟨s', ?_⟩
      rw [step, hanswer]
      rfl

end

/-! ### Texts that are asked about twice -/

/-- Parsers that know one word, which is an attribute. -/
def oneWord : Parsers Unit Unit Nat where
  zeroed := 0
  styleSet := 0
  styleParse _ sy s := if s = "bright" then (0, sy ||| 1, ()) else (-1, sy, ())
  styleParseColour _ sy _ := (-1, sy, ())
  formatExpand _ _ s := (s, ())

def oneSet : Chains := ⟨fun _ => none, fun _ => 0, fun _ _ h => (nomatch h), fun _ => true⟩

theorem string_typed (text : String) (_ : optionsIsString none = true) :
    ∃ s, OptionsValue.string text = .string s :=
  ⟨text, rfl⟩

/-- The user option, and whether it has been asked about. -/
def userOption (text : String) (cached : Bool) (style : Nat) : State Unit Nat :=
  ⟨Function.update (fun _ _ => none) 0 (Function.update (fun _ => none) "@x"
    (some ⟨none, .string text, cached, style, string_typed text⟩)), ()⟩

def asksTwice (text : String) : List (Op Unit Unit) :=
  [.setString 0 "@x" false text, .toStyle 0 "@x" none, .toStyle 0 "@x" none]

theorem optionsGet_userOption (text : String) (cached : Bool) (style : Nat) :
    optionsGet oneSet (userOption text cached style).tree 0 "@x" =
      some (0, "@x", ⟨none, .string text, cached, style, fun _ => ⟨text, rfl⟩⟩) := by
  rw [optionsGet]
  rfl

theorem set_userOption (text : String) :
    step oneWord oneSet ⟨fun _ _ => none, ()⟩ (.setString 0 "@x" false text) =
      .ok (userOption text false 0, none) :=
  rfl

/-- The first question is answered rightly, and the style is kept. -/
theorem first_userOption {text : String} (hformat : hasFormat text = false) :
    step oneWord oneSet (userOption text false 0) (.toStyle 0 "@x" none) =
      .ok (userOption text true (oneWord.styleParse () 0 text).2.1,
        some (if (oneWord.styleParse () 0 text).1 ≠ 0 then none
          else some (oneWord.styleParse () 0 text).2.1)) := by
  have hask : optionsStringToStyle oneWord oneSet (userOption text false 0) 0 "@x" none =
      .ok (userOption text true (oneWord.styleParse () 0 text).2.1,
        if (oneWord.styleParse () 0 text).1 ≠ 0 then none
        else some (oneWord.styleParse () 0 text).2.1) := by
    rw [optionsStringToStyle, optionsGet_userOption]
    dsimp only
    rw [if_neg (by decide), if_neg (by decide), hformat]
    congr 2
    rw [userOption, State.setTree]
    congr 1
    dsimp only [userOption]
    rw [Function.update_idem, Function.update_self, Function.update_idem]
    rfl
  rw [step, hask]
  rfl

/-- The second one is answered by what is kept. -/
theorem second_userOption (text : String) (style : Nat) :
    step oneWord oneSet (userOption text true style) (.toStyle 0 "@x" none) =
      .ok (userOption text true style, some (some style)) := by
  rw [step, optionsStringToStyle, optionsGet_userOption]
  rfl

theorem asksTwice_bright : RunRight oneWord oneSet ⟨fun _ _ => none, ()⟩ (asksTwice "bright") := by
  refine runRight (fun _ _ _ h => (nomatch h))
    ⟨⟨fun _ _ _ _ h => (nomatch h), fun _ _ _ _ _ _ _ _ => rfl⟩, ?_⟩
  intro s answer hset
  obtain ⟨rfl, rfl⟩ := Prod.mk.inj (Except.ok.inj ((set_userOption "bright").symm.trans hset))
  refine ⟨⟨?_, fun _ _ _ _ _ _ _ _ => rfl⟩, ?_⟩
  · rintro oo name ft found heq hfound hcached
    obtain ⟨rfl, rfl, rfl⟩ := Op.toStyle.inj heq
    rw [optionsGet_userOption] at hfound
    rw [← Option.some.inj hfound] at hcached
    cases hcached
  intro s answer hask
  obtain ⟨rfl, rfl⟩ :=
    Prod.mk.inj (Except.ok.inj ((first_userOption (by decide +kernel)).symm.trans hask))
  refine ⟨⟨?_, fun _ _ _ _ _ _ _ _ => rfl⟩, fun _ _ _ => trivial⟩
  rintro oo name ft found heq hfound -
  obtain ⟨rfl, rfl, rfl⟩ := Op.toStyle.inj heq
  rw [optionsGet_userOption] at hfound
  rw [← Option.some.inj hfound]
  exact ⟨1, rfl⟩

/-- What cannot be parsed has a style when it is asked about again. -/
theorem not_runRight_bogus :
    ¬ RunRight oneWord oneSet ⟨fun _ _ => none, ()⟩ (asksTwice "bogus") := by
  rintro ⟨-, hset⟩
  obtain ⟨-, hfirst⟩ := hset _ _ (set_userOption "bogus")
  obtain ⟨hsecond, -⟩ := hfirst _ _ (first_userOption (by decide +kernel))
  obtain ⟨s', hanswer⟩ := hsecond 0 "@x" none rfl
  rw [second_userOption, expected, optionsGet_userOption] at hanswer
  have hsome : some _ = (none : Option Nat) :=
    Option.some.inj (Prod.mk.inj (Except.ok.inj hanswer)).2
  cases hsome

end Ztmux.Options
