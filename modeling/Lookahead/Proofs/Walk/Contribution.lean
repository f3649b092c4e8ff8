import Lookahead.Query.Walk
import Lookahead.Proofs.Exclusion.Descent

/-!
# Contribution — what one selection adds to a walk

A selection that its directives leave out adds nothing, any other one adds what it asks for.
`Contributes` lists all that can happen, case by case, with what has to hold in each; later
proofs go through its cases and do not open the walk again.

* `Selection.contribution` — the tree one selection adds;
* `Selection.contribution_ok_iff` — it is the tree that `Contributes` gives;
* `Selection.Opens` — the walk that a selection leads to; what it adds depends on no other walk.
-/

namespace Lookahead

namespace Run

/-- Two continuations that agree on the value there is make the same sequence. -/
theorem bind_congr_of_ok {α β : Type} {x : Run α} {f g : α → Run β}
    (h : ∀ a, x.outcome = .ok a → f a = g a) : x >>= f = x >>= g := by
  rcases hx : x.outcome with failure | a
  · rw [bind_of_error hx, bind_of_error hx]
  · rw [bind_of_ok hx, bind_of_ok hx, h a hx]

end Run

namespace Selection

/-- What a selection adds to the tree of a walk, where `walk` goes through the selections
below it. -/
def contribution (context : Context) (walk : Rule → List Selection → Run FieldTree) (rule : Rule)
    (selection : Selection) : Run FieldTree := do
  if ← Run.ofExcept (context.admits selection) then selection.wanted context walk rule
  else return .nil

theorem collectInto_eq (context : Context) (walk : Rule → List Selection → Run FieldTree)
    (rule : Rule) (tree : FieldTree) (selection : Selection) :
    selection.collectInto context walk rule tree = do
      let added ← selection.contribution context walk rule
      return tree.absorb added := by
  rw [collectInto, contribution, bind_assoc]
  congr 1
  funext admitted
  cases admitted <;> simp

/-! ## The cases -/

/-- All ways in which a selection adds a tree. -/
inductive Contributes (context : Context) (walk : Rule → List Selection → Run FieldTree)
    (rule : Rule) : Selection → FieldTree → Prop
  | leftOut {selection : Selection} (hadmits : context.admits selection = .ok false) :
      Contributes context walk rule selection .nil
  | excluded {name : String} {directives : Directives} {selectionSet : SelectionSet}
      (hadmits : context.admits (field (some name) directives selectionSet) = .ok true)
      (hverdict : rule.verdict context.timeout name = .exclude) :
      Contributes context walk rule (field (some name) directives selectionSet) .nil
  | leaf {name : String} {directives : Directives} {selectionSet : SelectionSet}
      (hadmits : context.admits (field (some name) directives selectionSet) = .ok true)
      (hverdict : rule.verdict context.timeout name ≠ .exclude)
      (hempty : selectionSet.toList = []) :
      Contributes context walk rule (field (some name) directives selectionSet) (.leaf name .nil)
  | branch {name : String} {directives : Directives} {selectionSet : SelectionSet}
      {children : FieldTree}
      (hadmits : context.admits (field (some name) directives selectionSet) = .ok true)
      (hverdict : rule.verdict context.timeout name ≠ .exclude)
      (hfull : selectionSet.toList ≠ [])
      (hwalk : (walk (rule.verdict context.timeout name) selectionSet.toList).outcome =
        .ok children) :
      Contributes context walk rule (field (some name) directives selectionSet)
        (.branch name children .nil)
  | inlineFragment {directives : Directives} {selectionSet : SelectionSet} {tree : FieldTree}
      (hadmits : context.admits (inlineFragment directives selectionSet) = .ok true)
      (hwalk : (walk rule selectionSet.toList).outcome = .ok tree) :
      Contributes context walk rule (inlineFragment directives selectionSet) tree
  | spread {name : String} {directives : Directives} {fragment : Fragment} {tree : FieldTree}
      (hadmits : context.admits (spread (some name) directives) = .ok true)
      (hdefined : context.fragments.lookup name = .ok (some fragment))
      (hwalk : (walk rule fragment.selections).outcome = .ok tree) :
      Contributes context walk rule (spread (some name) directives) tree
  | undefined {name : String} {directives : Directives}
      (hadmits : context.admits (spread (some name) directives) = .ok true)
      (hundefined : context.fragments.lookup name = .ok none) :
      Contributes context walk rule (spread (some name) directives) .nil
  | other {directives : Directives} {selectionSet : SelectionSet}
      (hadmits : context.admits (other directives selectionSet) = .ok true) :
      Contributes context walk rule (other directives selectionSet) .nil
  | value {value : Value} (hadmits : context.admits (.value value) = .ok true) :
      Contributes context walk rule (.value value) .nil

variable {context : Context} {walk : Rule → List Selection → Run FieldTree} {rule : Rule}
  {selection : Selection} {tree : FieldTree} {admitted : Bool}

/-- A selection adds what it asks for, or nothing. -/
theorem contribution_of_admits (h : context.admits selection = .ok admitted) :
    selection.contribution context walk rule =
      if admitted then selection.wanted context walk rule else pure .nil := by
  unfold contribution
  rw [h]
  exact pure_bind admitted _

theorem outcome_contribution_of_admitted (h : context.admits selection = .ok true) :
    (selection.contribution context walk rule).outcome =
      (selection.wanted context walk rule).outcome := by
  rw [contribution_of_admits h, if_pos rfl]

theorem outcome_contribution_of_leftOut (h : context.admits selection = .ok false) :
    (selection.contribution context walk rule).outcome = .ok .nil := by
  rw [contribution_of_admits h]
  rfl

/-- A selection whose directives cannot be evaluated fails as they do. -/
theorem outcome_contribution_of_error {failure : Failure}
    (h : context.admits selection = .error failure) :
    (selection.contribution context walk rule).outcome = .error failure := by
  have hfails : (Run.ofExcept (context.admits selection)).outcome = .error failure := h
  unfold contribution
  rw [Run.bind_of_error hfails]

/-- A selection that adds a tree has directives that could be evaluated. -/
theorem exists_admits_of_ok (h : (selection.contribution context walk rule).outcome = .ok tree) :
    ∃ admitted, context.admits selection = .ok admitted := by
  rcases Run.bind_outcome_eq_ok_iff.1 h with ⟨admitted, hadmits, -⟩
  exact ⟨admitted, hadmits⟩

/-- A spread asks for what the selections of its fragment ask for. -/
theorem wanted_of_defined {name : String} {directives : Directives} {definition : Fragment}
    (h : context.fragments.lookup name = .ok (some definition)) :
    (spread (some name) directives).wanted context walk rule =
      walk rule definition.selections := by
  simp only [wanted, h]
  exact pure_bind (some definition) _

/-- A spread of nothing is reported. -/
theorem wanted_of_undefined {name : String} {directives : Directives}
    (h : context.fragments.lookup name = .ok none) :
    (spread (some name) directives).wanted context walk rule =
      ⟨[.undefinedFragment name], .ok .nil⟩ := by
  simp only [wanted, h]
  exact pure_bind none _

/-- An excluded field asks for nothing, but it was looked up. -/
theorem wanted_of_excluded {name : String} {directives : Directives}
    {selectionSet : SelectionSet} (h : rule.verdict context.timeout name = .exclude) :
    (field (some name) directives selectionSet).wanted context walk rule =
      ⟨(rule.lookup context.timeout name).notices, .ok .nil⟩ := by
  rw [wanted, Run.bind_of_ok (rule.outcome_lookup context.timeout name), h]
  simp

/-- A field that is kept asks for itself, and for what is below it if there is anything. -/
theorem wanted_of_kept {name : String} {directives : Directives} {selectionSet : SelectionSet}
    (h : rule.verdict context.timeout name ≠ .exclude) :
    (field (some name) directives selectionSet).wanted context walk rule = do
      let _ ← rule.lookup context.timeout name
      if selectionSet.toList.isEmpty then return .leaf name .nil
      else
        let children ← walk (rule.verdict context.timeout name) selectionSet.toList
        return .branch name children .nil := by
  have hlookup := rule.outcome_lookup context.timeout name
  rw [wanted, Run.bind_of_ok hlookup, Run.bind_of_ok hlookup]
  split
  · next hexcluded => exact absurd hexcluded h
  · rfl

theorem outcome_wanted_field {name : String} {directives : Directives}
    {selectionSet : SelectionSet} (h : rule.verdict context.timeout name ≠ .exclude) :
    ((field (some name) directives selectionSet).wanted context walk rule).outcome =
      if selectionSet.toList.isEmpty then .ok (.leaf name .nil)
      else (walk (rule.verdict context.timeout name) selectionSet.toList).outcome >>=
        fun children => .ok (.branch name children .nil) := by
  rw [wanted_of_kept h, Run.outcome_bind_of_ok (rule.outcome_lookup context.timeout name)]
  split
  · rfl
  · rw [Run.outcome_bind]
    rfl

theorem outcome_wanted_excluded {name : String} {directives : Directives}
    {selectionSet : SelectionSet} (h : rule.verdict context.timeout name = .exclude) :
    ((field (some name) directives selectionSet).wanted context walk rule).outcome = .ok .nil := by
  rw [wanted_of_excluded h]

/-! ## The cases are complete -/

/-- What a field that stays asks for is one of its three cases. -/
private theorem contributes_of_wanted_field {name : String} {directives : Directives}
    {selectionSet : SelectionSet}
    (hadmits : context.admits (field (some name) directives selectionSet) = .ok true)
    (h : ((field (some name) directives selectionSet).wanted context walk rule).outcome =
      .ok tree) :
    Contributes context walk rule (field (some name) directives selectionSet) tree := by
  by_cases hverdict : rule.verdict context.timeout name = .exclude
  · -- an excluded field is not gone into, whatever stands below it
    have hnil := (outcome_wanted_excluded hverdict).symm.trans h
    cases hnil
    exact .excluded hadmits hverdict
  · rw [outcome_wanted_field hverdict] at h
    by_cases hempty : selectionSet.toList = []
    · have hleaf : FieldTree.leaf name .nil = tree := by simpa [hempty] using h
      subst hleaf
      exact .leaf hadmits hverdict hempty
    · rw [if_neg (by simpa using hempty)] at h
      rcases hwalk : (walk (rule.verdict context.timeout name) selectionSet.toList).outcome with
        failure | children
      · -- a walk that fails leaves no tree to speak of
        rw [hwalk] at h
        cases h
      · rw [hwalk] at h
        cases h
        exact .branch hadmits hverdict hempty hwalk

theorem contributes_of_ok (h : (selection.contribution context walk rule).outcome = .ok tree) :
    Contributes context walk rule selection tree := by
  rcases exists_admits_of_ok h with ⟨admitted, hadmits⟩
  cases admitted with
  | false =>
      have hnil := (outcome_contribution_of_leftOut hadmits).symm.trans h
      cases hnil
      exact .leftOut hadmits
  | true =>
      -- nodes without a name end in a failure, and all others are cases of the relation
      rw [outcome_contribution_of_admitted hadmits] at h
      cases selection with
      | field name directives selectionSet =>
          cases name with
          | none => cases h
          | some name => exact contributes_of_wanted_field hadmits h
      | inlineFragment directives selectionSet =>
          exact .inlineFragment hadmits h
      | spread name directives =>
          cases name with
          | none => cases h
          | some name =>
              rw [wanted, Run.bind_outcome_eq_ok_iff] at h
              rcases h with ⟨fragment, hlookup, h⟩
              cases fragment with
              | none =>
                  cases h
                  exact .undefined hadmits hlookup
              | some fragment => exact .spread hadmits hlookup h
      | other directives selectionSet =>
          cases h
          exact .other hadmits
      | value value =>
          cases h
          exact .value hadmits

theorem Contributes.outcome (h : Contributes context walk rule selection tree) :
    (selection.contribution context walk rule).outcome = .ok tree := by
  cases h with
  | leftOut hadmits =>
      exact outcome_contribution_of_leftOut hadmits
  | excluded hadmits hverdict =>
      rw [outcome_contribution_of_admitted hadmits, outcome_wanted_excluded hverdict]
  | leaf hadmits hverdict hempty =>
      rw [outcome_contribution_of_admitted hadmits, outcome_wanted_field hverdict]
      simp [hempty]
  | branch hadmits hverdict hfull hwalk =>
      rw [outcome_contribution_of_admitted hadmits, outcome_wanted_field hverdict,
        if_neg (by simpa using hfull), hwalk]
      rfl
  | inlineFragment hadmits hwalk =>
      rw [outcome_contribution_of_admitted hadmits]
      exact hwalk
  | spread hadmits hdefined hwalk =>
      rw [outcome_contribution_of_admitted hadmits, wanted_of_defined hdefined]
      exact hwalk
  | undefined hadmits hundefined =>
      rw [outcome_contribution_of_admitted hadmits, wanted_of_undefined hundefined]
  | other hadmits =>
      exact outcome_contribution_of_admitted hadmits
  | value hadmits =>
      exact outcome_contribution_of_admitted hadmits

/-- The cases of `Contributes` are exactly what a selection may add. -/
theorem contribution_ok_iff :
    (selection.contribution context walk rule).outcome = .ok tree ↔
      Contributes context walk rule selection tree :=
  ⟨contributes_of_ok, Contributes.outcome⟩

/-! ## The walk that a selection leads to -/

/-- The walk that a selection leads to, if its directives let it stay. -/
inductive Opens (context : Context) (rule : Rule) : Selection → Rule → List Selection → Prop
  | field {name : String} {directives : Directives} {selectionSet : SelectionSet}
      (hadmits : context.admits (field (some name) directives selectionSet) = .ok true)
      (hkept : rule.verdict context.timeout name ≠ .exclude)
      (hfull : selectionSet.toList ≠ []) :
      Opens context rule (field (some name) directives selectionSet)
        (rule.verdict context.timeout name) selectionSet.toList
  | inlineFragment {directives : Directives} {selectionSet : SelectionSet}
      (hadmits : context.admits (inlineFragment directives selectionSet) = .ok true) :
      Opens context rule (inlineFragment directives selectionSet) rule selectionSet.toList
  | spread {name : String} {directives : Directives} {fragment : Fragment}
      (hadmits : context.admits (spread (some name) directives) = .ok true)
      (hdefined : context.fragments.lookup name = .ok (some fragment)) :
      Opens context rule (spread (some name) directives) rule fragment.selections

/-- The walk that a selection leads to has ended well if the selection adds a tree. -/
theorem Contributes.isOk_of_opens {inner : Rule} {below : List Selection}
    (h : Contributes context walk rule selection tree)
    (hopens : selection.Opens context rule inner below) :
    ∃ found, (walk inner below).outcome = .ok found := by
  cases hopens with
  | field hadmits hkept hfull =>
      cases h with
      | leftOut hleft => simp [hadmits] at hleft
      | excluded _ hexcluded => exact absurd hexcluded hkept
      | leaf _ _ hempty => exact absurd hempty hfull
      | branch _ _ _ hwalk => exact ⟨_, hwalk⟩
  | inlineFragment hadmits =>
      cases h with
      | leftOut hleft => simp [hadmits] at hleft
      | inlineFragment _ hwalk => exact ⟨_, hwalk⟩
  | spread hadmits hdefined =>
      cases h with
      | leftOut hleft => simp [hadmits] at hleft
      | undefined _ hundefined => simp [hdefined] at hundefined
      | spread _ hother hwalk =>
          rw [hdefined] at hother
          cases hother
          exact ⟨_, hwalk⟩

/-- What a selection adds depends on no walk but the one it leads to. -/
theorem contribution_congr_of_opens {other : Rule → List Selection → Run FieldTree}
    (hsame : ∀ inner below, selection.Opens context rule inner below →
      other inner below = walk inner below) :
    selection.contribution context other rule = selection.contribution context walk rule := by
  cases hadmits : context.admits selection with
  | error failure =>
      simp only [contribution, hadmits]
      rfl
  | ok admitted =>
      simp only [contribution_of_admits hadmits]
      cases admitted with
      | false => rfl
      | true =>
          cases selection with
          | field name directives selectionSet =>
              cases name with
              | none => rfl
              | some name =>
                  by_cases hkept : rule.verdict context.timeout name = .exclude
                  · simp only [wanted_of_excluded hkept]
                  · by_cases hempty : selectionSet.toList = []
                    · simp [wanted_of_kept hkept, hempty]
                    · simp only [wanted_of_kept hkept, hsame _ _ (.field hadmits hkept hempty)]
          | inlineFragment directives selectionSet =>
              have hwalk := hsame _ _ (.inlineFragment hadmits)
              simp only [wanted, hwalk]
          | spread name directives =>
              cases name with
              | none => rfl
              | some name =>
                  have hwalk : ∀ found, context.fragments.lookup name = .ok (some found) →
                      other rule found.selections = walk rule found.selections :=
                    fun found hdefined => hsame _ _ (.spread hadmits hdefined)
                  simp only [if_true, wanted]
                  apply Run.bind_congr_of_ok
                  intro found hfound
                  cases found with
                  | none => rfl
                  | some fragment => exact hwalk fragment hfound
          | other directives selectionSet => rfl
          | value value => rfl

/-- How a selection ends depends on its directives, on the fragments, on which names are excluded
and on how the walks below it end, whatever is reported on the way. -/
theorem outcome_contribution_congr {changed : Context} {next : Rule}
    {other : Rule → List Selection → Run FieldTree}
    (hadmits : changed.admits selection = context.admits selection)
    (hfragments : changed.fragments = context.fragments)
    (hexclude : ∀ name, next.verdict changed.timeout name = .exclude ↔
      rule.verdict context.timeout name = .exclude)
    (hfield : ∀ name below, (other (next.verdict changed.timeout name) below).outcome =
      (walk (rule.verdict context.timeout name) below).outcome)
    (hinside : ∀ below, (other next below).outcome = (walk rule below).outcome) :
    (selection.contribution changed other next).outcome =
      (selection.contribution context walk rule).outcome := by
  -- both go the same way through the cases, since the same names are excluded
  cases hstays : context.admits selection with
  | error failure =>
      have hother := hadmits.trans hstays
      simp only [outcome_contribution_of_error hstays, outcome_contribution_of_error hother]
  | ok admitted =>
      have hother := hadmits.trans hstays
      cases admitted with
      | false =>
          simp only [outcome_contribution_of_leftOut hstays, outcome_contribution_of_leftOut hother]
      | true =>
          simp only [outcome_contribution_of_admitted hstays,
            outcome_contribution_of_admitted hother]
          cases selection with
          | field name directives selectionSet =>
              cases name with
              | none => rfl
              | some name =>
                  by_cases hkept : rule.verdict context.timeout name = .exclude
                  · have hexcluded := (hexclude name).2 hkept
                    simp only [outcome_wanted_excluded hkept, outcome_wanted_excluded hexcluded]
                  · have hstill := mt (hexclude name).1 hkept
                    simp only [outcome_wanted_field hkept, outcome_wanted_field hstill, hfield]
          | inlineFragment directives selectionSet => exact hinside _
          | spread name directives =>
              cases name with
              | none => rfl
              | some name =>
                  simp only [wanted, Run.outcome_bind, hfragments]
                  congr 1
                  funext found
                  cases found with
                  | none => rfl
                  | some fragment => exact hinside _
          | other directives selectionSet => rfl
          | value value => rfl

end Selection
end Lookahead
