import Lookahead.Proofs.Walk.Presence

/-!
# Nesting — the walks inside a walk, and where they fail

A walk through selections opens further walks one level down: below its fields, and in its
fragments. A chain of such walks is as long as the walk is nested deep. What can go wrong goes
wrong at a single selection that one of these walks comes to, or because a chain is too long.

* `Nested` — the walks that a walk leads to, one level after the other;
* `Selection.fault?` — what is wrong with a selection, apart from what is below it;
* `exists_fault_of_collect` — a failure is a fault of a selection that some walk comes to, or the
  limit was met;
* `collect_isOk_iff_faultless` — a walk ends well exactly if there is no fault and no chain that is
  too long.
-/

namespace Lookahead

open FieldTree (gather)

variable {context : Context} {limit level : Nat} {rule inner : Rule}
  {selections below : List Selection} {failure : Failure}

namespace Selection

variable {walk : Rule → List Selection → Run FieldTree} {selection : Selection} {tree : FieldTree}

/-! ## One selection -/

/-- What is wrong with a selection, if anything: its directives cannot be evaluated, or it stays
and has no name or names a fragment where there is no table. -/
def fault? (context : Context) (selection : Selection) : Option Failure :=
  match context.admits selection with
  | .error failure => some failure
  | .ok false => none
  | .ok true =>
      match selection with
      | field none _ _ => some .namelessSelection
      | spread none _ => some .namelessSelection
      | spread (some name) _ =>
          match context.fragments.lookup name with
          | .error failure => some failure
          | .ok _ => none
      | _ => none

/-- A selection that adds a tree has no fault. -/
theorem Contributes.fault?_eq_none (h : Contributes context walk rule selection tree) :
    selection.fault? context = none := by
  cases h with
  | leftOut hadmits => simp [fault?, hadmits]
  | excluded hadmits _ => simp [fault?, hadmits]
  | leaf hadmits _ _ => simp [fault?, hadmits]
  | branch hadmits _ _ _ => simp [fault?, hadmits]
  | inlineFragment hadmits _ => simp [fault?, hadmits]
  | spread hadmits hdefined _ => simp [fault?, hadmits, hdefined]
  | undefined hadmits hundefined => simp [fault?, hadmits, hundefined]
  | other hadmits => simp [fault?, hadmits]
  | value hadmits => simp [fault?, hadmits]

/-- If a selection fails, it has a fault or the walk it leads to fails. -/
theorem fault_or_opens_of_error
    (h : (selection.contribution context walk rule).outcome = .error failure) :
    selection.fault? context = some failure ∨
      ∃ inner below, selection.Opens context rule inner below ∧
        (walk inner below).outcome = .error failure := by
  cases hadmits : context.admits selection with
  | error cause =>
      have hcause := (outcome_contribution_of_error hadmits).symm.trans h
      cases hcause
      exact .inl (by simp [fault?, hadmits])
  | ok admitted =>
      cases admitted with
      | false =>
          have hnil := (outcome_contribution_of_leftOut hadmits).symm.trans h
          cases hnil
      | true =>
          rw [outcome_contribution_of_admitted hadmits] at h
          cases selection with
          | field name directives selectionSet =>
              cases name with
              | none =>
                  cases h
                  exact .inl (by simp [fault?, hadmits])
              | some name =>
                  by_cases hkept : rule.verdict context.timeout name = .exclude
                  · rw [outcome_wanted_excluded hkept] at h
                    cases h
                  · rw [outcome_wanted_field hkept] at h
                    by_cases hempty : selectionSet.toList = []
                    · simp [hempty] at h
                    · -- the field has selections, so it is their walk that failed
                      rw [if_neg (by simpa using hempty)] at h
                      cases hwalk : (walk (rule.verdict context.timeout name)
                          selectionSet.toList).outcome with
                      | ok children =>
                          rw [hwalk] at h
                          cases h
                      | error cause =>
                          rw [hwalk] at h
                          cases h
                          exact .inr ⟨_, _, .field hadmits hkept hempty, hwalk⟩
          | inlineFragment directives selectionSet =>
              exact .inr ⟨_, _, .inlineFragment hadmits, h⟩
          | spread name directives =>
              cases name with
              | none =>
                  cases h
                  exact .inl (by simp [fault?, hadmits])
              | some name =>
                  cases hlookup : context.fragments.lookup name with
                  | error cause =>
                      have hfails : (Run.ofExcept (context.fragments.lookup name)).outcome =
                          .error cause := hlookup
                      rw [wanted, Run.bind_of_error hfails] at h
                      cases h
                      exact .inl (by simp [fault?, hadmits, hlookup])
                  | ok found =>
                      cases found with
                      | none =>
                          rw [wanted_of_undefined hlookup] at h
                          cases h
                      | some fragment =>
                          rw [wanted_of_defined hlookup] at h
                          exact .inr ⟨_, _, .spread hadmits hlookup, h⟩
          | other directives selectionSet => cases h
          | value value => cases h

end Selection

/-! ## Chains of walks -/

/-- The walks inside a walk: `inner` and `below` are what a walk goes by and through that stands
`level` levels below the walk through `selections` by `rule`. -/
inductive Nested (context : Context) :
    Nat → Rule → List Selection → Rule → List Selection → Prop
  | here {rule : Rule} {selections : List Selection} :
      Nested context 0 rule selections rule selections
  | deeper {level : Nat} {rule next inner : Rule} {selections nextSelections below : List Selection}
      {selection : Selection} (hmem : selection ∈ selections)
      (hopens : selection.Opens context rule next nextSelections)
      (hnested : Nested context level next nextSelections inner below) :
      Nested context (level + 1) rule selections inner below

/-- A list that fails to gather has a member that fails. -/
theorem FieldTree.exists_error_of_gather {α : Type} {contribute : α → Run FieldTree}
    {items : List α} (h : (gather contribute items).outcome = .error failure) :
    ∃ item ∈ items, (contribute item).outcome = .error failure := by
  induction items with
  | nil =>
      cases h
  | cons item items ih =>
      rw [gather] at h
      cases hfirst : (contribute item).outcome with
      | error cause =>
          rw [Run.bind_of_error hfirst] at h
          cases h
          exact ⟨item, List.mem_cons_self, hfirst⟩
      | ok first =>
          rw [Run.outcome_bind_of_ok hfirst] at h
          cases hothers : (gather contribute items).outcome with
          | error cause =>
              rw [Run.bind_of_error hothers] at h
              cases h
              rcases ih hothers with ⟨item, hmem, herror⟩
              exact ⟨item, List.mem_cons_of_mem _ hmem, herror⟩
          | ok others =>
              rw [Run.outcome_bind_of_ok hothers] at h
              cases h

/-- A walk that fails comes to a selection with that fault, or it is nested as deep as the limit
and says so. -/
theorem exists_fault_of_collect
    (h : (collect context limit rule selections).outcome = .error failure) :
    ∃ level inner below, Nested context level rule selections inner below ∧
      ((level = limit ∧ failure = .nestingExceeded) ∨
        (level < limit ∧ ∃ selection ∈ below, selection.fault? context = some failure)) := by
  induction limit generalizing rule selections with
  | zero =>
      cases h
      exact ⟨0, rule, selections, .here, .inl ⟨rfl, rfl⟩⟩
  | succ limit ih =>
      rw [collect_succ] at h
      rcases FieldTree.exists_error_of_gather h with ⟨selection, hmem, herror⟩
      rcases Selection.fault_or_opens_of_error herror with
        hfault | ⟨next, nextSelections, hopens, hwalk⟩
      · exact ⟨0, rule, selections, .here, .inr ⟨Nat.succ_pos _, selection, hmem, hfault⟩⟩
      · -- what is found in the walk below is found one level further down from here
        rcases ih hwalk with ⟨level, inner, below, hnested, hcause⟩
        refine ⟨level + 1, inner, below, .deeper hmem hopens hnested, ?_⟩
        rcases hcause with ⟨rfl, hexceeded⟩ | ⟨hlevel, hfault⟩
        · exact .inl ⟨rfl, hexceeded⟩
        · exact .inr ⟨Nat.succ_lt_succ hlevel, hfault⟩

/-- In a walk that ends well, all walks inside it end well and stay within the limit. -/
theorem Nested.isOk_of_collect (hnested : Nested context level rule selections inner below) :
    ∀ {limit tree}, (collect context limit rule selections).outcome = .ok tree →
      level < limit ∧
        ∃ found, (collect context (limit - level) inner below).outcome = .ok found := by
  induction hnested with
  | here =>
      intro limit tree h
      cases limit with
      | zero => cases h
      | succ limit => exact ⟨Nat.succ_pos _, tree, h⟩
  | deeper hmem hopens _ ih =>
      intro limit tree h
      cases limit with
      | zero => cases h
      | succ limit =>
          rcases exists_collect_of_opens h hmem hopens with ⟨found, hfound⟩
          rcases ih hfound with ⟨hlevel, hinside⟩
          rw [Nat.succ_sub_succ]
          exact ⟨Nat.succ_lt_succ hlevel, hinside⟩

/-- All walks inside a walk stay within the limit, and none of them comes to a selection with a
fault. -/
def Faultless (context : Context) (limit : Nat) (rule : Rule) (selections : List Selection) :
    Prop :=
  ∀ level inner below, Nested context level rule selections inner below →
    level < limit ∧ ∀ selection ∈ below, selection.fault? context = none

theorem collect_isOk_iff_faultless :
    (∃ tree, (collect context limit rule selections).outcome = .ok tree) ↔
      Faultless context limit rule selections := by
  constructor
  · rintro ⟨tree, h⟩ level inner below hnested
    rcases hnested.isOk_of_collect h with ⟨hlevel, found, hfound⟩
    refine ⟨hlevel, ?_⟩
    intro selection hmem
    obtain ⟨rest, hrest⟩ : ∃ rest, limit - level = rest + 1 := ⟨limit - level - 1, by omega⟩
    rw [hrest] at hfound
    rcases contributes_of_mem hfound hmem with ⟨added, hadded⟩
    exact hadded.fault?_eq_none
  · intro hsound
    cases h : (collect context limit rule selections).outcome with
    | ok tree => exact ⟨tree, rfl⟩
    | error failure =>
        exfalso
        rcases exists_fault_of_collect h with ⟨level, inner, below, hnested, hcause⟩
        rcases hsound level inner below hnested with ⟨hlevel, hsound⟩
        rcases hcause with ⟨hlimit, -⟩ | ⟨-, selection, hmem, hfault⟩
        · omega
        · have hnone := hsound selection hmem
          rw [hfault] at hnone
          cases hnone

end Lookahead
