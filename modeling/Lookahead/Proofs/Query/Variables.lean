import Lookahead.Proofs.Query.Permission

/-!
# Variables — what directives read of the variables

A condition asks whether its variable is true and nothing else, and a variable without a value is
not true. So directives cannot tell values apart in which the variables they name are equally true.

* `Value.truthOf?` — whether a variable is true;
* `Directives.readVariables` — the variables that conditions name;
* `Directives.permit_congr` — directives come to the same wherever those are equally true.
-/

namespace Lookahead

variable {left right : Value}

/-- Whether a variable is true, where variables can be looked up at all. -/
def Value.truthOf? (key : String) (variableValues : Value) : Option Bool :=
  (variableValues.field? key).map Value.truthy

theorem Condition.namePermits_congr (name : String) (h : left.truthy = right.truthy) :
    Condition.namePermits name left = Condition.namePermits name right := by
  unfold namePermits
  cases Condition.ofName? name with
  | none => rfl
  | some condition => cases condition <;> simp [permits, h]

/-! ## Which variables are read -/

def Argument.variable? : Argument → Option String
  | ofVariable name => some name
  | _ => none

/-- The variables in the arguments of a condition; other directives read none. -/
def Arguments.readVariables (name : String) : Arguments → List String
  | listed arguments =>
      if (Condition.ofName? name).isSome then arguments.filterMap Argument.variable? else []
  | _ => []

def Directive.readVariables : Directive → List String
  | named name arguments => arguments.readVariables name
  | other (some name) arguments => arguments.readVariables name
  | _ => []

namespace Directives

def readVariables : Directives → List String
  | listed directives => directives.flatMap Directive.readVariables
  | _ => []

end Directives

/-! ## Equally true variables -/

theorem Argument.permits_congr (name : String) {argument : Argument}
    (h : ∀ key, argument.variable? = some key → left.truthOf? key = right.truthOf? key) :
    argument.permits name left = argument.permits name right := by
  cases argument with
  | boolean value => rfl
  | namelessVariable => rfl
  | literal => rfl
  | absent => rfl
  | ofVariable key =>
      have htruth : (left.field? key).map Value.truthy = (right.field? key).map Value.truthy :=
        h key rfl
      cases hleft : left.field? key with
      | none =>
          have hright : right.field? key = none := by
            simpa [hleft] using htruth.symm
          simp only [permits, hleft, hright]
      | some value =>
          rcases Option.map_eq_some_iff.1 (by simpa [hleft] using htruth.symm) with
            ⟨other, hright, hsame⟩
          simp only [permits, hleft, hright, Condition.namePermits_congr name hsame]

theorem Arguments.permit_congr {name : String} {arguments : Arguments}
    (h : ∀ key ∈ arguments.readVariables name, left.truthOf? key = right.truthOf? key) :
    arguments.permit name left = arguments.permit name right := by
  cases hcondition : Condition.ofName? name with
  | none => simp only [permit, hcondition]
  | some condition =>
      cases arguments with
      | missing => simp only [permit, hcondition]
      | malformed value => simp only [permit, hcondition]
      | listed arguments =>
          simp only [permit, hcondition]
          apply allM_congr
          intro argument hmem
          apply Argument.permits_congr
          intro key hkey
          apply h
          simpa [readVariables, hcondition] using ⟨argument, hmem, hkey⟩

theorem Directive.permits_congr {directive : Directive}
    (h : ∀ key ∈ directive.readVariables, left.truthOf? key = right.truthOf? key) :
    directive.permits left = directive.permits right := by
  cases directive with
  | named name arguments => exact Arguments.permit_congr h
  | nameless => rfl
  | other name arguments =>
      cases name with
      | none => rfl
      | some name => exact Arguments.permit_congr h
  | malformed value => rfl

theorem Directives.permit_congr {directives : Directives}
    (h : ∀ key ∈ directives.readVariables, (left.orElse (.object [])).truthOf? key =
      (right.orElse (.object [])).truthOf? key) :
    directives.permit left = directives.permit right := by
  cases directives with
  | missing => rfl
  | malformed value => rfl
  | listed directives =>
      apply allM_congr
      intro directive hmem
      apply Directive.permits_congr
      intro key hkey
      exact h key (List.mem_flatMap.2 ⟨directive, hmem, hkey⟩)

end Lookahead
