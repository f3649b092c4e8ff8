import Lookahead.Query.Walk

/-!
# Permission — what several directives let stay

Directives are read from left to right, up to the first one that leaves the selection out. So
directives put in front of others are read first, and the others count only if those let the
selection stay.

* `Directives.prepend` — directives in front of others;
* `Directives.permit_prepend_of_true`, `Directives.permit_prepend_of_false` — what both let stay;
* `Directive.content?`, `Directive.WellFormed` — what is read of a member of a list of directives,
  and what it takes to evaluate it;
* `Directives.permit_listed_isOk`, `Directives.Readable.permit_isOk` — lists that can be evaluated;
* `Directives.Named.eq_of_error` — named directives fail over a variable without a name only.
-/

namespace Lookahead

/-! ## Tests in a row -/

section AllM

variable {α : Type} {test : α → Except Failure Bool} {front back : List α}

/-- Tests that agree on the members of a list come to the same. -/
theorem allM_congr {other : α → Except Failure Bool}
    (h : ∀ item ∈ front, test item = other item) : front.allM test = front.allM other := by
  induction front with
  | nil =>
      rfl
  | cons item front ih =>
      rcases List.forall_mem_cons.1 h with ⟨hitem, hfront⟩
      simp only [List.allM, hitem, ih hfront]

/-- Tests behind others that all hold decide alone. -/
theorem allM_append_of_true (h : front.allM test = .ok true) :
    (front ++ back).allM test = back.allM test := by
  induction front with
  | nil =>
      rfl
  | cons item front ih =>
      rw [List.allM] at h
      rw [List.cons_append, List.allM]
      cases hitem : test item with
      | error failure =>
          rw [hitem] at h
          cases h
      | ok holds =>
          rw [hitem] at h
          cases holds with
          | false => cases h
          | true => exact ih h

/-- Tests behind one that does not hold are not made. -/
theorem allM_append_of_false (h : front.allM test = .ok false) :
    (front ++ back).allM test = .ok false := by
  induction front with
  | nil =>
      cases h
  | cons item front ih =>
      rw [List.allM] at h
      rw [List.cons_append, List.allM]
      cases hitem : test item with
      | error failure =>
          rw [hitem] at h
          cases h
      | ok holds =>
          rw [hitem] at h
          cases holds with
          | false => rfl
          | true => exact ih h

/-- Tests that can be made can be made in a row. -/
theorem allM_isOk (h : ∀ item ∈ front, ∃ holds, test item = .ok holds) :
    ∃ holds, front.allM test = .ok holds := by
  induction front with
  | nil =>
      exact ⟨true, rfl⟩
  | cons item front ih =>
      rcases h item List.mem_cons_self with ⟨holds, hitem⟩
      rw [List.allM, hitem]
      cases holds with
      | false =>
          exact ⟨false, rfl⟩
      | true =>
          have hfront : ∀ other ∈ front, ∃ holds, test other = .ok holds := by
            intro other hmem
            exact h other (List.mem_cons_of_mem item hmem)
          exact ih hfront

/-- If tests cannot be made in a row, one of them cannot be made. -/
theorem exists_error_of_allM {failure : Failure} (h : front.allM test = .error failure) :
    ∃ item ∈ front, test item = .error failure := by
  induction front with
  | nil =>
      cases h
  | cons item front ih =>
      rw [List.allM] at h
      cases hitem : test item with
      | error cause =>
          rw [hitem] at h
          cases h
          exact ⟨item, List.mem_cons_self, hitem⟩
      | ok holds =>
          rw [hitem] at h
          cases holds with
          | false => cases h
          | true =>
              rcases ih h with ⟨other, hmem, hother⟩
              exact ⟨other, List.mem_cons_of_mem item hmem, hother⟩

end AllM

/-! ## What is read of a directive -/

namespace Argument

variable {argument : Argument} {name : String} {fields : List (String × Value)}

/-- Only a variable without a name cannot be evaluated. -/
theorem permits_isOk (h : argument ≠ namelessVariable) :
    ∃ permitted, argument.permits name (.object fields) = .ok permitted := by
  cases argument with
  | boolean value => exact ⟨_, rfl⟩
  | ofVariable key => exact ⟨_, rfl⟩
  | namelessVariable => exact absurd rfl h
  | literal => exact ⟨true, rfl⟩
  | absent => exact ⟨true, rfl⟩

theorem eq_of_error {failure : Failure}
    (h : argument.permits name (.object fields) = .error failure) :
    failure = .namelessDirective := by
  cases argument <;> cases h
  rfl

end Argument

namespace Directive

variable {directive : Directive} {name : String} {arguments : Arguments} {variableValues : Value}

/-- What is read of a member of a list of directives: its name and its arguments. -/
def content? : Directive → Option (String × Arguments)
  | named name arguments => some (name, arguments)
  | nameless => none
  | other name arguments => name.map fun name => (name, arguments)
  | malformed _ => none

/-- No variable that a condition is about lacks a name. -/
def NamesVariables (directive : Directive) : Prop :=
  ∀ name arguments, directive.content? = some (name, .listed arguments) →
    (Condition.ofName? name).isSome = true → .namelessVariable ∉ arguments

theorem permits_of_content (h : directive.content? = some (name, arguments)) :
    directive.permits variableValues = arguments.permit name variableValues := by
  cases directive with
  | named known own =>
      cases h
      rfl
  | nameless => cases h
  | other known own =>
      cases known with
      | none => cases h
      | some known =>
          cases h
          rfl
  | malformed value => cases h

/-- A member of a list of directives that has a name, as have the variables it is about. -/
structure WellFormed (directive : Directive) : Prop where
  readable : ∃ name arguments, directive.content? = some (name, arguments)
  namesVariables : directive.NamesVariables

/-- What is well-formed can be evaluated wherever variables can be looked up. -/
theorem WellFormed.permits_isOk (h : directive.WellFormed) (fields : List (String × Value)) :
    ∃ permitted, directive.permits (.object fields) = .ok permitted := by
  rcases h.readable with ⟨name, arguments, hcontent⟩
  rw [permits_of_content hcontent]
  -- nobody reads the arguments of a directive that is no condition
  cases hcondition : Condition.ofName? name with
  | none =>
      exact ⟨true, by simp only [Arguments.permit, hcondition]⟩
  | some condition =>
      cases arguments with
      | missing => exact ⟨true, by simp only [Arguments.permit, hcondition]⟩
      | malformed value => exact ⟨true, by simp only [Arguments.permit, hcondition]⟩
      | listed arguments =>
          have hnames := h.namesVariables name arguments hcontent (by simp [hcondition])
          simp only [Arguments.permit, hcondition]
          apply allM_isOk
          intro argument hmem
          exact Argument.permits_isOk fun hnameless => hnames (hnameless ▸ hmem)

/-- Over what can be read nothing fails but a variable without a name. -/
theorem eq_of_error (hcontent : directive.content? = some (name, arguments))
    {fields : List (String × Value)} {failure : Failure}
    (h : directive.permits (.object fields) = .error failure) :
    failure = .namelessDirective := by
  rw [permits_of_content hcontent] at h
  unfold Arguments.permit at h
  split at h
  · rcases exists_error_of_allM h with ⟨argument, -, hargument⟩
    exact Argument.eq_of_error hargument
  · cases h

end Directive

namespace Directives

variable {variableValues : Value} {front own : Directives} {permitted : Bool}

/-! ## Directives in front of others -/

/-- The directives one by one. What cannot be gone through stands for one that is no directive. -/
def members : Directives → List Directive
  | missing => []
  | malformed value => if value.truthy then [.malformed value] else []
  | listed directives => directives

/-- Directives in front of others. -/
def prepend (front own : Directives) : Directives :=
  .listed (front.members ++ own.members)

/-- Directives that can be evaluated are evaluated one by one. -/
theorem permit_listed_members (h : own.permit variableValues = .ok permitted) :
    (listed own.members).permit variableValues = .ok permitted := by
  cases own with
  | missing =>
      exact h
  | listed directives =>
      exact h
  | malformed value =>
      by_cases htruthy : value.truthy = true
      · -- there is something in place of the directives, which is an error however it is read
        cases value <;> simp_all [permit]
      · simp only [permit, htruthy] at h
        simp only [members, htruthy]
        exact h

/-- Behind directives that let a selection stay its own ones decide. -/
theorem permit_prepend_of_true (hfront : front.permit variableValues = .ok true)
    (hown : own.permit variableValues = .ok permitted) :
    (front.prepend own).permit variableValues = .ok permitted := by
  have hfirst := permit_listed_members hfront
  have hthen := permit_listed_members hown
  exact (allM_append_of_true hfirst).trans hthen

/-- Behind directives that leave a selection out its own ones are not read. -/
theorem permit_prepend_of_false (hfront : front.permit variableValues = .ok false)
    (own : Directives) : (front.prepend own).permit variableValues = .ok false := by
  have hfirst := permit_listed_members hfront
  exact allM_append_of_false hfirst

/-! ## Named directives -/

/-- A list of directives with names, or none at all. -/
def Named : Directives → Prop
  | missing => True
  | malformed _ => False
  | listed directives =>
      ∀ directive ∈ directives, ∃ name arguments, directive = .named name arguments

/-- A list of directives with names, in which the variables of conditions have names too. -/
structure Readable (directives : Directives) : Prop where
  named : directives.Named
  namesVariables : ∀ directive ∈ directives.members, directive.NamesVariables

variable {fields : List (String × Value)}

/-- Well-formed directives can be evaluated wherever variables can be looked up. -/
theorem permit_listed_isOk {directives : List Directive}
    (h : ∀ directive ∈ directives, directive.WellFormed)
    (hfields : variableValues.orElse (.object []) = .object fields) :
    ∃ permitted, (listed directives).permit variableValues = .ok permitted := by
  rw [permit, hfields]
  apply allM_isOk
  intro directive hmem
  exact (h directive hmem).permits_isOk fields

theorem Readable.permit_isOk (h : own.Readable)
    (hfields : variableValues.orElse (.object []) = .object fields) :
    ∃ permitted, own.permit variableValues = .ok permitted := by
  cases own with
  | missing =>
      exact ⟨true, rfl⟩
  | malformed value =>
      exact h.named.elim
  | listed directives =>
      refine permit_listed_isOk ?_ hfields
      intro directive hmem
      rcases h.named directive hmem with ⟨name, arguments, rfl⟩
      exact ⟨⟨name, arguments, rfl⟩, h.namesVariables _ hmem⟩

/-- If named directives cannot be evaluated, it is for a variable without a name. -/
theorem Named.eq_of_error (hnamed : own.Named)
    (hfields : variableValues.orElse (.object []) = .object fields) {failure : Failure}
    (h : own.permit variableValues = .error failure) : failure = .namelessDirective := by
  cases own with
  | missing =>
      cases h
  | malformed value =>
      exact hnamed.elim
  | listed directives =>
      rw [permit, hfields] at h
      rcases exists_error_of_allM h with ⟨directive, hmem, hdirective⟩
      rcases hnamed directive hmem with ⟨name, arguments, rfl⟩
      exact Directive.eq_of_error rfl hdirective

end Directives

end Lookahead
