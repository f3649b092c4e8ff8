import Lookahead.Proofs.Walk.Nesting

/-!
# Evaluation — directives only take away

The same query may be walked with its directives evaluated, or with all of them passed over. What is
reached in the first walk is reached in the second one too, so evaluating directives adds no path
and makes no leaf a branch. It may well turn a branch into a leaf, where the occurrences that had
selections are left out, and it may leave a branch empty.

* `Context.evaluating` — the context with directives evaluated, or passed over;
* `Reached.passingOver` — what is reached stays reached if directives are passed over;
* `NoneLeftOut` — the walk comes to no selection that its directives leave out;
* `evaluation_only_removes` — the trees of both walks.
-/

namespace Lookahead

/-- The same context, with directives evaluated or not. -/
def Context.evaluating (context : Context) (withDirectives : Bool) : Context :=
  { context with withDirectives }

variable {context : Context} {limit : Nat} {rule : Rule} {name : String} {path : List String}
  {selections : List Selection} {node : Selection} {tree : FieldTree}

/-! ## Passing directives over -/

/-- Where directives are passed over, every selection stays. -/
theorem admits_evaluating_false (context : Context) (selection : Selection) :
    (context.evaluating false).admits selection = .ok true := rfl

theorem FoundField.passingOver (h : FoundField context name selections node) :
    FoundField (context.evaluating false) name selections node := by
  induction h with
  | field hmem _ =>
      exact .field hmem (admits_evaluating_false context _)
  | inlineFragment hmem _ _ ih =>
      exact .inlineFragment hmem (admits_evaluating_false context _) ih
  | spread hmem _ hdefined _ ih =>
      exact .spread hmem (admits_evaluating_false context _) hdefined ih

theorem Requested.passingOver (h : Requested context path selections node) :
    Requested (context.evaluating false) path selections node := by
  induction h with
  | here hfound =>
      exact .here hfound.passingOver
  | deeper hfound _ ih =>
      exact .deeper hfound.passingOver ih

theorem Reached.passingOver (h : Reached context rule selections path node) :
    Reached (context.evaluating false) rule selections path node where
  requested := h.requested.passingOver
  kept := h.kept

/-! ## Directives that leave nothing out -/

/-- Of the selections that a walk comes to, none is left out by its directives. -/
def NoneLeftOut (context : Context) (rule : Rule) (selections : List Selection) : Prop :=
  ∀ level inner below, Nested context level rule selections inner below →
    ∀ selection ∈ below, context.admits selection ≠ .ok false

theorem NoneLeftOut.of_opens {selection : Selection} {inner : Rule} {below : List Selection}
    (h : NoneLeftOut context rule selections) (hmem : selection ∈ selections)
    (hopens : selection.Opens context rule inner below) : NoneLeftOut context inner below := by
  intro level last lowest hnested
  exact h (level + 1) last lowest (.deeper hmem hopens hnested)

/-- What a selection asks for once it stays has nothing to do with directives. -/
theorem wanted_evaluating (context : Context) (withDirectives : Bool)
    (walk : Rule → List Selection → Run FieldTree) (rule : Rule) (selection : Selection) :
    selection.wanted (context.evaluating withDirectives) walk rule =
      selection.wanted context walk rule := by
  cases selection with
  | field name directives selectionSet => cases name <;> rfl
  | inlineFragment directives selectionSet => rfl
  | spread name directives => cases name <;> rfl
  | other directives selectionSet => rfl
  | value value => rfl

/-- A walk that leaves nothing out because of directives is the walk that passes them over. -/
theorem collect_passingOver (hnone : NoneLeftOut context rule selections)
    (h : (collect context limit rule selections).outcome = .ok tree) :
    collect (context.evaluating false) limit rule selections =
      collect context limit rule selections := by
  induction limit generalizing rule selections tree with
  | zero =>
      rfl
  | succ limit ih =>
      simp only [collect_succ]
      apply FieldTree.gather_congr
      intro selection hmem
      rcases contributes_of_mem h hmem with ⟨added, hadded⟩
      -- the directives were evaluated without a failure, and they do not leave the selection out
      have hadmits : context.admits selection = .ok true := by
        rcases Selection.exists_admits_of_ok hadded.outcome with ⟨admitted, hadmitted⟩
        cases admitted with
        | false => exact absurd hadmitted (hnone 0 rule selections .here selection hmem)
        | true => exact hadmitted
      have hbelow : ∀ inner below, selection.Opens context rule inner below →
          collect (context.evaluating false) limit inner below =
            collect context limit inner below := by
        intro inner below hopens
        rcases exists_collect_of_opens h hmem hopens with ⟨found, hfound⟩
        exact ih (hnone.of_opens hmem hopens) hfound
      calc
        selection.contribution (context.evaluating false)
              (collect (context.evaluating false) limit) rule
            = selection.wanted context (collect (context.evaluating false) limit) rule := by
              simp only [Selection.contribution_of_admits (admits_evaluating_false context _),
                if_true, wanted_evaluating]
        _ = selection.contribution context (collect (context.evaluating false) limit) rule := by
              simp only [Selection.contribution_of_admits hadmits, if_true]
        _ = selection.contribution context (collect context limit) rule :=
              Selection.contribution_congr_of_opens hbelow

/-! ## Both walks -/

/-- Evaluating directives only takes away: every path of the tree is a path of the tree without
them, and it ends in a leaf where it does there. If no selection that the walk comes to is left out
by its directives, both trees are the same, with the same order. -/
theorem evaluation_only_removes {evaluated plain : FieldTree}
    (h : (collect (context.evaluating true) limit rule selections).outcome = .ok evaluated)
    (hplain : (collect (context.evaluating false) limit rule selections).outcome = .ok plain) :
    (∀ path, (evaluated.get? path).isSome → (plain.get? path).isSome) ∧
      (∀ path, (evaluated.get? path).isSome → plain.get? path = some .leaf →
        evaluated.get? path = some .leaf) ∧
      (NoneLeftOut (context.evaluating true) rule selections → evaluated = plain) := by
  have hreached : ∀ path node, Reached (context.evaluating true) rule selections path node →
      Reached (context.evaluating false) rule selections path node := by
    intro path node hnode
    exact hnode.passingOver
  refine ⟨?_, ?_, ?_⟩
  · intro path hpath
    rcases (isSome_get?_collect_iff h path).1 hpath with ⟨node, hnode⟩
    exact (isSome_get?_collect_iff hplain path).2 ⟨node, hreached path node hnode⟩
  · intro path hpath hleaf
    have hempty := ((get?_collect_eq_leaf_iff hplain path).1 hleaf).2
    have hsome := (isSome_get?_collect_iff h path).1 hpath
    -- no occurrence without selections gets any because more of them are reached
    refine (get?_collect_eq_leaf_iff h path).2 ⟨hsome, ?_⟩
    intro node hnode
    exact hempty node (hreached path node hnode)
  · intro hnone
    have hsame : (collect (context.evaluating false) limit rule selections).outcome =
        (collect (context.evaluating true) limit rule selections).outcome :=
      congrArg Run.outcome (collect_passingOver hnone h)
    have hboth := h.symm.trans (hsame.symm.trans hplain)
    exact Except.ok.inj hboth

/-! ### A query with conditions -/

/-- The query `{ a { b @skip(if: true) }, c, ... @include(if: $v) { c { d } } }`. -/
def conditionalSelections : List Selection :=
  [.field (some "a") .missing
      (.listed [.field (some "b")
        (.listed [.named "skip" (.listed [.boolean (some true)])]) .missing]),
    .field (some "c") .missing .missing,
    .inlineFragment (.listed [.named "include" (.listed [.ofVariable "v"])])
      (.listed [.field (some "c") .missing (.listed [.field (some "d") .missing .missing])])]

/-- The query `{ ... @skip(if: $v) { c @include(if: true) } }`. -/
def permittedSelections : List Selection :=
  [.inlineFragment (.listed [.named "skip" (.listed [.ofVariable "v"])])
    (.listed [.field (some "c")
      (.listed [.named "include" (.listed [.boolean (some true)])]) .missing])]

/-- The variable `v` has no value. -/
def conditionalContext : Context where
  fragments := .table []
  variableValues := .object []
  withDirectives := true
  timeout := .unset

theorem noneLeftOut_permittedSelections :
    NoneLeftOut (conditionalContext.evaluating true) .keep permittedSelections := by
  intro level inner below hnested selection hmem
  cases hnested with
  | here =>
      cases List.mem_singleton.1 hmem
      intro hleftOut
      cases hleftOut
  | deeper hfirst hopens hnested =>
      cases List.mem_singleton.1 hfirst
      cases hopens with
      | inlineFragment _ =>
          cases hnested with
          | here =>
              cases List.mem_singleton.1 hmem
              intro hleftOut
              cases hleftOut
          | deeper hsecond hopens _ =>
              -- there is nothing below the field
              cases List.mem_singleton.1 hsecond
              cases hopens with
              | field _ _ hfull => exact absurd rfl hfull

/-- In the first query `a` becomes an empty branch and `c` a leaf; in the second one nothing is left
out. -/
theorem sample_evaluation :
    ((collect (conditionalContext.evaluating true) 3 .keep conditionalSelections).outcome =
        .ok (.branch "a" .nil (.leaf "c" .nil)) ∧
      (collect (conditionalContext.evaluating false) 3 .keep conditionalSelections).outcome =
        .ok (.branch "a" (.leaf "b" .nil) (.branch "c" (.leaf "d" .nil) .nil)) ∧
      ∀ path, ((FieldTree.branch "a" .nil (.leaf "c" .nil)).get? path).isSome →
        ((FieldTree.branch "a" (.leaf "b" .nil)
          (.branch "c" (.leaf "d" .nil) .nil)).get? path).isSome) ∧
    NoneLeftOut (conditionalContext.evaluating true) .keep permittedSelections ∧
      ∃ evaluated plain,
        (collect (conditionalContext.evaluating true) 3 .keep permittedSelections).outcome =
          .ok evaluated ∧
        (collect (conditionalContext.evaluating false) 3 .keep permittedSelections).outcome =
          .ok plain ∧
        evaluated = plain := by
  have hwalk : (collect (conditionalContext.evaluating true) 3 .keep
      conditionalSelections).outcome = .ok (.branch "a" .nil (.leaf "c" .nil)) := rfl
  have hplain : (collect (conditionalContext.evaluating false) 3 .keep
      conditionalSelections).outcome =
        .ok (.branch "a" (.leaf "b" .nil) (.branch "c" (.leaf "d" .nil) .nil)) := rfl
  have hpermitted : (collect (conditionalContext.evaluating true) 3 .keep
      permittedSelections).outcome = .ok (.leaf "c" .nil) := rfl
  have hpassed : (collect (conditionalContext.evaluating false) 3 .keep
      permittedSelections).outcome = .ok (.leaf "c" .nil) := rfl
  have hsame := (evaluation_only_removes hpermitted hpassed).2.2 noneLeftOut_permittedSelections
  exact ⟨⟨hwalk, hplain, (evaluation_only_removes hwalk hplain).1⟩,
    noneLeftOut_permittedSelections, _, _, hpermitted, hpassed, hsame⟩

end Lookahead
