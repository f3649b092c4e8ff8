import Lookahead.Proofs.Query.Variables
import Lookahead.Proofs.Walk.Presence

/-!
# Agreement — what of its context a walk depends on

A walk reads the truth of the variables that conditions name and looks up the fragments that are
spread, in the selections it goes through and in the fragments these lead to. Two contexts that
agree on that much cannot be told apart by a walk, however it ends.

* `Contained` — a node in selections or in a fragment that they lead to;
* `Context.AgreesOn` — two contexts agree on all that such nodes refer to;
* `collect_eq_of_agreesOn` — then both walks have the same outcome and the same notices.
-/

namespace Lookahead

/-! ## The nodes that selections lead to -/

/-- The selections that a walk may go through because of a selection. Directives are not evaluated
here, and nothing is below nodes that a walk passes over. -/
inductive Selection.LeadsTo (fragments : FragmentTable) : Selection → List Selection → Prop
  | field {name : Option String} {directives : Directives} {selectionSet : SelectionSet} :
      LeadsTo fragments (field name directives selectionSet) selectionSet.toList
  | inlineFragment {directives : Directives} {selectionSet : SelectionSet} :
      LeadsTo fragments (inlineFragment directives selectionSet) selectionSet.toList
  | spread {name : String} {directives : Directives} {fragment : Fragment}
      (hdefined : fragments.lookup name = .ok (some fragment)) :
      LeadsTo fragments (spread (some name) directives) fragment.selections

/-- A node stands in selections, or anywhere in what they lead to. -/
inductive Contained (fragments : FragmentTable) : List Selection → Selection → Prop
  | here {selections : List Selection} {node : Selection} (hmem : node ∈ selections) :
      Contained fragments selections node
  | deeper {selections inner : List Selection} {selection node : Selection}
      (hmem : selection ∈ selections) (hleads : selection.LeadsTo fragments inner)
      (hinner : Contained fragments inner node) : Contained fragments selections node

/-- Selections among which all stand that they lead to contain nothing else. -/
theorem Contained.mem_of_closed {fragments : FragmentTable} {known selections : List Selection}
    {node : Selection}
    (hclosed : ∀ selection ∈ known, ∀ inner, selection.LeadsTo fragments inner → inner ⊆ known)
    (h : Contained fragments selections node) (hknown : selections ⊆ known) : node ∈ known := by
  induction h with
  | here hmem => exact hknown hmem
  | deeper hmem hleads _ ih => exact ih (hclosed _ (hknown hmem) _ hleads)

/-! ## Agreement -/

namespace Context

/-- Whether a variable is true. Variables that are absent are no variables. -/
def truthOf? (context : Context) (key : String) : Option Bool :=
  (context.variableValues.orElse (.object [])).truthOf? key

/-- Two contexts agree on all that selections refer to: both evaluate directives or neither does,
the variables in conditions are equally true, and the fragments that are spread are the same. -/
structure AgreesOn (left : Context) (selections : List Selection) (right : Context) : Prop where
  sameEvaluation : left.withDirectives = right.withDirectives
  sameTimeout : left.timeout = right.timeout
  sameTruth : ∀ node, Contained left.fragments selections node →
    ∀ key ∈ node.directives.readVariables, left.truthOf? key = right.truthOf? key
  sameFragments : ∀ name directives,
    Contained left.fragments selections (.spread (some name) directives) →
      left.fragments.lookup name = right.fragments.lookup name

namespace AgreesOn

variable {left right : Context} {selections inner : List Selection} {selection : Selection}

theorem below (h : left.AgreesOn selections right) (hmem : selection ∈ selections)
    (hleads : selection.LeadsTo left.fragments inner) : left.AgreesOn inner right where
  sameEvaluation := h.sameEvaluation
  sameTimeout := h.sameTimeout
  sameTruth := fun node hnode => h.sameTruth node (.deeper hmem hleads hnode)
  sameFragments := fun name directives hnode =>
    h.sameFragments name directives (.deeper hmem hleads hnode)

/-- Directives come to the same in both contexts. -/
theorem admits_eq (h : left.AgreesOn selections right) (hmem : selection ∈ selections) :
    left.admits selection = right.admits selection := by
  have hpermit : selection.directives.permit left.variableValues =
      selection.directives.permit right.variableValues :=
    Directives.permit_congr (h.sameTruth selection (.here hmem))
  simp only [admits, h.sameEvaluation, hpermit]

end AgreesOn

end Context

/-! ## Walks -/

variable {left right : Context} {selections : List Selection}

/-- A selection adds the same in both contexts if the walks that it leads to are the same. -/
theorem Selection.contribution_eq_of_agreesOn {walk other : Rule → List Selection → Run FieldTree}
    {selection : Selection} (h : left.AgreesOn selections right) (hmem : selection ∈ selections)
    (hwalk : ∀ rule inner, selection.LeadsTo left.fragments inner →
      walk rule inner = other rule inner)
    (rule : Rule) :
    selection.contribution left walk rule = selection.contribution right other rule := by
  have hwanted : selection.wanted left walk rule = selection.wanted right other rule := by
    cases selection with
    | field name directives selectionSet =>
        cases name with
        | none => rfl
        | some name =>
            have hbelow : ∀ rule, walk rule selectionSet.toList = other rule selectionSet.toList :=
              fun rule => hwalk rule _ .field
            simp only [wanted, h.sameTimeout, hbelow]
    | inlineFragment directives selectionSet =>
        exact hwalk rule _ .inlineFragment
    | spread name directives =>
        cases name with
        | none => rfl
        | some name =>
            have hlookup := h.sameFragments name directives (.here hmem)
            simp only [wanted, ← hlookup]
            -- the walk goes on only where the fragment is found
            apply Run.bind_congr_of_ok
            intro found hfound
            cases found with
            | none => rfl
            | some fragment => exact hwalk rule _ (.spread hfound)
    | other directives selectionSet => rfl
    | value value => rfl
  simp only [contribution, h.admits_eq hmem, hwanted]

/-- A walk depends on no more of its context than the truth of the variables in conditions and the
fragments that are spread, in the selections and in the fragments that they lead to. Where two
contexts agree on that, both walks have the same tree with the same order or the same failure, and
both report the same. -/
theorem collect_eq_of_agreesOn (limit : Nat) (rule : Rule) (h : left.AgreesOn selections right) :
    collect left limit rule selections = collect right limit rule selections := by
  induction limit generalizing rule selections with
  | zero =>
      rfl
  | succ limit ih =>
      simp only [collect_succ]
      apply FieldTree.gather_congr
      intro selection hmem
      apply Selection.contribution_eq_of_agreesOn h hmem
      intro inner below hleads
      exact ih inner (h.below hmem hleads)

/-! ### A query that could loop -/

/-- The query `{ ...F @include(if: $v), ...G }`. -/
def loopingSelections : List Selection :=
  [.spread (some "F") (.listed [.named "include" (.listed [.ofVariable "v"])]),
    .spread (some "G") .missing]

/-- `fragment F { a @skip(if: $w), ...F @include(if: $w) }`. -/
def loopingFragment : Fragment :=
  .definition (.listed
    [.field (some "a") (.listed [.named "skip" (.listed [.ofVariable "w"])]) .missing,
      .spread (some "F") (.listed [.named "include" (.listed [.ofVariable "w"])])])

/-- `v` is true, `w` has no value, and there is no fragment `G`. -/
def loopingContext : Context where
  fragments := .table [("F", some loopingFragment)]
  variableValues := .object [("v", .bool true)]
  withDirectives := true
  timeout := .unset

/-- Here `v` is a text, `w` an empty list, and `G` stands for nothing. There are a variable and a
fragment that nothing refers to, too. -/
def wordyContext : Context where
  fragments := .table [("H", some sampleFragment), ("G", none), ("F", some loopingFragment)]
  variableValues := .object [("u", .bool true), ("w", .array []), ("v", .text "yes")]
  withDirectives := true
  timeout := .unset

private theorem mem_of_contained_looping {node : Selection}
    (h : Contained loopingContext.fragments loopingSelections node) :
    node ∈ loopingSelections ++ loopingFragment.selections := by
  have hempty : ∀ selection ∈ loopingSelections ++ loopingFragment.selections,
      selection.selections.isEmpty = true := by
    decide
  refine h.mem_of_closed ?_ (List.subset_append_left _ _)
  intro selection hmem inner hleads
  cases hleads with
  | field =>
      have hnone := List.isEmpty_iff.1 (hempty _ hmem)
      simp only [Selection.selections] at hnone
      simp [hnone]
  | inlineFragment =>
      have hnone := List.isEmpty_iff.1 (hempty _ hmem)
      simp only [Selection.selections] at hnone
      simp [hnone]
  | spread hdefined =>
      simp only [loopingContext, FragmentTable.lookup, FragmentTable.find, Except.ok.injEq]
        at hdefined
      split at hdefined
      · cases hdefined
        exact List.subset_append_right _ _
      · cases hdefined

theorem looping_agreesOn : loopingContext.AgreesOn loopingSelections wordyContext where
  sameEvaluation := rfl
  sameTimeout := rfl
  sameTruth := by
    intro node hnode key hkey
    have hvariables : ∀ node ∈ loopingSelections ++ loopingFragment.selections,
        ∀ key ∈ node.directives.readVariables, key = "v" ∨ key = "w" := by
      decide
    rcases hvariables node (mem_of_contained_looping hnode) key hkey with rfl | rfl <;> rfl
  sameFragments := by
    intro name directives hnode
    have hmem := mem_of_contained_looping hnode
    simp only [loopingSelections, loopingFragment, Fragment.selections, SelectionSet.toList,
      List.cons_append, List.nil_append, List.mem_cons, List.not_mem_nil, or_false,
      Selection.spread.injEq, reduceCtorEq, Option.some.injEq, false_or] at hmem
    rcases hmem with ⟨rfl, -⟩ | ⟨rfl, -⟩ | ⟨rfl, -⟩ <;> rfl

/-- Both walks come to `a`, and both report `G`. -/
theorem sample_agreement :
    collect loopingContext 3 .keep loopingSelections =
        ⟨[.undefinedFragment "G"], .ok (.leaf "a" .nil)⟩ ∧
      collect wordyContext 3 .keep loopingSelections =
        ⟨[.undefinedFragment "G"], .ok (.leaf "a" .nil)⟩ := by
  have hwalk : collect loopingContext 3 .keep loopingSelections =
      ⟨[.undefinedFragment "G"], .ok (.leaf "a" .nil)⟩ := rfl
  have hsame := collect_eq_of_agreesOn 3 .keep looping_agreesOn
  exact ⟨hwalk, hsame.symm.trans hwalk⟩

end Lookahead
