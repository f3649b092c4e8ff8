import Lookahead.Proofs.Request.Branch
import Lookahead.Proofs.Request.Options
import Lookahead.Proofs.Walk.Prune

/-!
# Request.Failures — which options make a request fail

The tree of a request fails over its options, its patterns and its path, but only if there is
something to walk. The other views read the options once more, before the tree is made, and they
fail over the new names if the tree has a name that may have a new one. A projection fails over one
more thing, since not every value can be a label.

* `ResolverInfo.ViewFails` — what the views fail over that are made of the tree;
* `ResolverInfo.Walks.requestedTree_eq_error_iff` — the tree, as long as its walk goes well;
* `failures_of_options` — each view fails exactly as described.
-/

namespace Lookahead

/-! ## Failing exactly -/

/-- A run that fails as described, and has an answer where nothing is described. -/
structure Run.FailsExactly {α : Type} (x : Run α) (fails : Failure → Prop) : Prop where
  error_iff : ∀ failure, x.outcome = .error failure ↔ fails failure
  answers : (∀ failure, ¬ fails failure) → ∃ a, x.outcome = .ok a

theorem Run.failsExactly_of_error_iff {α : Type} {x : Run α} {fails : Failure → Prop}
    (h : ∀ failure, x.outcome = .error failure ↔ fails failure) : x.FailsExactly fails := by
  refine ⟨h, ?_⟩
  intro hnone
  cases houtcome : x.outcome with
  | ok a =>
      exact ⟨a, rfl⟩
  | error failure =>
      have hfails : fails failure := (h failure).1 houtcome
      exact absurd hfails (hnone failure)

/-! ## Requests -/

namespace ResolverInfo

variable {settings : Settings} {info : ResolverInfo} {options : Value} {parsed : Options}
  {tree : FieldTree} {failure : Failure}

/-- Without patterns the walk of a request goes well, with directives and without them. -/
def Walks (settings : Settings) (info : ResolverInfo) : Prop :=
  ∀ evaluates : Bool, ∃ tree,
    (info.requestedTree settings
      (.object [(Options.withDirectivesKey, .bool evaluates)])).outcome = .ok tree

/-- What a view of the tree fails over: options that are no record, otherwise what the tree fails
over, and otherwise what is the matter with the labels of the tree. -/
inductive ViewFails (settings : Settings) (info : ResolverInfo) (options : Value)
    (fails : FieldTree → Failure → Prop) : Failure → Prop
  | options (h : options.Misshapen Value.IsRecord) :
      ViewFails settings info options fails .optionsNotRecord
  | tree {failure : Failure} (hread : ¬ options.Misshapen Value.IsRecord)
      (h : (info.requestedTree settings options).outcome = .error failure) :
      ViewFails settings info options fails failure
  | labels {tree : FieldTree} {failure : Failure} (hread : ¬ options.Misshapen Value.IsRecord)
      (htree : (info.requestedTree settings options).outcome = .ok tree)
      (h : fails tree failure) : ViewFails settings info options fails failure

/-- Where a walk goes well without patterns, any patterns leave it so. -/
theorem Walks.exists_collect (h : info.Walks settings) (hnodes : info.resolvedNodes ≠ [])
    (parsed : Options) (rule : Rule) :
    ∃ tree, (collect (info.contextOf settings parsed) settings.nestingLimit rule
      (selectionsBelow info.resolvedNodes)).outcome = .ok tree := by
  rcases h parsed.withDirectives.truthy with ⟨tree, htree⟩
  rcases exists_walk_of_ok hnodes rfl rfl htree with ⟨whole, hwhole, -⟩
  -- nothing but the directives of these options bears on a walk without patterns
  have hkeep : (collect (info.contextOf settings parsed) settings.nestingLimit .keep
      (selectionsBelow info.resolvedNodes)).outcome = .ok whole := by
    rw [← collect_within_nil]
    exact hwhole
  exact ⟨_, collect_prune rule hkeep⟩

/-- If there is something to walk, the tree of a request fails over its options. -/
theorem Walks.requestedTree_eq_error_iff (h : info.Walks settings)
    (hnodes : info.resolvedNodes ≠ []) :
    (info.requestedTree settings options).outcome = .error failure ↔
      Options.TreeFails options failure := by
  rw [outcome_requestedTree_step_by_step hnodes]
  cases hparsed : Options.ofValue options with
  | error cause =>
      rcases Options.ofValue_eq_error_iff.1 hparsed with ⟨rfl, hmisshapen⟩
      rw [Options.treeFails_iff_of_misshapen hmisshapen]
      simp [Bind.bind, Except.bind, eq_comm]
  | ok parsed =>
      have hrecord := Options.not_misshapen_of_ofValue hparsed
      have hskip : ∀ cause, Pattern.ofValue parsed.skip = .error cause ↔
          Pattern.Fails (Options.given Options.skipKey options) cause := by
        intro cause
        rw [Options.skip_eq_given hparsed, Pattern.ofValue_orElse_eq_error_iff]
      cases hpatterns : Pattern.ofValue parsed.skip with
      | error cause =>
          have hfails := (hskip cause).1 hpatterns
          simp only [Bind.bind, Except.bind, hpatterns]
          constructor
          · intro herror
            cases herror
            exact .patterns hfails
          · intro htree
            cases htree with
            | options hmisshapen => exact absurd hmisshapen hrecord
            | patterns hother =>
                cases hpatterns.symm.trans ((hskip failure).2 hother)
                rfl
            | path hnone _ => exact absurd hfails (hnone cause)
      | ok patterns =>
          have hnone : ∀ cause, ¬ Pattern.Fails (Options.given Options.skipKey options) cause := by
            intro cause hfails
            cases hpatterns.symm.trans ((hskip cause).2 hfails)
          -- the walk ends well, so only the path is left that may be wrong
          rcases h.exists_collect hnodes parsed (.within (Pattern.scope patterns)) with
            ⟨tree, htree⟩
          simp only [Bind.bind, Except.bind, hpatterns, htree]
          rw [FieldTree.branchAt_eq_error_iff, Options.path_eq_given hparsed]
          constructor
          · rintro ⟨rfl, hpath⟩
            exact .path hnone hpath
          · intro hfails
            cases hfails with
            | options hmisshapen => exact absurd hmisshapen hrecord
            | patterns hfails => exact absurd hfails (hnone failure)
            | path _ hpath => exact ⟨rfl, hpath⟩

/-! ### The other views -/

/-- A view that reads its options, has the tree made and labels it fails over each of the three. -/
theorem outcome_view_eq_error_iff {α : Type} {fails : FieldTree → Failure → Prop}
    {labels : Options → FieldTree → Except Failure α}
    (hlabels : ∀ parsed tree, Options.ofValue options = .ok parsed →
      (info.requestedTree settings options).outcome = .ok tree →
        ∀ failure, labels parsed tree = .error failure ↔ fails tree failure) :
    (do
      let parsed ← Run.ofExcept (Options.ofValue options)
      let tree ← info.requestedTree settings options
      Run.ofExcept (labels parsed tree) : Run α).outcome = .error failure ↔
        ViewFails settings info options fails failure := by
  -- the options are read first, then comes the tree, and the labels are made last
  cases hparsed : Options.ofValue options with
  | error cause =>
      rcases Options.ofValue_eq_error_iff.1 hparsed with ⟨rfl, hmisshapen⟩
      constructor
      · intro h
        cases h
        exact .options hmisshapen
      · intro h
        cases h with
        | options _ => rfl
        | tree hread _ => exact absurd hmisshapen hread
        | labels hread _ _ => exact absurd hmisshapen hread
  | ok parsed =>
      have hread := Options.not_misshapen_of_ofValue hparsed
      rw [Run.outcome_bind_of_ok rfl]
      cases htree : (info.requestedTree settings options).outcome with
      | error cause =>
          rw [Run.bind_of_error htree]
          constructor
          · intro h
            cases h
            exact .tree hread htree
          · intro h
            cases h with
            | options hmisshapen => exact absurd hmisshapen hread
            | tree _ hother =>
                cases htree.symm.trans hother
                rfl
            | labels _ hother _ => cases htree.symm.trans hother
      | ok tree =>
          rw [Run.outcome_bind_of_ok htree, Run.outcome_ofExcept, hlabels parsed tree hparsed htree]
          constructor
          · intro h
            exact .labels hread htree h
          · intro h
            cases h with
            | options hmisshapen => exact absurd hmisshapen hread
            | tree _ hother => cases htree.symm.trans hother
            | labels _ hother hfails =>
                cases htree.symm.trans hother
                exact hfails

theorem requestedNames_failsExactly :
    (info.requestedNames settings options).FailsExactly
      (ViewFails settings info options fun tree =>
        Options.RenamingFails options (tree.names ≠ [])) := by
  refine Run.failsExactly_of_error_iff fun failure => outcome_view_eq_error_iff ?_
  intro parsed tree hparsed _ failure
  rw [Value.mapM_label_eq_error_iff, Options.renamingFails_iff hparsed]

theorem projection_failsExactly :
    (info.projection settings options).FailsExactly
      (ViewFails settings info options fun tree failure =>
        Options.RenamingFails options (∃ path, tree.get? path = some .leaf) failure ∨
          Options.LabelFails options tree failure) := by
  refine Run.failsExactly_of_error_iff fun failure => outcome_view_eq_error_iff ?_
  intro parsed tree hparsed htree failure
  rw [Projection.foldlM_add_eq_error_iff]
  exact Projection.exists_fails_iff hparsed (distinct_requestedTree htree)

end ResolverInfo

/-- Where the walk of a request goes well without patterns, with directives and without them, each
view fails exactly over its options. The tree is empty if there is nothing to walk, whatever the
options are; otherwise it fails over options that are no record, over the patterns and over the
path. The names and the projection fail over options that are no record in any case, then over what
the tree fails over, and at last over new names that are no record, if there is a name at the top or
a leaf anywhere. A projection fails also over a new name that cannot be a label. -/
theorem failures_of_options {settings : Settings} {info : ResolverInfo} (h : info.Walks settings)
    (options : Value) :
    (info.resolvedNodes = [] → (info.requestedTree settings options).outcome = .ok .nil) ∧
      (info.resolvedNodes ≠ [] →
        (info.requestedTree settings options).FailsExactly (Options.TreeFails options)) ∧
      (info.requestedNames settings options).FailsExactly
        (ResolverInfo.ViewFails settings info options fun tree =>
          Options.RenamingFails options (tree.names ≠ [])) ∧
      (info.projection settings options).FailsExactly
        (ResolverInfo.ViewFails settings info options fun tree failure =>
          Options.RenamingFails options (∃ path, tree.get? path = some .leaf) failure ∨
            Options.LabelFails options tree failure) := by
  refine ⟨ResolverInfo.outcome_requestedTree_of_no_node, ?_,
    ResolverInfo.requestedNames_failsExactly, ResolverInfo.projection_failsExactly⟩
  intro hnodes
  exact Run.failsExactly_of_error_iff fun _ => h.requestedTree_eq_error_iff hnodes

/-! ### A list in the place of a new name -/

theorem walks_sampleInfo : sampleInfo.Walks {} := by
  intro evaluates
  cases evaluates with
  | false => exact ⟨_, rfl⟩
  | true => exact ⟨_, rfl⟩

/-- Options by which the field `d` of the sample query is to be called by a list. -/
def listedName : Value :=
  .object [(Options.transformKey, .object [("d", .array [.text "x"])])]

theorem outcome_requestedTree_listedName :
    (sampleInfo.requestedTree {} listedName).outcome = .ok sampleTree := rfl

/-- What is the matter with the projection under these options. -/
theorem viewFails_listedName :
    ResolverInfo.ViewFails {} sampleInfo listedName (fun tree failure =>
      Options.RenamingFails listedName (∃ path, tree.get? path = some .leaf) failure ∨
        Options.LabelFails listedName tree failure) .labelNotPlain := by
  have hrecord : ¬ listedName.Misshapen Value.IsRecord :=
    Value.not_misshapen_of_shape ⟨_, rfl⟩
  have hleaf : sampleTree.get? ["d"] = some .leaf := rfl
  exact .labels hrecord outcome_requestedTree_listedName (.inr (.label hleaf rfl rfl rfl rfl))

/-- The sample request fails over a path that is no text, and its projection over a list that takes
the place of the name `d`. -/
theorem sample_failures_of_options :
    sampleInfo.Walks {} ∧
      (sampleInfo.requestedTree {} (.object [(Options.pathKey, .bool true)])).outcome =
        .error .pathNotText ∧
      (sampleInfo.projection {} listedName).outcome = .error .labelNotPlain := by
  refine ⟨walks_sampleInfo, ?_, ?_⟩
  · have hnodes : sampleInfo.resolvedNodes ≠ [] := List.cons_ne_nil _ _
    have htree := (failures_of_options walks_sampleInfo
      (.object [(Options.pathKey, .bool true)])).2.1 hnodes
    have hpath : (Value.bool true).Misshapen Value.IsText :=
      (Value.misshapen_iff fun ⟨_, h⟩ => by cases h).2 rfl
    exact (htree.error_iff _).2 (.path (fun _ => Options.not_fails_null) hpath)
  · have hprojection := (failures_of_options walks_sampleInfo listedName).2.2.2
    exact (hprojection.error_iff _).2 viewFails_listedName

/-- A projection may fail over its new names even where they are a record. -/
theorem projection_fails_over_listed_name :
    ¬ ∀ (settings : Settings) (info : ResolverInfo) (options : Value), info.Walks settings →
        (info.projection settings options).FailsExactly
          (ResolverInfo.ViewFails settings info options fun tree =>
            Options.RenamingFails options (∃ path, tree.get? path = some .leaf)) := by
  intro hclaim
  have hclaimed := hclaim {} sampleInfo listedName walks_sampleInfo
  have hactual : (sampleInfo.projection {} listedName).FailsExactly _ :=
    ResolverInfo.projection_failsExactly
  have hcause := (hclaimed.error_iff _).1 ((hactual.error_iff _).2 viewFails_listedName)
  cases hcause with
  | tree _ herror => cases outcome_requestedTree_listedName.symm.trans herror
  | labels _ _ hfails => cases hfails

end Lookahead
