import Lookahead.Proofs.Walk.Entry
import Lookahead.Request.View

/-!
# Request.Tree — one walk behind a request

A request walks the nodes of the field being resolved one after the other and unites their trees.
That is one walk through all of their selections, so what is known of walks holds for requests:

* `ResolverInfo.collectNodes_eq_collect` — walking several nodes;
* `ResolverInfo.outcome_requestedTree` — the tree of a request whose options make sense;
* `ResolverInfo.distinct_requestedTree` — its names are distinct at every level;
* `collect_within_nil` — a scope without keys has nothing to say.
-/

namespace Lookahead

/-! ## Several nodes -/

namespace ResolverInfo

theorem collectNodes_eq_gather (context : Context) (limit : Nat) (rule : Rule)
    (nodes : List Selection) :
    collectNodes context limit rule nodes =
      FieldTree.gather (fun node => collect context limit rule node.selections) nodes := by
  rw [collectNodes, FieldTree.foldlM_union]
  simp

/-- Walking nodes one after the other and uniting their trees is one walk through all of their
selections. -/
theorem collectNodes_eq_collect (context : Context) (limit : Nat) (rule : Rule)
    {nodes : List Selection} (hnodes : nodes ≠ []) :
    collectNodes context limit rule nodes =
      collect context limit rule (selectionsBelow nodes) := by
  rw [collectNodes_eq_gather]
  induction nodes with
  | nil =>
      exact absurd rfl hnodes
  | cons node nodes ih =>
      by_cases hrest : nodes = []
      · subst hrest
        simp only [FieldTree.gather, pure_bind, FieldTree.union_nil, bind_pure, selectionsBelow,
          List.flatMap_cons, List.flatMap_nil, List.append_nil]
      · -- two neighbouring walks are one walk through their selections together
        have hsplit : selectionsBelow (node :: nodes) = node.selections ++ selectionsBelow nodes :=
          List.flatMap_cons
        calc
          FieldTree.gather (fun node => collect context limit rule node.selections) (node :: nodes)
              = (do
                  let first ← collect context limit rule node.selections
                  let others ← collect context limit rule (selectionsBelow nodes)
                  return first.union others) := by
                rw [FieldTree.gather, ih hrest]
          _ = collect context limit rule (node.selections ++ selectionsBelow nodes) :=
                (collect_append context limit rule _ _).symm
          _ = collect context limit rule (selectionsBelow (node :: nodes)) := by
                rw [hsplit]

end ResolverInfo

/-! ## A scope without keys -/

theorem Selection.contribution_within_nil {context : Context}
    {walk : Rule → List Selection → Run FieldTree}
    (hwalk : walk (.within .nil) = walk .keep) (selection : Selection) :
    selection.contribution context walk (.within .nil) =
      selection.contribution context walk .keep := by
  unfold contribution
  congr 1
  funext admitted
  cases selection with
  | field name directives selectionSet =>
      cases name with
      | none => rfl
      | some name =>
          have hlookup : (Rule.within .nil).lookup context.timeout name =
              Rule.keep.lookup context.timeout name := rfl
          simp only [wanted, hlookup]
  | spread name directives =>
      cases name with
      | none => rfl
      | some name => simp only [wanted, hwalk]
  | inlineFragment directives selectionSet => simp only [wanted, hwalk]
  | _ => rfl

/-- A scope without keys keeps everything. -/
theorem collect_within_nil (context : Context) (limit : Nat) :
    collect context limit (.within .nil) = collect context limit .keep := by
  induction limit with
  | zero =>
      rfl
  | succ limit ih =>
      funext selections
      -- both walks gather, and by the induction their selections add the same
      have hstep : Selection.contribution context (collect context limit) (.within .nil) =
          Selection.contribution context (collect context limit) .keep :=
        funext (Selection.contribution_within_nil ih)
      rw [collect_succ, collect_succ, hstep]

/-- The branch at a path of options has distinct names if the tree has. -/
theorem FieldTree.Distinct.branchAt {tree branch : FieldTree} {path : Value} (h : tree.Distinct)
    (hbranch : tree.branchAt path = .ok branch) : branch.Distinct := by
  unfold FieldTree.branchAt at hbranch
  split at hbranch
  · split at hbranch
    · next dotted =>
        cases hbranch
        unfold FieldTree.subtree
        split
        · exact h
        · exact h.descend _
    · cases hbranch
  · cases hbranch
    exact h

/-! ## The tree of a request -/

namespace ResolverInfo

variable {settings : Settings} {info : ResolverInfo} {options : Value} {tree : FieldTree}

/-- The context in which a request walks. -/
def contextOf (settings : Settings) (info : ResolverInfo) (options : Options) : Context :=
  info.context settings.timeout options.withDirectives.truthy

/-- The context of a request that leaves the directives at their default. -/
def defaultContext (settings : Settings) (info : ResolverInfo) : Context :=
  info.context settings.timeout true

theorem contextOf_of_default {parsed : Options} (h : parsed.withDirectives = .bool true) :
    info.contextOf settings parsed = info.defaultContext settings := by
  rw [contextOf, h]
  rfl

theorem outcome_requestedTree_of_no_node (h : info.resolvedNodes = []) :
    (info.requestedTree settings options).outcome = .ok .nil := by
  rw [requestedTree, Run.outcome_bind_of_ok rfl, if_pos (by simp [h])]
  rfl

/-- Where the options make sense, a request is a walk through the selections of its nodes, from
which the wanted branch is taken. -/
theorem outcome_requestedTree {parsed : Options} {patterns : List String}
    (hnodes : info.resolvedNodes ≠ []) (hoptions : Options.ofValue options = .ok parsed)
    (hpatterns : Pattern.ofValue parsed.skip = .ok patterns) :
    (info.requestedTree settings options).outcome =
      (collect (info.contextOf settings parsed) settings.nestingLimit
        (.within (Pattern.scope patterns)) (selectionsBelow info.resolvedNodes)).outcome >>=
        fun tree => tree.branchAt parsed.path := by
  rw [requestedTree, Run.outcome_bind_of_ok rfl, if_neg (by simpa using hnodes),
    Run.outcome_bind_of_ok hoptions, Run.outcome_bind_of_ok hpatterns, Run.outcome_bind,
    collectNodes_eq_collect _ _ _ hnodes]
  rfl

/-- If there is something to walk, the options are read first, then the patterns; then comes the
walk, and the path last. -/
theorem outcome_requestedTree_step_by_step (hnodes : info.resolvedNodes ≠ []) :
    (info.requestedTree settings options).outcome = (do
      let parsed ← Options.ofValue options
      let patterns ← Pattern.ofValue parsed.skip
      let tree ← (collect (info.contextOf settings parsed) settings.nestingLimit
        (.within (Pattern.scope patterns)) (selectionsBelow info.resolvedNodes)).outcome
      tree.branchAt parsed.path) := by
  cases hparsed : Options.ofValue options with
  | error cause =>
      have hfails : (Run.ofExcept (Options.ofValue options)).outcome = .error cause := hparsed
      rw [requestedTree, Run.outcome_bind_of_ok rfl, if_neg (by simpa using hnodes),
        Run.bind_of_error hfails]
      rfl
  | ok parsed =>
      cases hpatterns : Pattern.ofValue parsed.skip with
      | error cause =>
          have hfails : (Run.ofExcept (Pattern.ofValue parsed.skip)).outcome = .error cause :=
            hpatterns
          rw [requestedTree, Run.outcome_bind_of_ok rfl, if_neg (by simpa using hnodes),
            Run.outcome_bind_of_ok hparsed, Run.bind_of_error hfails]
          simp only [Bind.bind, Except.bind, hpatterns]
      | ok patterns =>
          simpa only [Bind.bind, Except.bind, hpatterns] using
            outcome_requestedTree hnodes hparsed hpatterns

/-- A request that walks and has a tree could read its options and its patterns. -/
theorem exists_read_of_ok (hnodes : info.resolvedNodes ≠ [])
    (h : (info.requestedTree settings options).outcome = .ok tree) :
    ∃ parsed patterns, Options.ofValue options = .ok parsed ∧
      Pattern.ofValue parsed.skip = .ok patterns := by
  rw [requestedTree, Run.outcome_bind_of_ok rfl, if_neg (by simpa using hnodes)] at h
  rcases Run.bind_outcome_eq_ok_iff.1 h with ⟨parsed, hparsed, hread⟩
  rcases Run.bind_outcome_eq_ok_iff.1 hread with ⟨patterns, hpatterns, -⟩
  exact ⟨parsed, patterns, hparsed, hpatterns⟩

/-- The tree of a request is a branch of the tree of its walk. -/
theorem exists_walk_of_ok {parsed : Options} {patterns : List String}
    (hnodes : info.resolvedNodes ≠ []) (hoptions : Options.ofValue options = .ok parsed)
    (hpatterns : Pattern.ofValue parsed.skip = .ok patterns)
    (h : (info.requestedTree settings options).outcome = .ok tree) :
    ∃ whole, (collect (info.contextOf settings parsed) settings.nestingLimit
        (.within (Pattern.scope patterns)) (selectionsBelow info.resolvedNodes)).outcome =
          .ok whole ∧ whole.branchAt parsed.path = .ok tree := by
  rw [outcome_requestedTree hnodes hoptions hpatterns] at h
  cases hwalk : (collect (info.contextOf settings parsed) settings.nestingLimit
      (.within (Pattern.scope patterns)) (selectionsBelow info.resolvedNodes)).outcome with
  | error failure =>
      rw [hwalk] at h
      cases h
  | ok whole =>
      rw [hwalk] at h
      exact ⟨whole, rfl, h⟩

/-- Whatever the options are, the tree of a request has distinct names at every level. -/
theorem distinct_requestedTree (h : (info.requestedTree settings options).outcome = .ok tree) :
    tree.Distinct := by
  by_cases hnodes : info.resolvedNodes = []
  · rw [outcome_requestedTree_of_no_node hnodes] at h
    cases h
    trivial
  · rcases exists_read_of_ok hnodes h with ⟨parsed, patterns, hparsed, hpatterns⟩
    rcases exists_walk_of_ok hnodes hparsed hpatterns h with ⟨whole, hwhole, hbranch⟩
    exact (collect_distinct hwhole).branchAt hbranch

end ResolverInfo

end Lookahead
