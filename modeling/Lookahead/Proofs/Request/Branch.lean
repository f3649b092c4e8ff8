import Lookahead.Proofs.Request.Tree
import Lookahead.Proofs.Walk.Presence

/-!
# Request.Branch — looking ahead from a field and asking below it

The branch of a walk's tree at a path can be had in another way: take all occurrences of the path
and walk their selections, under the rule at the end of the path. So a resolver that looks ahead
to a field further down sees what the resolver of that field will see.

* `descend_collect` — the branch at a path is a walk of its own;
* `ResolverInfo.below` — the request of a field further down;
* `branch_eq_walk_below` — both ways agree, for walks and for requests.
-/

namespace Lookahead

variable {context : Context} {limit : Nat} {rule : Rule} {path : List String}
  {selections : List Selection} {node : Selection} {tree : FieldTree}

/-! ## The branch of a walk -/

theorem descend_collect (hpath : path ≠ [])
    (hkept : rule.below context.timeout path ≠ .exclude)
    (h : (collect context limit rule selections).outcome = .ok tree) :
    (collect context limit (rule.below context.timeout path)
      (selectionsBelow (occurrences context limit path selections))).outcome =
        .ok (tree.descend path) := by
  rcases get?_collect hpath hkept h with ⟨children, hchildren, hentry⟩
  have hdescend : tree.descend path = children := by
    rw [FieldTree.descend_eq_childrenOf hpath, hentry]
    exact childrenOf_entryOf (eq_nil_of_collect_nothing hchildren)
  rw [hdescend]
  exact hchildren

theorem descend_collect_of_excluded (hpath : path ≠ [])
    (hexcluded : rule.below context.timeout path = .exclude)
    (h : (collect context limit rule selections).outcome = .ok tree) :
    tree.descend path = .nil := by
  rw [FieldTree.descend_eq_childrenOf hpath, get?_collect_of_excluded hpath hexcluded h]
  rfl

/-! ## Nodes at a path -/

/-- An occurrence of a path is a field called by the last name of the path. -/
theorem Requested.eq_field (h : Requested context path selections node) :
    ∃ directives selectionSet, node = .field path.getLast? directives selectionSet := by
  induction h with
  | here hfound =>
      induction hfound with
      | field _ _ => exact ⟨_, _, rfl⟩
      | inlineFragment _ _ _ ih => exact ih
      | spread _ _ _ _ ih => exact ih
  | @deeper name path _ _ _ _ hbelow ih =>
      rcases ih with ⟨directives, selectionSet, hnode⟩
      refine ⟨directives, selectionSet, ?_⟩
      rw [hnode, List.getLast?_cons_of_ne_nil hbelow.path_ne_nil]

/-- Nodes without selections may be left aside. -/
theorem selectionsBelow_filter {p : Selection → Bool} {nodes : List Selection}
    (h : ∀ node ∈ nodes, p node = false → node.selections = []) :
    selectionsBelow (nodes.filter p) = selectionsBelow nodes := by
  induction nodes with
  | nil =>
      rfl
  | cons node nodes ih =>
      have hrest := ih fun other hmem => h other (List.mem_cons_of_mem _ hmem)
      unfold selectionsBelow at hrest ⊢
      cases hp : p node with
      | true =>
          rw [List.filter_cons_of_pos hp, List.flatMap_cons, List.flatMap_cons, hrest]
      | false =>
          have hnone := h node List.mem_cons_self hp
          rw [List.filter_cons_of_neg (by simp [hp]), List.flatMap_cons, hrest, hnone]
          rfl

/-! ## The request of a field further down -/

namespace ResolverInfo

variable {settings : Settings} {info : ResolverInfo}

/-- The nodes at a path below the field being resolved, in walk order. -/
def nodesAt (settings : Settings) (info : ResolverInfo) (path : List String) : List Selection :=
  occurrences (info.defaultContext settings) settings.nestingLimit path
    (selectionsBelow info.resolvedNodes)

/-- The request of the field at the end of a path, with the same fragments and variables. -/
def below (settings : Settings) (info : ResolverInfo) (path : List String) : ResolverInfo where
  fieldName := .text (path.getLastD "")
  fieldNodes := .listed (info.nodesAt settings path)
  legacyNodes := .missing
  fragments := info.fragments
  variableValues := info.variableValues

/-- Of the nodes further down, those without selections are of no use to a request. They add
nothing to a walk either. -/
theorem selectionsBelow_resolvedNodes_below (hpath : path ≠ []) :
    selectionsBelow (info.below settings path).resolvedNodes =
      selectionsBelow (info.nodesAt settings path) := by
  refine selectionsBelow_filter ?_
  intro node hmem hresolves
  rcases (requested_of_mem hmem).eq_field with ⟨directives, selectionSet, hnode⟩
  have hlast : path.getLast? = some (path.getLastD "") := by
    rw [List.getLastD_eq_getLast?, List.getLast?_eq_some_getLast hpath]
    rfl
  rw [hlast] at hnode
  subst hnode
  -- the name is the right one, so it can only be for want of selections that it does not resolve
  have hempty : selectionSet.toList.isEmpty = true := by
    simpa only [Selection.resolves, below, beq_self_eq_true, Bool.true_and,
      Bool.not_eq_false'] using hresolves
  exact List.isEmpty_iff.1 hempty

/-- Without patterns, and with directives, only the path of a request is left to see to. -/
theorem outcome_requestedTree_of_defaults {options : Value} {parsed : Options}
    (hnodes : info.resolvedNodes ≠ []) (hoptions : Options.ofValue options = .ok parsed)
    (hskip : parsed.skip = .array []) (hdirectives : parsed.withDirectives = .bool true) :
    (info.requestedTree settings options).outcome =
      (collect (info.defaultContext settings) settings.nestingLimit .keep
        (selectionsBelow info.resolvedNodes)).outcome >>=
          fun tree => tree.branchAt parsed.path := by
  have hpatterns : Pattern.ofValue parsed.skip = .ok [] := by
    rw [hskip]
    rfl
  calc
    (info.requestedTree settings options).outcome
        = (collect (info.contextOf settings parsed) settings.nestingLimit
            (.within (Pattern.scope [])) (selectionsBelow info.resolvedNodes)).outcome >>=
              fun tree => tree.branchAt parsed.path :=
          outcome_requestedTree hnodes hoptions hpatterns
    _ = (collect (info.defaultContext settings) settings.nestingLimit (.within .nil)
            (selectionsBelow info.resolvedNodes)).outcome >>=
              fun tree => tree.branchAt parsed.path := by
          rw [contextOf_of_default hdirectives, Pattern.scope_nil]
    _ = (collect (info.defaultContext settings) settings.nestingLimit .keep
            (selectionsBelow info.resolvedNodes)).outcome >>=
              fun tree => tree.branchAt parsed.path := by
          rw [collect_within_nil]

/-- The options that ask for the branch at a path. -/
def branchOptions (path : String) : Value :=
  .object [(Options.pathKey, .text path)]

theorem outcome_requestedTree_null (settings : Settings) (hnodes : info.resolvedNodes ≠ []) :
    (info.requestedTree settings .null).outcome =
      (collect (info.defaultContext settings) settings.nestingLimit .keep
        (selectionsBelow info.resolvedNodes)).outcome := by
  have hparsed : Options.ofValue .null = .ok (Options.ofFields []) := rfl
  rw [outcome_requestedTree_of_defaults hnodes hparsed rfl rfl]
  exact bind_pure _

/-- The options of a record, but with another path. -/
def narrowed (path : String) (fields : List (String × Value)) : Value :=
  .object ((Options.pathKey, .text path) :: fields)

/-- A request with a path in front of its options has the branch of the tree at the path. -/
theorem outcome_requestedTree_narrowed {path : String} {fields : List (String × Value)}
    {tree : FieldTree} (hnodes : info.resolvedNodes ≠ []) (hpath : path ≠ "")
    (hwhole : (Options.ofFields fields).path.truthy = false)
    (h : (info.requestedTree settings (.object fields)).outcome = .ok tree) :
    (info.requestedTree settings (narrowed path fields)).outcome = .ok (tree.subtree path) := by
  have hparsed : Options.ofValue (.object fields) = .ok (Options.ofFields fields) := by
    cases fields <;> rfl
  -- the path is the only option that is another one
  have hnarrowed : Options.ofValue (narrowed path fields) =
      .ok { Options.ofFields fields with path := .text path } := rfl
  rcases exists_read_of_ok hnodes h with ⟨parsed, patterns, hread, hpatterns⟩
  rw [hparsed] at hread
  cases hread
  rcases exists_walk_of_ok hnodes hparsed hpatterns h with ⟨whole, hwalk, hbranch⟩
  have hsame : whole = tree := by
    simpa [FieldTree.branchAt, hwhole] using hbranch
  subst hsame
  calc
    (info.requestedTree settings (narrowed path fields)).outcome
        = (collect (info.contextOf settings (Options.ofFields fields)) settings.nestingLimit
            (.within (Pattern.scope patterns)) (selectionsBelow info.resolvedNodes)).outcome >>=
              fun tree => tree.branchAt (.text path) :=
          outcome_requestedTree hnodes hnarrowed hpatterns
    _ = whole.branchAt (.text path) := by
          rw [hwalk]
          rfl
    _ = .ok (whole.subtree path) := by
          simp [FieldTree.branchAt, Value.truthy, hpath]

theorem outcome_requestedTree_branchOptions {path : String} {tree : FieldTree}
    (hnodes : info.resolvedNodes ≠ []) (hpath : path ≠ "")
    (h : (info.requestedTree settings .null).outcome = .ok tree) :
    (info.requestedTree settings (branchOptions path)).outcome = .ok (tree.subtree path) := by
  -- absent options are those of an empty record
  have hempty : (info.requestedTree settings (.object [])).outcome = .ok tree := h
  exact outcome_requestedTree_narrowed hnodes hpath rfl hempty

theorem nodesAt_of_no_node (path : List String) (h : info.resolvedNodes = []) :
    info.nodesAt settings path = [] := by
  rw [nodesAt, h]
  exact occurrences_nil _ _ path

/-- The nodes at a path are exactly those that are requested there. -/
theorem mem_nodesAt_iff (h : (info.requestedTree settings .null).outcome = .ok tree) :
    node ∈ info.nodesAt settings path ↔
      Requested (info.defaultContext settings) path (selectionsBelow info.resolvedNodes) node := by
  by_cases hnodes : info.resolvedNodes = []
  · rw [nodesAt_of_no_node path hnodes, hnodes]
    exact ⟨fun hmem => (List.not_mem_nil hmem).elim,
      fun hrequested => (not_requested_nil path node hrequested).elim⟩
  · rw [outcome_requestedTree_null settings hnodes] at h
    exact mem_occurrences_iff (by simp) h

/-- The request further down has the branch of the tree as its tree. -/
theorem outcome_requestedTree_below (hpath : path ≠ [])
    (h : (info.requestedTree settings .null).outcome = .ok tree) :
    ((info.below settings path).requestedTree settings .null).outcome =
      .ok (tree.descend path) := by
  by_cases hnodes : info.resolvedNodes = []
  · have hchild : (info.below settings path).resolvedNodes = [] := by
      have hnone : info.nodesAt settings path = [] := nodesAt_of_no_node path hnodes
      simp [resolvedNodes, ResolverInfo.nodes, nodes?, below, hnone]
    rw [outcome_requestedTree_of_no_node hnodes] at h
    cases h
    rw [outcome_requestedTree_of_no_node hchild, FieldTree.descend_nil path hpath]
  · rw [outcome_requestedTree_null settings hnodes] at h
    -- without patterns no path is excluded, so the branch is a walk of its own
    have hbranch := descend_collect hpath (by simp) h
    rw [Rule.below_keep] at hbranch
    have hbelow : selectionsBelow (info.below settings path).resolvedNodes =
        selectionsBelow (info.nodesAt settings path) :=
      selectionsBelow_resolvedNodes_below hpath
    by_cases hchild : (info.below settings path).resolvedNodes = []
    · -- no node further down is of use, so there is nothing below them
      rw [hchild] at hbelow
      rw [outcome_requestedTree_of_no_node hchild, eq_nil_of_collect_nothing hbranch hbelow.symm]
    · calc
        ((info.below settings path).requestedTree settings .null).outcome
            = (collect (info.defaultContext settings) settings.nestingLimit .keep
                (selectionsBelow (info.below settings path).resolvedNodes)).outcome :=
              outcome_requestedTree_null settings hchild
        _ = (collect (info.defaultContext settings) settings.nestingLimit .keep
                (selectionsBelow (info.nodesAt settings path))).outcome := by
              rw [hbelow]
        _ = .ok (tree.descend path) := hbranch

end ResolverInfo

/-! ## Both ways -/

/-- The branch of a walk's tree at a path is empty if a name on the way is excluded, and otherwise
the tree of the walk below all nodes reached at the path, under the rule the path leads to. So the
branch of a request without options is the tree of the request at the end of the path. -/
theorem branch_eq_walk_below :
    (∀ (context : Context) (limit : Nat) (rule : Rule) (selections : List Selection)
        (tree : FieldTree) (path : String), path ≠ "" →
      (collect context limit rule selections).outcome = .ok tree →
        (rule.below context.timeout (Dotted.segments path) = .exclude →
          tree.subtree path = .nil) ∧
        (rule.below context.timeout (Dotted.segments path) ≠ .exclude →
          (∀ node, node ∈ occurrences context limit (Dotted.segments path) selections ↔
            Reached context rule selections (Dotted.segments path) node) ∧
          (collect context limit (rule.below context.timeout (Dotted.segments path))
            (selectionsBelow (occurrences context limit (Dotted.segments path)
              selections))).outcome = .ok (tree.subtree path))) ∧
    ∀ (settings : Settings) (info : ResolverInfo) (tree : FieldTree) (path : String), path ≠ "" →
      (info.requestedTree settings .null).outcome = .ok tree →
        (∀ node, node ∈ info.nodesAt settings (Dotted.segments path) ↔
          Requested (info.defaultContext settings) (Dotted.segments path)
            (selectionsBelow info.resolvedNodes) node) ∧
        ∃ branch,
          (info.requestedTree settings (ResolverInfo.branchOptions path)).outcome = .ok branch ∧
          ((info.below settings (Dotted.segments path)).requestedTree settings .null).outcome =
            .ok branch := by
  refine ⟨?_, ?_⟩
  · intro context limit rule selections tree path hpath h
    have hsegments := Dotted.segments_ne_nil path
    rw [FieldTree.subtree_of_ne hpath]
    refine ⟨fun hexcluded => descend_collect_of_excluded hsegments hexcluded h, ?_⟩
    intro hkept
    refine ⟨fun node => ?_, descend_collect hsegments hkept h⟩
    rw [mem_occurrences_iff hkept h]
    exact ⟨fun hrequested => ⟨hrequested, hkept⟩, fun hreached => hreached.requested⟩
  · intro settings info tree path hpath h
    refine ⟨fun node => ResolverInfo.mem_nodesAt_iff h, tree.subtree path, ?_, ?_⟩
    · by_cases hnodes : info.resolvedNodes = []
      · rw [ResolverInfo.outcome_requestedTree_of_no_node hnodes] at h ⊢
        cases h
        rw [FieldTree.subtree_of_ne hpath, FieldTree.descend_nil _ (Dotted.segments_ne_nil path)]
      · exact ResolverInfo.outcome_requestedTree_branchOptions hnodes hpath h
    · rw [FieldTree.subtree_of_ne hpath]
      exact ResolverInfo.outcome_requestedTree_below (Dotted.segments_ne_nil path) h

/-- A field of which the sample query is what it asks for. -/
def sampleInfo : ResolverInfo where
  fieldName := .text "root"
  fieldNodes := .listed [.field (some "root") .missing (.listed sampleSelections)]
  legacyNodes := .missing
  fragments := sampleContext.fragments
  variableValues := sampleContext.variableValues

/-- The tree of the sample query. -/
def sampleTree : FieldTree :=
  .branch "a" (.branch "b" (.leaf "x" .nil) .nil) (.leaf "d" .nil)

/-- The rule of the patterns ends in the exclusion of `x` at the path `a.b`, where the sample query
has one occurrence; without them the request at `a.b` has `x`. -/
theorem sample_branch_eq_walk_below :
    (collect sampleContext 4 (.within (.exclude "x" .nil))
      (selectionsBelow (occurrences sampleContext 4 ["a", "b"] sampleSelections))).outcome =
        .ok .nil ∧
      ∃ branch,
        (sampleInfo.requestedTree {} (ResolverInfo.branchOptions "a.b")).outcome = .ok branch ∧
        ((sampleInfo.below {} ["a", "b"]).requestedTree {} .null).outcome = .ok branch := by
  have hwalk : (collect sampleContext 4 sampleRule sampleSelections).outcome =
      .ok (.branch "a" (.branch "b" .nil .nil) .nil) := rfl
  have hrequest : (sampleInfo.requestedTree {} .null).outcome =
      .ok (.branch "a" (.branch "b" (.leaf "x" .nil) .nil) (.leaf "d" .nil)) := rfl
  have hpath : "a.b" ≠ "" := by decide
  have hkept : sampleRule.below sampleContext.timeout (Dotted.segments "a.b") ≠ .exclude := by
    decide
  have hbelow := (branch_eq_walk_below.1 _ _ _ _ _ "a.b" hpath hwalk).2 hkept
  exact ⟨hbelow.2, (branch_eq_walk_below.2 _ _ _ "a.b" hpath hrequest).2⟩

end Lookahead
