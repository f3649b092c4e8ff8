import Lookahead.Proofs.Exclusion.Growth
import Lookahead.Proofs.Request.Labels
import Lookahead.Proofs.Text.Expressions
import Lookahead.Proofs.Walk.Presence

/-!
# Request.Growth — requests with a further pattern

Two requests that differ in one pattern walk the same selections, so they reach the same
occurrences and differ only in what their rules exclude. A request with a further pattern
therefore has no path that the request without it lacks, as long as the pattern loses nothing of
what was excluded; where it does lose something, a query that asks for nothing but the path in
question shows it.

* `isSome_get?_of_noStricter` — stricter rules leave fewer paths;
* `chainOf` — a query for one path;
* `fewer_paths_of_more_patterns` — when a further pattern brings no path back.
-/

namespace Lookahead

variable {context : Context} {limit : Nat} {path : List String} {selections : List Selection}
  {node : Selection}

/-! ## Fewer paths -/

theorem Reached.of_noStricter {scope stricter : Scope}
    (h : Rule.NoStricter context.timeout (.within scope) (.within stricter))
    (hreached : Reached context (.within stricter) selections path node) :
    Reached context (.within scope) selections path node where
  requested := hreached.requested
  kept := by
    intro hexcluded
    have hexcludes := h path (Rule.within_excludes_iff.2 hexcluded)
    exact hreached.kept (Rule.within_excludes_iff.1 hexcludes)

theorem isSome_get?_of_noStricter {scope stricter : Scope} {before after : FieldTree}
    (h : Rule.NoStricter context.timeout (.within scope) (.within stricter))
    (hbefore : (collect context limit (.within scope) selections).outcome = .ok before)
    (hafter : (collect context limit (.within stricter) selections).outcome = .ok after)
    (hsome : (after.get? path).isSome) : (before.get? path).isSome := by
  rcases (isSome_get?_collect_iff hafter path).1 hsome with ⟨node, hreached⟩
  exact (isSome_get?_collect_iff hbefore path).2 ⟨node, hreached.of_noStricter h⟩

/-! ## A query for one path -/

/-- The selections of `{ a { b { … } } }`. -/
def chainOf : List String → List Selection
  | [] => []
  | name :: path => [.field (some name) .missing (.listed (chainOf path))]

theorem admits_of_missing (context : Context) (name : Option String)
    (selectionSet : SelectionSet) :
    context.admits (.field name .missing selectionSet) = .ok true := by
  unfold Context.admits
  split <;> rfl

theorem requested_chainOf (context : Context) (hpath : path ≠ []) :
    ∃ node, Requested context path (chainOf path) node := by
  induction path with
  | nil =>
      exact absurd rfl hpath
  | cons name path ih =>
      have hfound : FoundField context name (chainOf (name :: path))
          (.field (some name) .missing (.listed (chainOf path))) :=
        .field List.mem_cons_self (admits_of_missing context _ _)
      by_cases hend : path = []
      · subst hend
        exact ⟨_, .here hfound⟩
      · rcases ih hend with ⟨node, hbelow⟩
        exact ⟨node, .deeper hfound hbelow⟩

/-- A walk along one path ends well if it may go as deep as the path is long. -/
theorem collect_chainOf_isOk (context : Context) (rule : Rule) (path : List String) :
    ∃ tree, (collect context (path.length + 1) rule (chainOf path)).outcome = .ok tree := by
  induction path generalizing rule with
  | nil =>
      exact ⟨.nil, rfl⟩
  | cons name path ih =>
      rw [collect_succ]
      refine FieldTree.gather_isOk_iff.2 fun selection hmem => ?_
      obtain rfl := List.mem_singleton.1 hmem
      have hadmits := admits_of_missing context (some name) (.listed (chainOf path))
      by_cases hname : rule.verdict context.timeout name = .exclude
      · exact ⟨.nil, (Selection.Contributes.excluded hadmits hname).outcome⟩
      · by_cases hend : chainOf path = []
        · exact ⟨.leaf name .nil, (Selection.Contributes.leaf hadmits hname hend).outcome⟩
        · rcases ih (rule.verdict context.timeout name) with ⟨children, hchildren⟩
          exact ⟨.branch name children .nil,
            (Selection.Contributes.branch hadmits hname hend hchildren).outcome⟩

/-- The tree of a query for one path has the path exactly if it is not excluded. -/
theorem isSome_get?_chainOf_iff {scope : Scope} {tree : FieldTree} (hpath : path ≠ [])
    (h : (collect context limit (.within scope) (chainOf path)).outcome = .ok tree) :
    (tree.get? path).isSome ↔ ¬ (Rule.within scope).Excludes context.timeout path := by
  rw [isSome_get?_collect_iff h, Rule.within_excludes_iff]
  constructor
  · rintro ⟨node, hreached⟩
    exact hreached.kept
  · intro hkept
    rcases requested_chainOf context hpath with ⟨node, hrequested⟩
    exact ⟨node, hrequested, hkept⟩

namespace ResolverInfo

variable {settings : Settings} {info : ResolverInfo} {patterns : List String}

/-- The request of a field whose selections ask for one path. -/
def ofChain (path : List String) : ResolverInfo where
  fieldName := .text "root"
  fieldNodes := .listed [.field (some "root") .missing (.listed (chainOf path))]
  legacyNodes := .missing
  fragments := .table []
  variableValues := .object []

theorem resolvedNodes_ofChain (hpath : path ≠ []) :
    (ofChain path).resolvedNodes = [.field (some "root") .missing (.listed (chainOf path))] := by
  cases path with
  | nil => exact absurd rfl hpath
  | cons name path => rfl

theorem outcome_requestedTree_ofChain (hpath : path ≠ []) :
    ((ofChain path).requestedTree settings (skipping patterns)).outcome =
      (collect ((ofChain path).defaultContext settings) settings.nestingLimit
        (.within (Pattern.scope patterns)) (chainOf path)).outcome := by
  have hnodes := resolvedNodes_ofChain hpath
  have hbelow : selectionsBelow (ofChain path).resolvedNodes = chainOf path := by
    rw [hnodes]
    exact List.append_nil _
  rw [outcome_requestedTree_skipping (by simp [hnodes]), hbelow]

/-- Where a further pattern loses nothing, it brings no path back. -/
theorem isSome_get?_requestedTree_of_losesNothing {pattern : String} {before after : FieldTree}
    (hlost : Pattern.LosesNothing settings.timeout patterns pattern)
    (hbefore : (info.requestedTree settings (skipping patterns)).outcome = .ok before)
    (hafter : (info.requestedTree settings (skipping (patterns ++ [pattern]))).outcome = .ok after)
    (hsome : (after.get? path).isSome) : (before.get? path).isSome := by
  by_cases hnodes : info.resolvedNodes = []
  · rw [outcome_requestedTree_of_no_node hnodes] at hbefore hafter
    cases hbefore
    cases hafter
    exact hsome
  · rw [outcome_requestedTree_skipping hnodes] at hbefore hafter
    exact isSome_get?_of_noStricter (Pattern.noStricter_scope_iff.2 hlost) hbefore hafter hsome

/-- Where it does lose something, it brings the path back that is lost. -/
theorem exists_path_of_loss (settings : Settings) {pattern : String}
    (hlost : ¬ Pattern.LosesNothing settings.timeout patterns pattern) :
    ∃ (limit : Nat) (info : ResolverInfo) (before after : FieldTree) (path : List String),
      (info.requestedTree { settings with nestingLimit := limit } (skipping patterns)).outcome =
        .ok before ∧
      (info.requestedTree { settings with nestingLimit := limit }
        (skipping (patterns ++ [pattern]))).outcome = .ok after ∧
      (after.get? path).isSome ∧ before.get? path = none := by
  -- some path is excluded before and kept afterwards, and one query suffices to see it
  rw [← Pattern.noStricter_scope_iff] at hlost
  rcases Classical.not_forall.1 hlost with ⟨path, hpath⟩
  rcases Classical.not_imp.1 hpath with ⟨hexcluded, hkept⟩
  have hne : path ≠ [] := by
    rintro rfl
    exact Rule.not_within_excludes_nil hexcluded
  let info := ofChain path
  let deep : Settings := { settings with nestingLimit := path.length + 1 }
  obtain ⟨before, hbefore⟩ := collect_chainOf_isOk (info.defaultContext deep)
    (.within (Pattern.scope patterns)) path
  obtain ⟨after, hafter⟩ := collect_chainOf_isOk (info.defaultContext deep)
    (.within (Pattern.scope (patterns ++ [pattern]))) path
  refine ⟨path.length + 1, info, before, after, path, ?_, ?_, ?_, ?_⟩
  · rw [outcome_requestedTree_ofChain hne]
    exact hbefore
  · rw [outcome_requestedTree_ofChain hne]
    exact hafter
  · exact (isSome_get?_chainOf_iff hne hafter).2 hkept
  · have hnone := mt (isSome_get?_chainOf_iff hne hbefore).1 (not_not_intro hexcluded)
    simpa using hnone

end ResolverInfo

/-! ## A further pattern -/

/-- A further pattern adds no path to a projection if it loses nothing of what the patterns before
it exclude, which it never does where those have no stars. And only if it loses nothing: otherwise
the tree of some request has a path with it that it does not have without it. -/
theorem fewer_paths_of_more_patterns (settings : Settings) (patterns : List String)
    (pattern : String) :
    (Pattern.LosesNothing settings.timeout patterns pattern →
      ∀ (limit : Nat) (info : ResolverInfo) (before after : List Value),
        (info.projection { settings with nestingLimit := limit }
          (ResolverInfo.skipping patterns)).outcome = .ok before →
        (info.projection { settings with nestingLimit := limit }
          (ResolverInfo.skipping (patterns ++ [pattern]))).outcome = .ok after →
        after ⊆ before) ∧
    ((∀ other ∈ patterns, ∀ key ∈ Pattern.path other, Wildcard.isPattern key = false) →
      Pattern.LosesNothing settings.timeout patterns pattern) ∧
    (¬ Pattern.LosesNothing settings.timeout patterns pattern →
      ∃ (limit : Nat) (info : ResolverInfo) (before after : FieldTree) (path : List String),
        (info.requestedTree { settings with nestingLimit := limit }
          (ResolverInfo.skipping patterns)).outcome = .ok before ∧
        (info.requestedTree { settings with nestingLimit := limit }
          (ResolverInfo.skipping (patterns ++ [pattern]))).outcome = .ok after ∧
        (after.get? path).isSome ∧ before.get? path = none) := by
  refine ⟨?_, ?_, ResolverInfo.exists_path_of_loss settings⟩
  · intro hlost limit info before after hbefore hafter label hlabel
    -- how deep the walk may go does not matter to the search
    have hsame : Pattern.LosesNothing { settings with nestingLimit := limit : Settings }.timeout
        patterns pattern := hlost
    rcases ResolverInfo.projection_skipping_ok_iff.1 hbefore with ⟨fuller, hfuller, rfl⟩
    rcases ResolverInfo.projection_skipping_ok_iff.1 hafter with ⟨pruned, hpruned, rfl⟩
    have hdistinct := ResolverInfo.distinct_requestedTree_skipping hfuller
    have hdistinctPruned := ResolverInfo.distinct_requestedTree_skipping hpruned
    -- a label of the second projection is a path of its tree, and so of the first tree
    rcases (Projection.mem_pathLabels_iff hdistinctPruned).1 hlabel with ⟨path, hsome, rfl⟩
    have hpath := ResolverInfo.isSome_get?_requestedTree_of_losesNothing hsame hfuller hpruned hsome
    exact (Projection.mem_pathLabels_iff hdistinct).2 ⟨path, hpath, rfl⟩
  · intro hplain
    exact (Pattern.plain_scope hplain).losesNothing (Pattern.path pattern)

/-! ### A sample request -/

/-- The field `root` of the query `{ root { users { name email } } }`. -/
def usersInfo : ResolverInfo where
  fieldName := .text "root"
  fieldNodes := .listed [.field (some "root") .missing (.listed
    [.field (some "users") .missing (.listed
      [.field (some "name") .missing .missing, .field (some "email") .missing .missing])])]
  legacyNodes := .missing
  fragments := .table []
  variableValues := .null

theorem losesNothing_of_same_scope :
    Pattern.LosesNothing .unset ["*s.email"] "users.email" := by
  intro name htakes
  have hname : name = "users" := by
    rcases htakes with hname | ⟨hpattern, _⟩
    · exact hname
    · exact absurd hpattern (by decide)
  subst hname
  exact Rule.NoStricter.refl (.within (.exclude "email" .nil))

theorem not_losesNothing_of_excluded :
    ¬ Pattern.LosesNothing .unset ["user*"] "users.email" := by
  intro hlost
  have husers : Rule.NoStricter .unset .exclude (.within (.exclude "email" .nil)) :=
    hlost "users" (.inl rfl)
  exact absurd husers.eq_exclude (by decide)

/-- The key `users` takes the users over from `*s`, under which their addresses are excluded too.
From `user*` it would take them over with all that is below them. -/
theorem sample_fewer_paths :
    (∃ before after,
      (usersInfo.projection {} (ResolverInfo.skipping ["*s.email"])).outcome = .ok before ∧
      (usersInfo.projection {} (ResolverInfo.skipping ["*s.email", "users.email"])).outcome =
        .ok after ∧ after ⊆ before) ∧
    Pattern.LosesNothing .unset ["users.email"] "*s.name" ∧
    ∃ (limit : Nat) (info : ResolverInfo) (before after : FieldTree) (path : List String),
      (info.requestedTree { nestingLimit := limit } (ResolverInfo.skipping ["user*"])).outcome =
        .ok before ∧
      (info.requestedTree { nestingLimit := limit }
        (ResolverInfo.skipping ["user*", "users.email"])).outcome = .ok after ∧
      (after.get? path).isSome ∧ before.get? path = none := by
  have hbefore : (usersInfo.requestedTree {} (ResolverInfo.skipping ["*s.email"])).outcome =
      .ok (.branch "users" (.leaf "name" .nil) .nil) := rfl
  have hafter :
      (usersInfo.requestedTree {} (ResolverInfo.skipping ["*s.email", "users.email"])).outcome =
        .ok (.branch "users" (.leaf "name" .nil) .nil) := rfl
  have hlabels := ResolverInfo.outcome_projection_skipping hbefore
  have hfewer := ResolverInfo.outcome_projection_skipping hafter
  refine ⟨⟨_, _, hlabels, hfewer, ?_⟩, ?_, ?_⟩
  · exact (fewer_paths_of_more_patterns {} ["*s.email"] "users.email").1
      losesNothing_of_same_scope _ usersInfo _ _ hlabels hfewer
  · exact (fewer_paths_of_more_patterns {} ["users.email"] "*s.name").2.1 (by decide)
  · exact (fewer_paths_of_more_patterns {} ["user*"] "users.email").2.2
      not_losesNothing_of_excluded

/-- Patterns that lose something may add paths. `user*` excludes all users, but as soon as there is
a key for the users themselves, it decides alone. -/
theorem more_patterns_may_add_paths :
    ¬ ∀ (settings : Settings) (info : ResolverInfo) (patterns : List String) (pattern : String)
        (before after : List Value),
      settings.timeout.Prompt →
      (info.projection settings (ResolverInfo.skipping patterns)).outcome = .ok before →
      (info.projection settings (ResolverInfo.skipping (patterns ++ [pattern]))).outcome =
        .ok after →
      after ⊆ before := by
  intro hclaim
  have hbefore : (usersInfo.requestedTree {} (ResolverInfo.skipping ["user*"])).outcome =
      .ok .nil := rfl
  have hafter :
      (usersInfo.requestedTree {} (ResolverInfo.skipping ["user*", "users.email"])).outcome =
        .ok (.branch "users" (.leaf "name" .nil) .nil) := rfl
  -- with both patterns the users are back, and without the second one there is nothing at all
  have hsubset := hclaim {} usersInfo ["user*"] "users.email" _ _ Timeout.prompt_unset
    (ResolverInfo.outcome_projection_skipping hbefore)
    (ResolverInfo.outcome_projection_skipping hafter)
  have husers := (Projection.mem_pathLabels_iff
    (ResolverInfo.distinct_requestedTree_skipping hafter)).2 ⟨["users"], rfl, rfl⟩
  have hnil : FieldTree.nil.Distinct := trivial
  rcases (Projection.mem_pathLabels_iff hnil).1 (hsubset husers) with ⟨path, hsome, _⟩
  rw [FieldTree.nil_get?] at hsome
  cases hsome

end Lookahead
