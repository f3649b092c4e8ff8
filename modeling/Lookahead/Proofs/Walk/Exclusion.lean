import Lookahead.FieldTree.Branch
import Lookahead.Proofs.Exclusion.Exact
import Lookahead.Proofs.Exclusion.Relative
import Lookahead.Proofs.FieldTree.Places
import Lookahead.Proofs.Walk.Prune

/-!
# Walk.Exclusion — patterns and the paths of a walk's tree

A walk under the scope of some patterns has the tree of the walk without rules, pruned. So what is
known of the paths that patterns exclude is known of the places of the tree: a path that begins
with a pattern is never there, and where no pattern has stars all other paths are.

* `collect_scope_places` — the places that are left under patterns;
* `exact_patterns_leave_out` — patterns cannot be undone, and without stars leave out no more;
* `patterns_relative_to_branch` — patterns mean below a path what they mean at the root.
-/

namespace Lookahead

variable {context : Context} {limit : Nat} {selections : List Selection} {tree : FieldTree}
  {patterns : List String}

/-- Under patterns those places are left on whose paths no name is excluded. -/
theorem collect_scope_places (patterns : List String)
    (h : (collect context limit .keep selections).outcome = .ok tree) :
    ∃ pruned,
      (collect context limit (.within (Pattern.scope patterns)) selections).outcome = .ok pruned ∧
      pruned.places = tree.places.filter fun place =>
        (Rule.within (Pattern.scope patterns)).below context.timeout place.path ≠ .exclude := by
  have hpruned := collect_prune (.within (Pattern.scope patterns)) h
  exact ⟨_, hpruned, FieldTree.places_prune tree⟩

/-- A pattern leaves out every path that begins with it, whatever other patterns there are and
wherever it stands among them. If no pattern has stars, they leave out nothing else: all other
paths stay in their order, and their ends stay what they are. -/
theorem exact_patterns_leave_out (patterns : List String)
    (h : (collect context limit .keep selections).outcome = .ok tree) :
    ∃ pruned,
      (collect context limit (.within (Pattern.scope patterns)) selections).outcome = .ok pruned ∧
      (∀ pattern ∈ patterns, pattern ≠ "" → ∀ path, Pattern.path pattern <+: path →
        pruned.get? path = none) ∧
      ((∀ pattern ∈ patterns, pattern ≠ "" →
          ∀ key ∈ Pattern.path pattern, Wildcard.isPattern key = false) →
        pruned.places = tree.places.filter fun place =>
          ¬ ∃ pattern ∈ patterns, pattern ≠ "" ∧ Pattern.path pattern <+: place.path) := by
  rcases collect_scope_places patterns h with ⟨pruned, hpruned, hplaces⟩
  refine ⟨pruned, hpruned, ?_, ?_⟩
  · intro pattern hmem hne path hbegins
    have hexcluded : (Rule.within (Pattern.scope patterns)).below context.timeout path = .exclude :=
      Pattern.below_scope_of_prefix hmem hne hbegins
    have hpath : path ≠ [] := by
      rintro rfl
      exact Pattern.path_ne_nil pattern (List.prefix_nil.1 hbegins)
    exact get?_collect_of_excluded hpath hexcluded hpruned
  · intro hplain
    have hkept : ∀ path,
        (Rule.within (Pattern.scope patterns)).below context.timeout path ≠ .exclude ↔
          ¬ ∃ pattern ∈ patterns, pattern ≠ "" ∧ Pattern.path pattern <+: path := by
      intro path
      exact not_congr (Pattern.below_scope_iff_of_plain hplain)
    simp only [hplaces, hkept]

/-- `a.b.x` holds beside a pattern with stars that would take `b` over, and where `a.b.*` and `d`
stand alone, `a` is what is left of the sample query. -/
theorem sample_exact_patterns :
    (∃ pruned,
      (collect sampleContext 4 (.within (Pattern.scope ["a.b.x", "a.*.y", "*"]))
        sampleSelections).outcome = .ok pruned ∧
      pruned.get? ["a", "b", "x"] = none) ∧
    ∃ pruned,
      (collect sampleContext 4 (.within (Pattern.scope ["a.b.*", "", "d"]))
        sampleSelections).outcome = .ok pruned ∧
      pruned.places = [⟨["a"], true⟩] := by
  have hwalk : (collect sampleContext 4 .keep sampleSelections).outcome =
      .ok (.branch "a" (.branch "b" (.leaf "x" .nil) .nil) (.leaf "d" .nil)) := rfl
  constructor
  · rcases exact_patterns_leave_out ["a.b.x", "a.*.y", "*"] hwalk with ⟨pruned, hpruned, habsent, _⟩
    exact ⟨pruned, hpruned, habsent "a.b.x" (by decide) (by decide) _ (by decide)⟩
  · rcases exact_patterns_leave_out ["a.b.*", "", "d"] hwalk with ⟨pruned, hpruned, _, hplaces⟩
    refine ⟨pruned, hpruned, ?_⟩
    have hplain : ∀ pattern ∈ ["a.b.*", "", "d"], pattern ≠ "" →
        ∀ key ∈ Pattern.path pattern, Wildcard.isPattern key = false := by
      decide
    rw [hplaces hplain]
    decide

/-! ## Patterns below a path -/

/-- Patterns with a path in front of them leave out of the branch at the path what they leave out of
it by themselves, so a caller may write them from the root or from the branch. -/
theorem patterns_relative_to_branch {path : String} (hpath : path ≠ "")
    (hpatterns : ∀ pattern ∈ patterns, pattern ≠ "" ∧ pattern ≠ "*")
    (h : (collect context limit .keep selections).outcome = .ok tree) :
    ∃ pruned,
      (collect context limit
        (.within (Pattern.scope (patterns.map fun pattern => path ++ "." ++ pattern)))
        selections).outcome = .ok pruned ∧
      pruned.subtree path =
        (tree.subtree path).prune context.timeout (.within (Pattern.scope patterns)) := by
  refine ⟨_, collect_prune _ h, ?_⟩
  by_cases hnone : patterns = []
  · simp [hnone]
  · have hbelow : (Rule.within (Pattern.scope (patterns.map fun pattern =>
        path ++ "." ++ pattern))).below context.timeout (Dotted.segments path) =
          .within (Pattern.scope patterns) :=
      Pattern.below_scope_below_path hnone hpatterns
    -- no key on the way to the branch excludes anything
    have hkept : (Rule.within (Pattern.scope (patterns.map fun pattern =>
        path ++ "." ++ pattern))).below context.timeout (Dotted.segments path) ≠ .exclude := by
      simp [hbelow]
    have hdescend := FieldTree.descend_prune (Dotted.segments_ne_nil path) hkept tree
    simpa only [hbelow, FieldTree.subtree_of_ne hpath] using hdescend

/-- Below `a` of the sample query, `a.b.*` and `a.*x` leave out what `b.*` and `*x` do. -/
theorem sample_patterns_relative_to_branch :
    ∃ pruned,
      (collect sampleContext 4 (.within (Pattern.scope ["a.b.*", "a.*x"]))
        sampleSelections).outcome = .ok pruned ∧
      pruned.subtree "a" =
        (FieldTree.branch "b" (.leaf "x" .nil) .nil).prune sampleContext.timeout
          (.within (Pattern.scope ["b.*", "*x"])) := by
  have hwalk : (collect sampleContext 4 .keep sampleSelections).outcome =
      .ok (.branch "a" (.branch "b" (.leaf "x" .nil) .nil) (.leaf "d" .nil)) := rfl
  have hpath : "a" ≠ "" := by
    decide
  have hpatterns : ∀ pattern ∈ ["b.*", "*x"], pattern ≠ "" ∧ pattern ≠ "*" := by
    decide
  have hbranch : (FieldTree.branch "a" (.branch "b" (.leaf "x" .nil) .nil)
      (.leaf "d" .nil)).subtree "a" = .branch "b" (.leaf "x" .nil) .nil := by
    decide
  rcases patterns_relative_to_branch hpath hpatterns hwalk with ⟨pruned, hpruned, hbelow⟩
  rw [hbranch] at hbelow
  exact ⟨pruned, hpruned, hbelow⟩

end Lookahead
