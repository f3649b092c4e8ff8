import Lookahead.Proofs.FieldTree.Prune
import Lookahead.Proofs.Walk.Presence

/-!
# Walk.Prune — excluding on the way is excluding afterwards

A walk looks rules up while it goes down. The same tree comes out if everything is collected
first, with no rule at all, and the finished tree is pruned: fragments pass their rule on as it
is, and pruning goes through unions.

* `collect_prune` — a walk under a rule, given the walk without one;
* `collect_eq_prune_collect` — that walk, and the entries of its tree at all paths.
-/

namespace Lookahead

open FieldTree (gather)

namespace FieldTree

/-- A map between trees that respects unions carries gathering over. -/
theorem gather_map {α : Type} {contribute other : α → Run FieldTree}
    (change : FieldTree → FieldTree) (hnil : change nil = nil)
    (hunion : ∀ left right : FieldTree,
      change (left.union right) = (change left).union (change right))
    (hstep : ∀ item added, (contribute item).outcome = .ok added →
      (other item).outcome = .ok (change added))
    {items : List α} {tree : FieldTree} (h : (gather contribute items).outcome = .ok tree) :
    (gather other items).outcome = .ok (change tree) := by
  induction items generalizing tree with
  | nil =>
      cases h
      exact congrArg Except.ok hnil.symm
  | cons item items ih =>
      rcases gather_cons_ok_iff.1 h with ⟨first, others, hfirst, hothers, rfl⟩
      have hchanged := hstep item first hfirst
      exact gather_cons_ok_iff.2 ⟨_, _, hchanged, ih hothers, hunion first others⟩

end FieldTree

namespace Selection

variable {context : Context} {walk : Rule → List Selection → Run FieldTree}

/-- A selection adds under a rule what is left of what it adds without one. -/
theorem Contributes.prune
    (hwalk : ∀ rule selections tree, (walk .keep selections).outcome = .ok tree →
      (walk rule selections).outcome = .ok (tree.prune context.timeout rule))
    (rule : Rule) {selection : Selection} {tree : FieldTree}
    (h : Contributes context walk .keep selection tree) :
    Contributes context walk rule selection (tree.prune context.timeout rule) := by
  cases h with
  | leftOut hadmits =>
      exact .leftOut hadmits
  | excluded _ hverdict =>
      cases hverdict
  | @leaf name _ _ hadmits _ hempty =>
      -- a field that was kept without rules may be excluded now
      by_cases hverdict : rule.verdict context.timeout name = .exclude
      · simpa [FieldTree.prune, hverdict] using Contributes.excluded hadmits hverdict
      · simpa [FieldTree.prune, hverdict] using Contributes.leaf hadmits hverdict hempty
  | @branch name _ _ children hadmits _ hfull hbelow =>
      by_cases hverdict : rule.verdict context.timeout name = .exclude
      · simpa [FieldTree.prune, hverdict] using Contributes.excluded hadmits hverdict
      · have hpruned := hwalk (rule.verdict context.timeout name) _ _ hbelow
        simpa [FieldTree.prune, hverdict] using
          Contributes.branch hadmits hverdict hfull hpruned
  | inlineFragment hadmits hbelow =>
      exact .inlineFragment hadmits (hwalk rule _ _ hbelow)
  | spread hadmits hdefined hbelow =>
      -- fragments hand the rule on as it is
      exact .spread hadmits hdefined (hwalk rule _ _ hbelow)
  | undefined hadmits hundefined =>
      exact .undefined hadmits hundefined
  | other hadmits =>
      exact .other hadmits
  | value hadmits =>
      exact .value hadmits

end Selection

/-- Where the walk without rules has a tree, the walk under a rule has that tree pruned. -/
theorem collect_prune {context : Context} {limit : Nat} {selections : List Selection}
    {tree : FieldTree} (rule : Rule)
    (h : (collect context limit .keep selections).outcome = .ok tree) :
    (collect context limit rule selections).outcome = .ok (tree.prune context.timeout rule) := by
  induction limit generalizing rule selections tree with
  | zero =>
      cases h
  | succ limit ih =>
      rw [collect_succ] at h ⊢
      refine FieldTree.gather_map (FieldTree.prune context.timeout rule) rfl
        FieldTree.prune_union ?_ h
      intro selection added hadded
      have hcase := Selection.contributes_of_ok hadded
      have hwalk : ∀ inner below children,
          (collect context limit .keep below).outcome = .ok children →
            (collect context limit inner below).outcome =
              .ok (children.prune context.timeout inner) := by
        intro inner below children hbelow
        exact ih inner hbelow
      exact (hcase.prune hwalk rule).outcome

/-- Walking under a rule goes well wherever walking without rules does, and has the same tree as
pruning afterwards: the paths on which no name is excluded, in the same order and of the same
kinds. -/
theorem collect_eq_prune_collect {context : Context} {limit : Nat} {selections : List Selection}
    {tree : FieldTree} (rule : Rule)
    (h : (collect context limit .keep selections).outcome = .ok tree) :
    (collect context limit rule selections).outcome = .ok (tree.prune context.timeout rule) ∧
      ∀ path, path ≠ [] →
        (tree.prune context.timeout rule).get? path =
          if rule.below context.timeout path = .exclude then none
          else (tree.get? path).map
            (FieldTree.Entry.prune context.timeout (rule.below context.timeout path)) := by
  refine ⟨collect_prune rule h, ?_⟩
  intro path hpath
  exact FieldTree.get?_prune hpath tree

/-- Without rules the sample query has all fields but the one its directives leave out. -/
theorem sample_prune :
    (collect sampleContext 4 .keep sampleSelections).outcome =
        .ok (.branch "a" (.branch "b" (.leaf "x" .nil) .nil) (.leaf "d" .nil)) ∧
      (collect sampleContext 4 sampleRule sampleSelections).outcome =
        .ok (.branch "a" (.branch "b" .nil .nil) .nil) := by
  have hwalk : (collect sampleContext 4 .keep sampleSelections).outcome =
      .ok (.branch "a" (.branch "b" (.leaf "x" .nil) .nil) (.leaf "d" .nil)) := rfl
  exact ⟨hwalk, (collect_eq_prune_collect sampleRule hwalk).1⟩

end Lookahead
