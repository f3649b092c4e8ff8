import Lookahead.Proofs.FieldTree.Covers
import Lookahead.Proofs.Query.Reordering
import Lookahead.Proofs.Walk.Inlining

/-!
# Walk.Reordering — walks of reordered selections

A walk unites what its selections add, and a union is the least tree that covers its parts. So a
walk of reordered selections ends well if the first walk does, and its tree has the same fields in
another order at most, also where fragments and what is below fields are reordered.

* `covers_gather_iff` — what covers all that a list gathers;
* `Selection.Contributes.alike` — what a selection adds that is reordered below;
* `collect_matched` — a walk of selections that match.
-/

namespace Lookahead

open FieldTree (gather gather_cons_ok_iff gather_isOk_iff)

/-- Where the first run has a tree, the other one has a tree with the same fields, perhaps in
another order. -/
def Run.SameFields (run other : Run FieldTree) : Prop :=
  ∀ tree, run.outcome = .ok tree → ∃ found, other.outcome = .ok found ∧ tree.Rearranged found

/-! ## Gathering -/

namespace FieldTree

/-- A tree covers what a list gathers exactly if it covers what each member contributes. -/
theorem covers_gather_iff {α : Type} {contribute : α → Run FieldTree} {items : List α}
    {tree total : FieldTree} (h : (gather contribute items).outcome = .ok total) :
    tree.Covers total ↔
      ∀ item ∈ items, ∀ added, (contribute item).outcome = .ok added → tree.Covers added := by
  induction items generalizing total with
  | nil =>
      cases h
      simpa using Covers.nil tree
  | cons first items ih =>
      rcases gather_cons_ok_iff.1 h with ⟨added, others, hadded, hothers, rfl⟩
      simp only [covers_union_iff, ih hothers, List.forall_mem_cons, hadded, Except.ok.injEq,
        forall_eq']

/-- Lists gather the same fields if each member of either list has one in the other that contributes
the same. -/
theorem gather_sameFields {α : Type} {contribute other : α → Run FieldTree} {items others : List α}
    (htidy : Tidy contribute) (hother : Tidy other)
    (hforth : ∀ item ∈ items, ∃ changed ∈ others, (contribute item).SameFields (other changed))
    (hback : ∀ changed ∈ others, ∃ item ∈ items, (contribute item).SameFields (other changed)) :
    (gather contribute items).SameFields (gather other others) := by
  intro tree h
  have hitems := gather_isOk_iff.1 ⟨tree, h⟩
  -- what a changed member contributes, some member of the first list has contributed to `tree`
  have hknown : ∀ changed ∈ others, ∃ found, (other changed).outcome = .ok found ∧
      tree.Covers found := by
    intro changed hmem
    rcases hback changed hmem with ⟨item, hitem, hsame⟩
    rcases hitems item hitem with ⟨added, hadded⟩
    rcases hsame added hadded with ⟨found, hfound, hrearranged⟩
    have hadds : tree.Covers added := (covers_gather_iff h).1 (.refl tree) item hitem added hadded
    have hcovers : added.Covers found := hrearranged.covers (htidy item added hadded)
    exact ⟨found, hfound, hadds.trans hcovers⟩
  have hothers : ∀ changed ∈ others, ∃ found, (other changed).outcome = .ok found := by
    intro changed hmem
    rcases hknown changed hmem with ⟨found, hfound, -⟩
    exact ⟨found, hfound⟩
  rcases gather_isOk_iff.2 hothers with ⟨total, htotal⟩
  have hleft : tree.Covers total := by
    apply (covers_gather_iff htotal).2
    intro changed hmem found hfound
    rcases hknown changed hmem with ⟨known, hsame, hcovers⟩
    cases hsame.symm.trans hfound
    exact hcovers
  have hright : total.Covers tree := by
    apply (covers_gather_iff h).2
    intro item hmem added hadded
    rcases hforth item hmem with ⟨changed, hchanged, hsame⟩
    rcases hsame added hadded with ⟨found, hfound, hrearranged⟩
    have hfinds : total.Covers found :=
      (covers_gather_iff htotal).1 (.refl total) changed hchanged found hfound
    have hcovers : found.Covers added := hrearranged.symm.covers (hother changed found hfound)
    exact hfinds.trans hcovers
  have htree : tree.Distinct := distinct_of_gather htidy items tree h
  have hdistinct : total.Distinct := distinct_of_gather hother others total htotal
  exact ⟨total, htotal, hleft.rearranged htree hdistinct hright⟩

end FieldTree

/-! ## One selection -/

namespace Selection

variable {context : Context} {table : FragmentTable}
  {walk other : Rule → List Selection → Run FieldTree} {rule : Rule}
  {selection changed : Selection} {tree : FieldTree}

theorem Alike.admits_eq (halike : selection.Alike changed) (context : Context)
    (table : FragmentTable) :
    (context.withFragments table).admits changed = context.admits selection := by
  simp only [Context.admits, halike.directives_eq, Context.withFragments]

/-- A selection that is reordered below adds the same up to order, if walks of matching selections
have the same trees up to order. -/
theorem Contributes.alike (htable : context.fragments.ReorderedTo table)
    (hwalk : ∀ rule below after, Matched below after →
      (walk rule below).SameFields (other rule after))
    (halike : selection.Alike changed) (h : Contributes context walk rule selection tree) :
    ∃ found, Contributes (context.withFragments table) other rule changed found ∧
      tree.Rearranged found := by
  have hsame := halike.admits_eq context table
  -- the changed selection contributes for the same reason
  cases h with
  | leftOut hadmits =>
      exact ⟨.nil, .leftOut (hsame.trans hadmits), .nil⟩
  | excluded hadmits hverdict =>
      cases halike with
      | field _ => exact ⟨.nil, .excluded (hsame.trans hadmits) hverdict, .nil⟩
  | leaf hadmits hverdict hempty =>
      cases halike with
      | field hbelow =>
          have hnone := hbelow.eq_nil_iff.1 hempty
          exact ⟨_, .leaf (hsame.trans hadmits) hverdict hnone, .refl _⟩
  | branch hadmits hverdict hfull hchildren =>
      cases halike with
      | field hbelow =>
          have hsome := mt hbelow.eq_nil_iff.2 hfull
          rcases hwalk _ _ _ hbelow.matched _ hchildren with ⟨found, hfound, hrearranged⟩
          exact ⟨_, .branch (hsame.trans hadmits) hverdict hsome hfound, .branch _ hrearranged .nil⟩
  | inlineFragment hadmits hinside =>
      cases halike with
      | inlineFragment hbelow =>
          rcases hwalk _ _ _ hbelow.matched _ hinside with ⟨found, hfound, hrearranged⟩
          exact ⟨found, .inlineFragment (hsame.trans hadmits) hfound, hrearranged⟩
  | spread hadmits hdefined hinside =>
      cases halike with
      | spread =>
          rcases htable.defined hdefined with ⟨after, hafter, hbelow⟩
          rcases hwalk _ _ _ hbelow.matched _ hinside with ⟨found, hfound, hrearranged⟩
          exact ⟨found, .spread (hsame.trans hadmits) hafter hfound, hrearranged⟩
  | undefined hadmits hundefined =>
      cases halike with
      | spread =>
          have hlookup := htable.undefined hundefined
          exact ⟨.nil, .undefined (hsame.trans hadmits) hlookup, .nil⟩
  | other hadmits =>
      cases halike with
      | other => exact ⟨.nil, .other (hsame.trans hadmits), .nil⟩
  | value hadmits =>
      cases halike with
      | value => exact ⟨.nil, .value (hsame.trans hadmits), .nil⟩

end Selection

/-! ## Walks -/

variable {context : Context} {table : FragmentTable} {selections others : List Selection}

/-- A walk of selections that match, with reordered fragments, goes well if the first walk does,
and has the same fields then. -/
theorem collect_matched (htable : context.fragments.ReorderedTo table) (limit : Nat) (rule : Rule)
    (hmatched : Matched selections others) :
    (collect context limit rule selections).SameFields
      (collect (context.withFragments table) limit rule others) := by
  induction limit generalizing rule selections others with
  | zero =>
      intro tree h
      cases h
  | succ limit ih =>
      have hwalk : ∀ inner below after, Matched below after →
          (collect context limit inner below).SameFields
            (collect (context.withFragments table) limit inner after) := by
        intro inner below after hbelow
        exact ih inner hbelow
      have hsame : ∀ selection changed : Selection, selection.Alike changed →
          (selection.contribution context (collect context limit) rule).SameFields
            (changed.contribution (context.withFragments table)
              (collect (context.withFragments table) limit) rule) := by
        intro selection changed halike added hadded
        have hcase := Selection.contributes_of_ok hadded
        rcases hcase.alike htable hwalk halike with ⟨found, hfound, hrearranged⟩
        exact ⟨found, hfound.outcome, hrearranged⟩
      have htidy : FieldTree.Tidy (Selection.contribution context (collect context limit) rule) :=
        Selection.contribution_tidy (collect_tidy context limit) rule
      have hother : FieldTree.Tidy (Selection.contribution (context.withFragments table)
          (collect (context.withFragments table) limit) rule) :=
        Selection.contribution_tidy (collect_tidy (context.withFragments table) limit) rule
      simp only [collect_succ]
      refine FieldTree.gather_sameFields htidy hother ?_ ?_
      · intro selection hmem
        rcases hmatched.forth selection hmem with ⟨changed, hchanged, halike⟩
        exact ⟨changed, hchanged, hsame selection changed halike⟩
      · intro changed hmem
        rcases hmatched.back changed hmem with ⟨selection, hselection, halike⟩
        exact ⟨selection, hselection, hsame selection changed halike⟩

end Lookahead
