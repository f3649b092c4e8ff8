import Lookahead.Proofs.FieldTree.Distinct
import Lookahead.Proofs.Walk.Contribution

/-!
# Gather — a walk is the union of what its selections add

A walk builds one tree and lets it absorb what each selection adds. Since the union is
associative, it does not matter that this happens from left to right into one tree:

* `FieldTree.gather` — the contributions of a list, united one after the other;
* `collect_succ` — a walk gathers the contributions of its selections;
* `collect_induction` — from what a selection adds to what a walk collects;
* `collect_distinct` — its tree has distinct names at every level;
* `collect_append` — walking a concatenation is uniting the two walks;
* `collect_of_le` — a walk that ends well is the same under any larger limit.
-/

namespace Lookahead

/-! ## Gathering -/

namespace FieldTree

variable {α : Type}

/-- The union of what the members of a list contribute, in their order. -/
def gather (contribute : α → Run FieldTree) : List α → Run FieldTree
  | [] => pure .nil
  | item :: items => do
      let first ← contribute item
      let others ← gather contribute items
      return first.union others

/-- A list gathers a tree if its first member contributes one and the others gather one. -/
theorem gather_cons_ok_iff {contribute : α → Run FieldTree} {item : α} {items : List α}
    {tree : FieldTree} :
    (gather contribute (item :: items)).outcome = .ok tree ↔
      ∃ first others, (contribute item).outcome = .ok first ∧
        (gather contribute items).outcome = .ok others ∧ tree = first.union others := by
  rw [gather, Run.bind_outcome_eq_ok_iff]
  constructor
  · rintro ⟨first, hfirst, h⟩
    rcases Run.bind_outcome_eq_ok_iff.1 h with ⟨others, hothers, h⟩
    cases h
    exact ⟨first, others, hfirst, hothers, rfl⟩
  · rintro ⟨first, others, hfirst, hothers, rfl⟩
    exact ⟨first, hfirst, Run.bind_outcome_eq_ok_iff.2 ⟨others, hothers, rfl⟩⟩

theorem gather_append (contribute : α → Run FieldTree) (front back : List α) :
    gather contribute (front ++ back) = do
      let left ← gather contribute front
      let right ← gather contribute back
      return left.union right := by
  induction front with
  | nil =>
      simp only [List.nil_append, gather, pure_bind, nil_union, bind_pure]
  | cons item front ih =>
      simp only [List.cons_append, gather, ih, bind_assoc, pure_bind, union_assoc]

/-- Uniting into a tree from left to right is uniting with all that is gathered. -/
theorem foldlM_union (contribute : α → Run FieldTree) (items : List α) (target : FieldTree) :
    items.foldlM (fun tree item => do
        let added ← contribute item
        return tree.union added) target = do
      let total ← gather contribute items
      return target.union total := by
  induction items generalizing target with
  | nil =>
      simp only [List.foldlM_nil, gather, pure_bind, union_nil]
  | cons item items ih =>
      simp only [List.foldlM_cons, gather, ih, bind_assoc, pure_bind, union_assoc]

/-- All contributions have distinct names. -/
def Tidy (contribute : α → Run FieldTree) : Prop :=
  ∀ item tree, (contribute item).outcome = .ok tree → tree.Distinct

theorem distinct_of_gather {contribute : α → Run FieldTree} (htidy : Tidy contribute) :
    Tidy (gather contribute) := by
  intro items
  induction items with
  | nil =>
      intro tree h
      cases h
      trivial
  | cons item items ih =>
      intro tree h
      rcases gather_cons_ok_iff.1 h with ⟨first, others, hfirst, hothers, rfl⟩
      exact (htidy item first hfirst).union (ih others hothers)

/-- Where all contributions have distinct names, absorbing them gathers them too. -/
theorem foldlM_absorb {contribute : α → Run FieldTree} (htidy : Tidy contribute)
    (items : List α) (target : FieldTree) :
    items.foldlM (fun tree item => do
        let added ← contribute item
        return tree.absorb added) target = do
      let total ← gather contribute items
      return target.union total := by
  -- absorbing is uniting for each single contribution, as far as there is one
  have hstep : (fun (tree : FieldTree) (item : α) => do
        let added ← contribute item
        return tree.absorb added) = fun tree item => do
        let added ← contribute item
        return tree.union added := by
    funext tree item
    refine Run.bind_congr_of_ok ?_
    intro added hadded
    rw [absorb_eq_union (htidy item added hadded)]
  rw [hstep, foldlM_union]

/-- Contributions that are the same for the members of a list gather the same. -/
theorem gather_congr {contribute other : α → Run FieldTree} {items : List α}
    (h : ∀ item ∈ items, contribute item = other item) :
    gather contribute items = gather other items := by
  induction items with
  | nil =>
      rfl
  | cons item items ih =>
      rcases List.forall_mem_cons.1 h with ⟨hitem, hitems⟩
      simp only [gather, hitem, ih hitems]

/-- Contributions that end in the same way gather the same tree, or fail in the same way. -/
theorem outcome_gather_congr {contribute other : α → Run FieldTree}
    (h : ∀ item, (contribute item).outcome = (other item).outcome) (items : List α) :
    (gather contribute items).outcome = (gather other items).outcome := by
  induction items with
  | nil =>
      rfl
  | cons item items ih =>
      simp only [gather, Run.outcome_bind, h, ih]

/-- Contributions that go well may be exchanged for others which are then the same. -/
theorem gather_congr_of_ok {contribute other : α → Run FieldTree} {items : List α}
    {tree : FieldTree}
    (hsame : ∀ item added, (contribute item).outcome = .ok added → other item = contribute item)
    (h : (gather contribute items).outcome = .ok tree) :
    gather other items = gather contribute items := by
  induction items generalizing tree with
  | nil =>
      rfl
  | cons item items ih =>
      rcases gather_cons_ok_iff.1 h with ⟨first, others, hfirst, hothers, -⟩
      simp only [gather, hsame item first hfirst, ih hothers]

end FieldTree

/-! ## The walk gathers -/

open FieldTree (gather Tidy)

namespace Selection

variable {context : Context} {walk : Rule → List Selection → Run FieldTree}

theorem contribution_tidy (hwalk : ∀ rule, Tidy (walk rule)) (rule : Rule) :
    Tidy (contribution context walk rule) := by
  intro selection tree h
  cases contributes_of_ok h with
  | leftOut _ => trivial
  | excluded _ _ => trivial
  | leaf _ _ _ => exact ⟨List.not_mem_nil, trivial⟩
  | branch _ _ _ hbelow => exact ⟨List.not_mem_nil, hwalk _ _ _ hbelow, trivial⟩
  | inlineFragment _ hbelow => exact hwalk _ _ _ hbelow
  | spread _ _ hbelow => exact hwalk _ _ _ hbelow
  | undefined _ _ => trivial
  | other _ => trivial
  | value _ => trivial

theorem foldlM_collectInto (hwalk : ∀ rule, Tidy (walk rule)) (rule : Rule)
    (selections : List Selection) :
    selections.foldlM (collectInto context walk rule) .nil =
      gather (contribution context walk rule) selections := by
  have hstep : collectInto context walk rule = fun tree selection => do
      let added ← selection.contribution context walk rule
      return tree.absorb added := by
    funext tree selection
    exact collectInto_eq context walk rule tree selection
  rw [hstep, FieldTree.foldlM_absorb (contribution_tidy hwalk rule)]
  simp

end Selection

variable {context : Context} {limit : Nat} {rule : Rule} {selections : List Selection}
  {tree : FieldTree}

/-- A walk never puts a name twice among neighbours. -/
theorem collect_tidy (context : Context) (limit : Nat) (rule : Rule) :
    Tidy (collect context limit rule) := by
  induction limit generalizing rule with
  | zero =>
      intro selections tree h
      cases h
  | succ limit ih =>
      intro selections tree h
      -- that the walk gathers may only be said once the walks below it are known to be tidy
      rw [collect, Selection.foldlM_collectInto ih] at h
      exact FieldTree.distinct_of_gather (Selection.contribution_tidy ih rule) selections tree h

theorem collect_distinct (h : (collect context limit rule selections).outcome = .ok tree) :
    tree.Distinct :=
  collect_tidy context limit rule selections tree h

theorem collect_succ (context : Context) (limit : Nat) (rule : Rule)
    (selections : List Selection) :
    collect context (limit + 1) rule selections =
      gather (Selection.contribution context (collect context limit) rule) selections := by
  rw [collect, Selection.foldlM_collectInto (collect_tidy context limit)]

/-- What holds of the tree of an empty list, and of a tree united with what a selection in front of
the list adds, holds of the trees of all walks that end well. Of the walks below the selection,
which are one level further down, it may be taken for granted. -/
theorem collect_induction {motive : Nat → Rule → List Selection → FieldTree → Prop}
    (nil : ∀ limit rule, motive (limit + 1) rule [] .nil)
    (cons : ∀ limit rule selection selections first others,
      selection.Contributes context (collect context limit) rule first →
      (∀ inner below found, (collect context limit inner below).outcome = .ok found →
        motive limit inner below found) →
      motive (limit + 1) rule selections others →
      motive (limit + 1) rule (selection :: selections) (first.union others))
    (h : (collect context limit rule selections).outcome = .ok tree) :
    motive limit rule selections tree := by
  induction limit generalizing rule selections tree with
  | zero =>
      cases h
  | succ limit ih =>
      rw [collect_succ] at h
      induction selections generalizing tree with
      | nil =>
          cases h
          exact nil limit rule
      | cons selection selections ihrest =>
          rcases FieldTree.gather_cons_ok_iff.1 h with ⟨first, others, hfirst, hothers, rfl⟩
          -- the outer induction speaks of the walks below, the inner one of the other selections
          have hcase := Selection.contributes_of_ok hfirst
          have hrest := ihrest hothers
          exact cons limit rule selection selections first others hcase
            (fun inner below found hfound => ih hfound) hrest

/-- Walking a concatenation is uniting the walks of its two parts. -/
theorem collect_append (context : Context) (limit : Nat) (rule : Rule)
    (front back : List Selection) :
    collect context limit rule (front ++ back) = do
      let left ← collect context limit rule front
      let right ← collect context limit rule back
      return left.union right := by
  cases limit with
  | zero =>
      rfl
  | succ limit =>
      simp only [collect_succ]
      exact FieldTree.gather_append _ front back

/-! ## Larger limits -/

namespace Selection

/-- What a selection adds stays the same in walks that agree with the one below it. -/
theorem contribution_congr_of_ok {walk other : Rule → List Selection → Run FieldTree}
    (hsame : ∀ rule selections tree, (walk rule selections).outcome = .ok tree →
      other rule selections = walk rule selections)
    {selection : Selection}
    (h : (selection.contribution context walk rule).outcome = .ok tree) :
    selection.contribution context other rule = selection.contribution context walk rule := by
  apply contribution_congr_of_opens
  intro inner below hopens
  -- the walk that was made ended well, since the selection added a tree
  rcases (contributes_of_ok h).isOk_of_opens hopens with ⟨found, hfound⟩
  exact hsame inner below found hfound

end Selection

theorem collect_of_le {larger : Nat} (hle : limit ≤ larger)
    (h : (collect context limit rule selections).outcome = .ok tree) :
    collect context larger rule selections = collect context limit rule selections := by
  induction limit generalizing larger rule selections tree with
  | zero =>
      cases h
  | succ limit ih =>
      -- both walks have a level to go, and then the smaller one is left less than the larger one
      obtain ⟨larger, rfl⟩ : ∃ m, larger = m + 1 := ⟨larger - 1, by omega⟩
      rw [collect_succ] at h ⊢
      rw [collect_succ]
      refine FieldTree.gather_congr_of_ok ?_ h
      intro selection added hadded
      refine Selection.contribution_congr_of_ok ?_ hadded
      intro inner below tree hbelow
      exact ih (by omega) hbelow

end Lookahead
