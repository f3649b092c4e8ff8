import Lookahead.Proofs.Exclusion.Descent
import Lookahead.Proofs.FieldTree.Distinct

/-!
# Prune — leaving excluded fields out of a finished tree

Pruning goes through a tree with a rule. An entry whose name is excluded is left out with all
that is below it; any other entry stays at its place, a leaf as it is and a branch with the fields
below it pruned by the rule for its name. A branch stays a branch even if nothing is left in it.

* `FieldTree.find?_prune` — what stands under a name of a pruned tree;
* `FieldTree.prune_union` — pruning a union is uniting the pruned trees, order included;
* `FieldTree.get?_prune`, `FieldTree.descend_prune` — what stands at a path of a pruned tree, and
  below it.
-/

namespace Lookahead
namespace FieldTree

def prune (timeout : Timeout) (rule : Rule) : FieldTree → FieldTree
  | nil => nil
  | leaf name rest =>
      if rule.verdict timeout name = .exclude then rest.prune timeout rule
      else leaf name (rest.prune timeout rule)
  | branch name children rest =>
      if rule.verdict timeout name = .exclude then rest.prune timeout rule
      else branch name (children.prune timeout (rule.verdict timeout name))
        (rest.prune timeout rule)

/-- What is left of an entry that stays, where `inner` is the rule for its name. -/
def Entry.prune (timeout : Timeout) (inner : Rule) : Entry → Entry
  | .leaf => .leaf
  | .branch children => .branch (children.prune timeout inner)

variable {timeout : Timeout} {rule : Rule} {name : String}

@[simp]
theorem prune_nil : nil.prune timeout rule = nil := rfl

theorem prune_cons (entry : Entry) (rest : FieldTree) :
    (cons name entry rest).prune timeout rule =
      if rule.verdict timeout name = .exclude then rest.prune timeout rule
      else cons name (entry.prune timeout (rule.verdict timeout name))
        (rest.prune timeout rule) := by
  cases entry <;> rfl

theorem find?_prune (name : String) (tree : FieldTree) :
    (tree.prune timeout rule).find? name =
      if rule.verdict timeout name = .exclude then none
      else (tree.find? name).map (Entry.prune timeout (rule.verdict timeout name)) := by
  induction tree using consInduction with
  | nil =>
      simp [find?]
  | cons n entry rest _ ih =>
      rw [prune_cons, find?_cons]
      by_cases h : n = name
      · subst h
        by_cases hn : rule.verdict timeout n = .exclude
        · -- further entries of the same name would be left out too
          rw [if_pos hn, if_pos hn, ih, if_pos hn]
        · simp [hn]
      · by_cases hn : rule.verdict timeout n = .exclude
        · rw [if_pos hn, if_neg h, ih]
        · rw [if_neg hn, if_neg h, find?_cons, if_neg h, ih]

theorem prune_erase (name : String) (tree : FieldTree) :
    (tree.erase name).prune timeout rule = (tree.prune timeout rule).erase name := by
  induction tree using consInduction with
  | nil =>
      rfl
  | cons n entry rest _ ih =>
      rw [prune_cons, erase_cons]
      by_cases h : n = name
      · subst h
        by_cases hn : rule.verdict timeout n = .exclude <;> simp [hn, ih]
      · by_cases hn : rule.verdict timeout n = .exclude <;> simp [hn, h, ih, prune_cons]

/-! ## Rules that keep everything -/

@[simp]
theorem prune_keep (tree : FieldTree) : tree.prune timeout .keep = tree := by
  induction tree with
  | nil =>
      rfl
  | leaf name rest ih =>
      simp [prune, ih]
  | branch name children rest ihchildren ih =>
      simp [prune, ihchildren, ih]

/-- A scope without keys has nothing to leave out. -/
@[simp]
theorem prune_within_nil (tree : FieldTree) : tree.prune timeout (.within .nil) = tree := by
  have hverdict : ∀ name, (Rule.within .nil).verdict timeout name = .keep := fun _ => rfl
  induction tree with
  | nil =>
      rfl
  | leaf name rest ih =>
      simp [prune, hverdict, ih]
  | branch name children rest _ ih =>
      simp [prune, hverdict, ih]

/-! ## Pruning a union -/

private theorem prune_meet (entry : Entry) (other : Option Entry) (inner : Rule)
    (hbelow : ∀ children, entry = .branch children → ∀ right,
      (children.union right).prune timeout inner =
        (children.prune timeout inner).union (right.prune timeout inner)) :
    (entry.meet other).prune timeout inner =
      (entry.prune timeout inner).meet (other.map (Entry.prune timeout inner)) := by
  rcases other with _ | _ | right
  · simp
  · simp [Entry.prune]
  · cases entry with
    | leaf => rfl
    | branch children => simp [Entry.meet, Entry.prune, hbelow children rfl]

theorem prune_union (left right : FieldTree) :
    (left.union right).prune timeout rule =
      (left.prune timeout rule).union (right.prune timeout rule) := by
  induction left using consInduction generalizing right rule with
  | nil =>
      simp
  | cons n entry rest ihbelow ih =>
      rw [union_cons, prune_cons, prune_cons, ih, prune_erase]
      by_cases hn : rule.verdict timeout n = .exclude
      · -- the pruned right tree has no such name, so there is nothing to take out of it
        have hgone : n ∉ (right.prune timeout rule).names := by
          rw [← find?_eq_none_iff, find?_prune, if_pos hn]
        rw [if_pos hn, if_pos hn, erase_of_not_mem hgone]
      · have hentry := prune_meet entry (right.find? n) (rule.verdict timeout n)
          (fun children hchildren other => ihbelow children hchildren other)
        rw [if_neg hn, if_neg hn, union_cons, find?_prune, if_neg hn, hentry]

/-! ## Paths -/

theorem childrenOf_prune (timeout : Timeout) (inner : Rule) (entry : Option Entry) :
    childrenOf (entry.map (Entry.prune timeout inner)) =
      (childrenOf entry).prune timeout inner := by
  rcases entry with _ | _ | children <;> rfl

/-- Pruning leaves out the paths on which a name is excluded. It changes no kind of an entry, and
below a branch it goes on with the rule at the end of the path. -/
theorem get?_prune {path : List String} (hpath : path ≠ []) (tree : FieldTree) :
    (tree.prune timeout rule).get? path =
      if rule.below timeout path = .exclude then none
      else (tree.get? path).map (Entry.prune timeout (rule.below timeout path)) := by
  induction path generalizing rule tree with
  | nil =>
      exact absurd rfl hpath
  | cons name path ih =>
      by_cases hend : path = []
      · -- the path ends at this name, so its rule is the rule of the entry
        subst hend
        by_cases hname : rule.verdict timeout name = .exclude
        · rw [Rule.below_of_excluded hname, if_pos rfl, get?_singleton, find?_prune, if_pos hname]
        · rw [Rule.below_of_kept hname, Rule.below_nil, if_neg hname, get?_singleton, find?_prune,
            if_neg hname, get?_singleton]
      · -- it goes on below the branch, where the rule for the name is in force
        rw [get?_cons name hend, get?_cons name hend, find?_prune]
        by_cases hname : rule.verdict timeout name = .exclude
        · rw [Rule.below_of_excluded hname, if_pos hname, if_pos rfl]
          exact nil_get? path
        · rw [Rule.below_of_kept hname, if_neg hname, childrenOf_prune, ih hend]

/-- Going down a path and pruning there, by the rule at its end, is pruning and going down. -/
theorem descend_prune {path : List String} (hpath : path ≠ [])
    (hkept : rule.below timeout path ≠ .exclude) (tree : FieldTree) :
    (tree.prune timeout rule).descend path =
      (tree.descend path).prune timeout (rule.below timeout path) := by
  calc
    (tree.prune timeout rule).descend path
        = childrenOf ((tree.get? path).map (Entry.prune timeout (rule.below timeout path))) := by
          simp only [descend_eq_childrenOf hpath, get?_prune hpath, hkept, if_false]
    _ = (childrenOf (tree.get? path)).prune timeout (rule.below timeout path) :=
          childrenOf_prune timeout _ _
    _ = (tree.descend path).prune timeout (rule.below timeout path) := by
          simp only [descend_eq_childrenOf hpath]

end FieldTree
end Lookahead
