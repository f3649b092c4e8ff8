import Lookahead.Proofs.FieldTree.Union

/-!
# FieldTree.Branch — a union seen along its paths

What a union has at a path, and below it, depends on what its two sides have there and on nothing
else. A side without an entry and a side with a leaf have nothing below it, which counts as the
empty tree; so a branch on one side is neither lost nor moved by a leaf on the other one.

* `FieldTree.isSome_joined_iff`, `FieldTree.joined_eq_leaf_iff` — what two entries come to;
* `FieldTree.union_path_by_path` — the paths of a union, their kinds and the order of names;
* `FieldTree.subtree_union`, `FieldTree.subtree_subtree` — going down a dotted path, in a union
  and in two steps.
-/

namespace Lookahead
namespace FieldTree

variable {left right : Option Entry}

/-! ## What two entries come to -/

theorem isSome_joined_iff : (joined left right).isSome ↔ left.isSome ∨ right.isSome := by
  rcases left with _ | first <;> simp

/-- Two entries come to a leaf if there is one at all and none of them is a branch. -/
theorem joined_eq_leaf_iff :
    joined left right = some .leaf ↔
      (left.isSome ∨ right.isSome) ∧
        (∀ entry, left = some entry → entry = .leaf) ∧
        ∀ entry, right = some entry → entry = .leaf := by
  rcases left with _ | _ | leftBelow <;> rcases right with _ | _ | rightBelow <;>
    simp [Entry.meet]

/-! ## Paths of a union -/

/-- A union has the paths of both sides and no others. A path ends in a leaf exactly if it does on
every side that has it. At the root and at every branch, the names are those that the left side has
there, in its order, followed by those that only the right side has there, in its order. -/
theorem union_path_by_path (a b : FieldTree) :
    (∀ path, ((a.union b).get? path).isSome ↔ (a.get? path).isSome ∨ (b.get? path).isSome) ∧
      (∀ path, (a.union b).get? path = some .leaf ↔
        ((a.get? path).isSome ∨ (b.get? path).isSome) ∧
          (∀ entry, a.get? path = some entry → entry = .leaf) ∧
          ∀ entry, b.get? path = some entry → entry = .leaf) ∧
      (a.union b).names = a.names ++ b.names.filter (fun name => !a.names.contains name) ∧
      ∀ path children, (a.union b).get? path = some (.branch children) →
        children.names = (a.descend path).names ++
          (b.descend path).names.filter fun name => !(a.descend path).names.contains name := by
  refine ⟨?_, ?_, names_union a b, ?_⟩
  · intro path
    simpa only [get?_union] using isSome_joined_iff
  · intro path
    simpa only [get?_union] using joined_eq_leaf_iff
  · intro path children hbranch
    have hpath : path ≠ [] := path_ne_nil_of_get? hbranch
    have hbelow : (a.descend path).union (b.descend path) = children := by
      calc
        (a.descend path).union (b.descend path)
            = (a.union b).descend path := (descend_union path a b).symm
        _ = childrenOf ((a.union b).get? path) := descend_eq_childrenOf hpath _
        _ = children := by simp [hbranch, childrenOf]
    simpa only [hbelow] using names_union (a.descend path) (b.descend path)

/-- The leaf `x` meets a branch, which keeps its place and its own order. -/
example :
    let a := leaf "x" (branch "y" (leaf "v" nil) nil)
    let b := branch "y" (leaf "w" (leaf "v" nil)) (branch "x" (leaf "z" (leaf "u" nil)) nil)
    a.union b =
      branch "x" (leaf "z" (leaf "u" nil)) (branch "y" (leaf "v" (leaf "w" nil)) nil) := by
  decide

/-! ## Dotted paths -/

theorem subtree_union (path : String) (a b : FieldTree) :
    (a.union b).subtree path = (a.subtree path).union (b.subtree path) := by
  by_cases hpath : path = ""
  · simp [hpath]
  · simpa only [subtree_of_ne hpath] using descend_union (Dotted.segments path) a b

/-- Going down two paths one after the other is going down the path they make together. -/
theorem subtree_subtree {path further : String} (hpath : path ≠ "") (hfurther : further ≠ "")
    (tree : FieldTree) :
    (tree.subtree path).subtree further = tree.subtree (path ++ "." ++ further) := by
  have hwhole : path ++ "." ++ further ≠ "" := by
    simp
  have hsegments : Dotted.segments further ≠ [] := Dotted.segments_ne_nil further
  calc
    (tree.subtree path).subtree further
        = (tree.descend (Dotted.segments path)).descend (Dotted.segments further) := by
          simp only [subtree_of_ne hpath, subtree_of_ne hfurther]
    _ = tree.descend (Dotted.segments path ++ Dotted.segments further) :=
          (descend_append _ _ hsegments tree).symm
    _ = tree.descend (Dotted.segments (path ++ "." ++ further)) := by
          simp only [Dotted.segments_append_point]
    _ = tree.subtree (path ++ "." ++ further) := (subtree_of_ne hwhole tree).symm

/-- The branch of a union at any dotted path, the empty one and those with empty segments included,
is the union of the branches there, with the same order at every level. And a branch of a branch is
the branch at the path of both, with a point between them. -/
theorem branches_compose :
    (∀ (a b : FieldTree) (path : String),
      (a.union b).subtree path = (a.subtree path).union (b.subtree path)) ∧
    ∀ (tree : FieldTree) (path further : String), path ≠ "" → further ≠ "" →
      (tree.subtree path).subtree further = tree.subtree (path ++ "." ++ further) := by
  constructor
  · intro a b path
    exact subtree_union path a b
  · intro tree path further hpath hfurther
    exact subtree_subtree hpath hfurther tree

/-- Below `a` the left side has a leaf `b` and the right side a branch. The path `".b"` leads
through a field without a name. -/
theorem sample_branches :
    let a := branch "a" (leaf "b" (leaf "c" nil)) nil
    let b := branch "a" (branch "b" (leaf "d" nil) nil) (branch "" (branch "b" nil nil) nil)
    (a.union b).subtree "a" = branch "b" (leaf "d" nil) (leaf "c" nil) ∧
      (a.union b).subtree ".b" = nil ∧
      ((a.union b).subtree "a").subtree "b" = (a.union b).subtree "a.b" ∧
      (a.union b).subtree "a.b" = leaf "d" nil := by
  intro a b
  rcases branches_compose with ⟨hunion, hsteps⟩
  have hdown : ((a.union b).subtree "a").subtree "b" = (a.union b).subtree "a.b" :=
    hsteps (a.union b) "a" "b" (by decide) (by decide)
  refine ⟨(hunion a b "a").trans ?_, (hunion a b ".b").trans ?_, hdown, hdown.symm.trans ?_⟩
  · decide
  · decide
  · decide

end FieldTree
end Lookahead
