import Lookahead.FieldTree.Basic
import Lookahead.Text.Dotted

/-!
# FieldTree.Branch — the fields below a path

Going down a path reads one name after the other. Where a name is missing or a leaf there is
nothing below, which is the empty tree. The empty text stands for the tree itself, not for a
field without a name.
-/

namespace Lookahead
namespace FieldTree

/-- The fields below a path of names. -/
def descend : List String → FieldTree → FieldTree
  | [], tree => tree
  | name :: path, tree =>
      match tree.find? name with
      | some (.branch children) => children.descend path
      | _ => nil

/-- The fields below a dotted path. -/
def subtree (path : String) (tree : FieldTree) : FieldTree :=
  if path = "" then tree else tree.descend (Dotted.segments path)

@[simp]
theorem subtree_empty (tree : FieldTree) : tree.subtree "" = tree := by
  simp [subtree]

theorem subtree_of_ne {path : String} (h : path ≠ "") (tree : FieldTree) :
    tree.subtree path = tree.descend (Dotted.segments path) := by
  simp [subtree, h]

@[simp]
theorem descend_nil (path : List String) (h : path ≠ []) : nil.descend path = nil := by
  cases path with
  | nil => exact absurd rfl h
  | cons name path => rfl

theorem descend_append (front back : List String) (hback : back ≠ []) (tree : FieldTree) :
    tree.descend (front ++ back) = (tree.descend front).descend back := by
  induction front generalizing tree with
  | nil =>
      rfl
  | cons name front ih =>
      simp only [List.cons_append, descend]
      split
      · exact ih _
      · simp [hback]

end FieldTree
end Lookahead
