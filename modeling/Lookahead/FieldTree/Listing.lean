import Lookahead.FieldTree.Basic
import Lookahead.Text.Dotted

/-!
# FieldTree.Listing — the dotted paths of a tree, level by level

Trees wait in a queue with the path they stand at. The first one is listed entry by entry, and
what is below its branches goes to the end of the queue, so all entries of one depth are listed
before those of the next.
-/

namespace Lookahead
namespace FieldTree

/-- A listed entry. -/
structure Item where
  path : String
  isBranch : Bool
  deriving DecidableEq, Repr

/-- The entries of one tree, as they are listed below `parent`. -/
def items (parent : String) (tree : FieldTree) : List Item :=
  tree.entries.map fun entry => ⟨Dotted.extend parent entry.1, entry.2.isBranch⟩

/-- The trees below the branches of a tree, with their paths. -/
def offspring (parent : String) : FieldTree → List (String × FieldTree)
  | nil => []
  | leaf _ rest => rest.offspring parent
  | branch name children rest =>
      (Dotted.extend parent name, children) :: rest.offspring parent

/-- How much is still to be done for a queue: its trees and all of their entries. -/
def backlog : List (String × FieldTree) → Nat
  | [] => 0
  | (_, tree) :: queue => tree.size + 1 + backlog queue

theorem backlog_append (front back : List (String × FieldTree)) :
    backlog (front ++ back) = backlog front + backlog back := by
  induction front with
  | nil =>
      simp [backlog]
  | cons waiting front ih =>
      simp only [List.cons_append, backlog, ih]
      omega

theorem backlog_offspring_le (parent : String) (tree : FieldTree) :
    backlog (tree.offspring parent) ≤ tree.size := by
  induction tree with
  | nil =>
      simp [offspring, backlog, size]
  | leaf name rest ih =>
      simp only [offspring, size]
      omega
  | branch name children rest _ ih =>
      simp only [backlog, offspring, size]
      omega

/-- The entries of all trees of a queue and of the trees below them. -/
def listQueue : List (String × FieldTree) → List Item
  | [] => []
  | (parent, tree) :: queue => tree.items parent ++ listQueue (queue ++ tree.offspring parent)
termination_by queue => backlog queue
decreasing_by
  have hoffspring := backlog_offspring_le parent tree
  simp only [backlog_append, backlog]
  omega

/-- All entries of a tree. -/
def listing (tree : FieldTree) : List Item :=
  listQueue [("", tree)]

end FieldTree
end Lookahead
