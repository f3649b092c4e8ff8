import Lookahead.FieldTree.Basic

/-!
# FieldTree.Union — the fields that either of two trees asks for

The union has the names of the left tree in their order and then those only the right tree has,
in theirs. A name is a leaf only if no side has a branch under it; two branches are united in
turn. Both trees are left as they are.

* `FieldTree.find?_union` — what stands under a name of a union;
* `FieldTree.names_union` — the names of a union, in order.
-/

namespace Lookahead
namespace FieldTree

def union : FieldTree → FieldTree → FieldTree
  | nil, right => right
  | leaf name rest, right =>
      match right.find? name with
      | some (.branch children) => branch name children (rest.union (right.erase name))
      | _ => leaf name (rest.union (right.erase name))
  | branch name children rest, right =>
      match right.find? name with
      | some (.branch other) =>
          branch name (children.union other) (rest.union (right.erase name))
      | _ => branch name children (rest.union (right.erase name))

/-- What two entries under one name come to. A branch is more than a leaf, and a leaf is more
than nothing. -/
def joined : Option Entry → Option Entry → Option Entry
  | some (.branch left), some (.branch right) => some (.branch (left.union right))
  | some .leaf, some (.branch right) => some (.branch right)
  | some left, _ => some left
  | none, right => right

/-! ## Meeting entries -/

/-- What an entry comes to where another tree may have one under the same name. -/
def Entry.meet : Entry → Option Entry → Entry
  | .branch left, some (.branch right) => .branch (left.union right)
  | .leaf, some (.branch right) => .branch right
  | entry, _ => entry

@[simp]
theorem Entry.meet_none (entry : Entry) : entry.meet none = entry := by
  cases entry <;> rfl

@[simp]
theorem Entry.meet_leaf (entry : Entry) : entry.meet (some .leaf) = entry := by
  cases entry <;> rfl

@[simp]
theorem joined_some (entry : Entry) (other : Option Entry) :
    joined (some entry) other = some (entry.meet other) := by
  rcases entry with _ | left <;> rcases other with _ | _ | right <;> rfl

@[simp]
theorem joined_none_left (other : Option Entry) : joined none other = other := by
  rcases other with _ | _ | right <;> rfl

@[simp]
theorem joined_none_right (entry : Option Entry) : joined entry none = entry := by
  rcases entry with _ | _ | left <;> rfl

theorem union_cons (name : String) (entry : Entry) (rest right : FieldTree) :
    (cons name entry rest).union right =
      cons name (entry.meet (right.find? name)) (rest.union (right.erase name)) := by
  cases entry with
  | leaf =>
      simp only [cons, union]
      cases right.find? name with
      | none => rfl
      | some found => cases found <;> rfl
  | branch children =>
      simp only [cons, union]
      cases right.find? name with
      | none => rfl
      | some found => cases found <;> rfl

/-! ## Entries of a union -/

@[simp]
theorem nil_union (tree : FieldTree) : nil.union tree = tree := by
  simp [union]

@[simp]
theorem union_nil (tree : FieldTree) : tree.union nil = tree := by
  induction tree using consInduction with
  | nil =>
      rfl
  | cons n entry rest _ ih =>
      rw [union_cons]
      simp [find?, erase, ih]

theorem find?_union (name : String) (left right : FieldTree) :
    (left.union right).find? name = joined (left.find? name) (right.find? name) := by
  induction left using consInduction generalizing right with
  | nil =>
      simp [find?]
  | cons n entry rest _ ih =>
      rw [union_cons, find?_cons, find?_cons]
      by_cases h : n = name
      · subst h
        simp
      · -- taking another name out of the right tree changes nothing under this one
        have hne : name ≠ n := fun e => h e.symm
        rw [if_neg h, if_neg h, ih, find?_erase, if_neg hne]

private theorem filter_names_erase (name : String) (left : List String) (right : FieldTree) :
    (right.erase name).names.filter (fun n => !left.contains n) =
      right.names.filter (fun n => !(name :: left).contains n) := by
  rw [names_erase, List.filter_filter]
  congr 1
  funext n
  by_cases h : n = name
  · simp [h]
  · simp [h]

theorem names_union (left right : FieldTree) :
    (left.union right).names =
      left.names ++ right.names.filter fun name => !left.names.contains name := by
  induction left using consInduction generalizing right with
  | nil =>
      simp [names, List.filter_eq_self.2]
  | cons n entry rest _ ih =>
      rw [union_cons, names_cons, names_cons, ih, filter_names_erase, List.cons_append]

end FieldTree
end Lookahead
