import Lookahead.FieldTree.Branch
import Lookahead.FieldTree.Union

/-!
# Union laws — uniting trees in any grouping

A union is worked out entry by entry, and so the laws here are shown: by `consInduction`, through
what is below the first entry and through what follows it. The first entries of three trees meet
in any grouping because the trees below them do.

* `FieldTree.erase_union` — taking a name out of a union takes it out of both trees;
* `FieldTree.union_assoc` — the union is associative, with the order of the names;
* `FieldTree.get?_union` — the entry of a union at a path is what the two entries come to;
* `FieldTree.descend_eq_childrenOf` — going down a path leads below the entry at its end;
* `FieldTree.descend_union` — going down a path and uniting may change places.

None of them needs distinct names.
-/

namespace Lookahead
namespace FieldTree

/-! ## Taking names out -/

theorem erase_idem (name : String) (tree : FieldTree) :
    (tree.erase name).erase name = tree.erase name := by
  refine erase_of_not_mem ?_
  rw [← find?_eq_none_iff, find?_erase, if_pos rfl]

theorem erase_comm (name other : String) (tree : FieldTree) :
    (tree.erase name).erase other = (tree.erase other).erase name := by
  induction tree using consInduction with
  | nil =>
      rfl
  | cons n entry rest _ ih =>
      by_cases h : n = name
      · subst h
        by_cases ho : n = other <;> simp [ho, ih]
      · by_cases ho : n = other
        · subst ho
          simp [h, ih]
        · simp [h, ho, ih]

theorem erase_union (name : String) (left right : FieldTree) :
    (left.union right).erase name = (left.erase name).union (right.erase name) := by
  induction left using consInduction generalizing right with
  | nil =>
      simp [erase]
  | cons n entry rest _ ih =>
      rw [union_cons, erase_cons, erase_cons, ih]
      by_cases h : n = name
      · -- the union had taken the name out of the right tree already
        subst h
        rw [if_pos rfl, if_pos rfl, erase_idem]
      · -- the first entry still meets the same one, since another name is taken out
        rw [if_neg h, if_neg h, union_cons, find?_erase, if_neg h, erase_comm]

/-! ## Grouping -/

/-- Meeting two entries one after the other is meeting what they come to. -/
private theorem meet_meet (entry : Entry) (middle right : Option Entry)
    (hbelow : ∀ children, entry = .branch children →
      ∀ m r, (children.union m).union r = children.union (m.union r)) :
    (entry.meet middle).meet right = entry.meet (joined middle right) := by
  rcases middle with _ | middle
  · rw [joined_none_left, Entry.meet_none]
  · rcases right with _ | right
    · rw [joined_none_right, Entry.meet_none]
    · cases entry with
      | leaf =>
          cases middle <;> cases right <;> rfl
      | branch children =>
          have hassoc := hbelow children rfl
          cases middle <;> cases right <;> simp [Entry.meet, hassoc]

theorem union_assoc (left middle right : FieldTree) :
    (left.union middle).union right = left.union (middle.union right) := by
  -- the right trees change along the way, since names are taken out of them
  induction left using consInduction generalizing middle right with
  | nil =>
      simp
  | cons n entry rest ihbelow ih =>
      -- the first entry meets what the two other trees come to under its name, and the rest is
      -- united with what is left of them without that name
      have hentry := meet_meet entry (middle.find? n) (right.find? n) ihbelow
      calc
        ((cons n entry rest).union middle).union right
            = cons n ((entry.meet (middle.find? n)).meet (right.find? n))
                ((rest.union (middle.erase n)).union (right.erase n)) := by
              rw [union_cons, union_cons]
        _ = cons n (entry.meet (joined (middle.find? n) (right.find? n)))
                (rest.union ((middle.erase n).union (right.erase n))) := by
              rw [hentry, ih]
        _ = (cons n entry rest).union (middle.union right) := by
              rw [union_cons, find?_union, erase_union]

/-! ## Paths -/

@[simp]
theorem get?_nil_path (tree : FieldTree) : tree.get? [] = none := rfl

theorem path_ne_nil_of_get? {path : List String} {tree : FieldTree} {entry : Entry}
    (h : tree.get? path = some entry) : path ≠ [] := by
  rintro rfl
  cases h

@[simp]
theorem get?_singleton (name : String) (tree : FieldTree) : tree.get? [name] = tree.find? name :=
  rfl

@[simp]
theorem nil_get? (path : List String) : nil.get? path = none := by
  rcases path with _ | ⟨name, _ | ⟨next, path⟩⟩ <;> rfl

/-- The tree below an entry, which is empty below a leaf and where there is no entry. -/
def childrenOf : Option Entry → FieldTree
  | some (.branch children) => children
  | _ => nil

theorem get?_cons (name : String) {path : List String} (h : path ≠ []) (tree : FieldTree) :
    tree.get? (name :: path) = (childrenOf (tree.find? name)).get? path := by
  cases path with
  | nil =>
      exact absurd rfl h
  | cons next path =>
      rw [get?]
      rcases tree.find? name with _ | _ | children <;> simp [childrenOf]

theorem descend_cons (name : String) (path : List String) (tree : FieldTree) :
    tree.descend (name :: path) = (childrenOf (tree.find? name)).descend path := by
  rw [descend]
  rcases tree.find? name with _ | _ | children <;> cases path <;> rfl

/-- Going down a path leads below the entry at its end. -/
theorem descend_eq_childrenOf {path : List String} (h : path ≠ []) (tree : FieldTree) :
    tree.descend path = childrenOf (tree.get? path) := by
  induction path generalizing tree with
  | nil =>
      exact absurd rfl h
  | cons name path ih =>
      rw [descend_cons]
      by_cases hend : path = []
      · subst hend
        rfl
      · rw [get?_cons name hend, ih hend]

theorem childrenOf_joined (left right : Option Entry) :
    childrenOf (joined left right) = (childrenOf left).union (childrenOf right) := by
  rcases left with _ | _ | leftBelow <;> rcases right with _ | _ | rightBelow <;>
    simp [childrenOf, Entry.meet]

theorem get?_union (path : List String) (left right : FieldTree) :
    (left.union right).get? path = joined (left.get? path) (right.get? path) := by
  induction path generalizing left right with
  | nil =>
      rfl
  | cons name path ih =>
      by_cases hpath : path = []
      · subst hpath
        exact find?_union name left right
      · simp only [get?_cons name hpath, find?_union, childrenOf_joined, ih]

/-- What is below a path of a union is the union of what is below it in both trees. -/
theorem descend_union (path : List String) (left right : FieldTree) :
    (left.union right).descend path = (left.descend path).union (right.descend path) := by
  by_cases hpath : path = []
  · subst hpath
    rfl
  · simp only [descend_eq_childrenOf hpath, get?_union, childrenOf_joined]

end FieldTree
end Lookahead
