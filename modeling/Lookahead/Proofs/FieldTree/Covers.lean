import Lookahead.Proofs.FieldTree.Rearranged

/-!
# FieldTree.Covers — trees that ask for at least as much

A tree covers another one if it has all of its paths, and branches wherever the other one has
branches. The union of two trees is the least tree that covers both, so whoever unites many trees
need not care for their order, nor for how often each of them comes.

* `FieldTree.kindAt_union` — the kinds of a union;
* `FieldTree.Covers` — one tree asks for at least what another one does;
* `FieldTree.covers_union_iff` — what covers a union;
* `FieldTree.Covers.rearranged` — trees that cover each other differ only in order.
-/

namespace Lookahead
namespace FieldTree

/-- The paths of `part` lead somewhere in `tree` as well, and to a branch if they do in `part`. -/
structure Covers (tree part : FieldTree) : Prop where
  present : ∀ path, (part.kindAt path).isSome → (tree.kindAt path).isSome
  branch : ∀ path, part.kindAt path = some true → tree.kindAt path = some true

variable {tree part left right : FieldTree}

/-! ## Unions -/

theorem kindAt_union (path : List String) (left right : FieldTree) :
    (left.union right).kindAt path = (left.kindAt path).merge or (right.kindAt path) := by
  simp only [kindAt, get?_union]
  rcases left.get? path with _ | _ | children <;> rcases right.get? path with _ | _ | below <;> rfl

theorem kindAt_union_isSome_iff (path : List String) (left right : FieldTree) :
    ((left.union right).kindAt path).isSome ↔
      (left.kindAt path).isSome ∨ (right.kindAt path).isSome := by
  simp [kindAt_union]

/-- A path of a union leads to a branch if it does on one side. -/
theorem kindAt_union_eq_true_iff (path : List String) (left right : FieldTree) :
    (left.union right).kindAt path = some true ↔
      left.kindAt path = some true ∨ right.kindAt path = some true := by
  simp only [kindAt_union]
  rcases left.kindAt path with _ | _ | _ <;> rcases right.kindAt path with _ | _ | _ <;> simp

/-! ## Covering -/

namespace Covers

theorem refl (tree : FieldTree) : tree.Covers tree where
  present := fun _ h => h
  branch := fun _ h => h

theorem trans {middle : FieldTree} (h : tree.Covers middle) (hmiddle : middle.Covers part) :
    tree.Covers part where
  present := fun path hpath => h.present path (hmiddle.present path hpath)
  branch := fun path hpath => h.branch path (hmiddle.branch path hpath)

theorem of_kindAt_eq (h : ∀ path, tree.kindAt path = part.kindAt path) : tree.Covers part where
  present := fun path hpath => by simpa only [h path] using hpath
  branch := fun path hpath => (h path).trans hpath

theorem nil (tree : FieldTree) : tree.Covers .nil where
  present := by simp
  branch := by simp

end Covers

/-- Covering a union is covering both of its sides. -/
theorem covers_union_iff :
    tree.Covers (left.union right) ↔ tree.Covers left ∧ tree.Covers right := by
  constructor
  · intro h
    constructor
    · constructor
      · intro path hpath
        exact h.present path ((kindAt_union_isSome_iff path left right).2 (.inl hpath))
      · intro path hpath
        exact h.branch path ((kindAt_union_eq_true_iff path left right).2 (.inl hpath))
    · constructor
      · intro path hpath
        exact h.present path ((kindAt_union_isSome_iff path left right).2 (.inr hpath))
      · intro path hpath
        exact h.branch path ((kindAt_union_eq_true_iff path left right).2 (.inr hpath))
  · intro h
    rcases h with ⟨hleft, hright⟩
    constructor
    · intro path hpath
      rcases (kindAt_union_isSome_iff path left right).1 hpath with hside | hside
      · exact hleft.present path hside
      · exact hright.present path hside
    · intro path hpath
      rcases (kindAt_union_eq_true_iff path left right).1 hpath with hside | hside
      · exact hleft.branch path hside
      · exact hright.branch path hside

/-- Trees that cover each other have the same fields, of the same kinds. -/
theorem Covers.rearranged (hl : left.Distinct) (hr : right.Distinct) (hleft : left.Covers right)
    (hright : right.Covers left) : left.Rearranged right := by
  apply rearranged_of_kindAt_eq hl hr
  intro path
  have hpresent : (left.kindAt path).isSome = (right.kindAt path).isSome := by
    apply Bool.eq_iff_iff.2
    exact ⟨hright.present path, hleft.present path⟩
  have hbranch : left.kindAt path = some true ↔ right.kindAt path = some true :=
    ⟨hright.branch path, hleft.branch path⟩
  -- where a path leads to something, it is a branch or a leaf
  rcases hkind : left.kindAt path with _ | _ | _ <;>
    rcases hother : right.kindAt path with _ | _ | _ <;> simp_all

theorem Rearranged.covers (hl : left.Distinct) (h : left.Rearranged right) : left.Covers right :=
  .of_kindAt_eq (h.kindAt_eq hl)

end FieldTree
end Lookahead
