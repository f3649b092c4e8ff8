import Lookahead.Proofs.FieldTree.Covers

/-!
# FieldTree.Semilattice — a union that keeps the order of its left side

A tree takes nothing in from one that it covers: no name is new, no leaf becomes a branch, and the
names stay where they are. So uniting twice is uniting once, wherever the second time comes, and
with the order of names. Which side comes first decides about that order only.

* `FieldTree.union_eq_left_iff` — a tree takes nothing in exactly if it covers the other one;
* `FieldTree.rearranged_union_swap` — the two sides of a union may change places, up to order;
* `FieldTree.union_semilattice` — the laws of a join, all but one of them with the order.
-/

namespace Lookahead
namespace FieldTree

variable {name : String} {entry : Entry} {tree part left right rest : FieldTree}

/-! ## Covering, entry by entry -/

namespace Covers

theorem eq_nil (h : FieldTree.nil.Covers part) : part = .nil := by
  cases part with
  | nil =>
      rfl
  | leaf name others =>
      have hfirst := h.present [name]
      simp [kindAt_singleton, find?] at hfirst
  | branch name children others =>
      have hfirst := h.present [name]
      simp [kindAt_singleton, find?] at hfirst

/-- Parts of two trees whose paths stand in for paths of the trees are covered as the trees are. -/
theorem of_parts {inner innerPart : FieldTree} (h : tree.Covers part)
    (hpaths : ∀ path, innerPart.kindAt path = none ∨
      ∃ whole, innerPart.kindAt path = part.kindAt whole ∧ inner.kindAt path = tree.kindAt whole) :
    inner.Covers innerPart := by
  constructor
  · intro path hpath
    rcases hpaths path with hnone | ⟨whole, hpart, htree⟩
    · simp [hnone] at hpath
    · simpa only [htree] using h.present whole (by simpa only [hpart] using hpath)
  · intro path hpath
    rcases hpaths path with hnone | ⟨whole, hpart, htree⟩
    · simp [hnone] at hpath
    · simpa only [htree] using h.branch whole (by simpa only [hpart] using hpath)

/-- What is below a name is covered by what is below it in the other tree. -/
theorem below (h : tree.Covers part) (name : String) :
    (childrenOf (tree.find? name)).Covers (childrenOf (part.find? name)) := by
  apply h.of_parts
  intro path
  by_cases hend : path = []
  · exact .inl (by simp [hend])
  · exact .inr ⟨name :: path, (kindAt_cons name hend part).symm, (kindAt_cons name hend tree).symm⟩

/-- What stands behind the first entry of a tree covers all but the name of that entry. -/
theorem behind (h : (cons name entry rest).Covers part) : rest.Covers (part.erase name) := by
  apply h.of_parts
  intro path
  cases path with
  | nil =>
      exact .inl rfl
  | cons first path =>
      by_cases hname : name = first
      · -- the name may occur in `rest` again, but no longer in the part that is covered
        subst hname
        exact .inl (kindAt_erase_self name path part)
      · have hrest : rest.kindAt (first :: path) = (cons name entry rest).kindAt (first :: path) :=
          kindAt_of_find?_eq (by simp [hname]) path
        exact .inr ⟨first :: path, kindAt_erase_of_ne hname path part, hrest⟩

end Covers

/-! ## Nothing to take in -/

/-- The first entry of a tree stays what it is beside an entry that is covered. -/
private theorem meet_of_covers (h : (cons name entry rest).Covers part)
    (hbelow : ∀ children, entry = .branch children → ∀ other : FieldTree, children.Covers other →
      children.union other = children) :
    entry.meet (part.find? name) = entry := by
  cases hfound : part.find? name with
  | none =>
      simp
  | some other =>
      cases other with
      | leaf =>
          simp
      | branch children =>
          have hbranch := h.branch [name]
          have hinside := h.below name
          simp only [kindAt_singleton, hfound, find?_cons, if_true, Option.map_some,
            Entry.isBranch] at hbranch hinside
          -- a branch is only covered by a branch
          cases entry with
          | leaf =>
              simp at hbranch
          | branch mine =>
              have hsame : mine.union children = mine := hbelow mine rfl children hinside
              simp [Entry.meet, hsame]

theorem Covers.union_eq (h : left.Covers right) : left.union right = left := by
  -- along the order of `left`: what it covers loses the name of its first entry at each step
  induction left using consInduction generalizing right with
  | nil =>
      simp [Covers.eq_nil h]
  | cons name entry rest ihbelow ih =>
      have hentry : entry.meet (right.find? name) = entry :=
        meet_of_covers h fun children hchildren _ => ihbelow children hchildren
      have hrest : rest.union (right.erase name) = rest := ih h.behind
      simp only [union_cons, hentry, hrest]

theorem covers_union_left (left right : FieldTree) : (left.union right).Covers left :=
  (covers_union_iff.1 (.refl (left.union right))).1

theorem covers_union_right (left right : FieldTree) : (left.union right).Covers right :=
  (covers_union_iff.1 (.refl (left.union right))).2

/-- A tree is the same after it was united with another one exactly if it covers that. -/
theorem union_eq_left_iff : left.union right = left ↔ left.Covers right := by
  constructor
  · intro h
    have hcovers := covers_union_right left right
    simpa only [h] using hcovers
  · intro h
    exact h.union_eq

/-! ## The laws -/

theorem rearranged_union_swap (hl : left.Distinct) (hr : right.Distinct) :
    (left.union right).Rearranged (right.union left) := by
  have hleft : (left.union right).Covers (right.union left) :=
    covers_union_iff.2 ⟨covers_union_right left right, covers_union_left left right⟩
  have hright : (right.union left).Covers (left.union right) :=
    covers_union_iff.2 ⟨covers_union_right right left, covers_union_left right left⟩
  exact hleft.rearranged (hl.union hr) (hr.union hl) hright

/-- Uniting trees is associative and idempotent, the empty tree is neutral, and what was united
already is absorbed on either side, all of this with the order of names at every level. The two
sides may change places if that order does not matter. -/
theorem union_semilattice {a b : FieldTree} (c : FieldTree) (ha : a.Distinct) (hb : b.Distinct) :
    (a.union b).union c = a.union (b.union c) ∧
      a.union a = a ∧
      (nil.union a = a ∧ a.union nil = a) ∧
      ((a.union b).union a = a.union b ∧ a.union (b.union a) = a.union b) ∧
      (a.union b).Rearranged (b.union a) := by
  have habsorb : (a.union b).union a = a.union b := (covers_union_left a b).union_eq
  refine ⟨union_assoc a b c, (Covers.refl a).union_eq, ⟨nil_union a, union_nil a⟩,
    ⟨habsorb, ?_⟩, rearranged_union_swap ha hb⟩
  calc
    a.union (b.union a) = (a.union b).union a := (union_assoc a b a).symm
    _ = a.union b := habsorb

/-- `x` comes first in one order and last in the other, and it is a branch in both; the third tree
makes `v` a branch too. -/
theorem sample_union_semilattice :
    let a := leaf "x" (branch "y" (leaf "z" nil) nil)
    let b := leaf "y" (leaf "v" (branch "x" (leaf "w" nil) nil))
    let c := branch "v" nil (leaf "x" nil)
    (a.Distinct ∧ b.Distinct) ∧
      (a.union b = branch "x" (leaf "w" nil) (branch "y" (leaf "z" nil) (leaf "v" nil)) ∧
        b.union a = branch "y" (leaf "z" nil) (leaf "v" (branch "x" (leaf "w" nil) nil)) ∧
        (a.union b).Rearranged (b.union a)) ∧
      (a.union (b.union a) = a.union b ∧ (a.union b).union a = a.union b) ∧
      a.union (b.union c) =
        branch "x" (leaf "w" nil) (branch "y" (leaf "z" nil) (branch "v" nil nil)) := by
  intro a b c
  have ha : a.Distinct := by simp [a, Distinct, names]
  have hb : b.Distinct := by simp [b, Distinct, names]
  rcases union_semilattice c ha hb with ⟨hassoc, -, -, ⟨hleft, hright⟩, hswap⟩
  exact ⟨⟨ha, hb⟩, ⟨by decide, by decide, hswap⟩, ⟨hright, hleft⟩, hassoc.symm.trans (by decide)⟩

end FieldTree
end Lookahead
