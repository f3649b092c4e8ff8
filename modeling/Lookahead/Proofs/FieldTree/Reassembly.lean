import Lookahead.Proofs.FieldTree.Levels
import Lookahead.Proofs.FieldTree.Rearranged

/-!
# FieldTree.Reassembly — trees that can be put together again from their paths

In level order the paths of an entry are far apart: its own is among those of its level, and those
of the fields below it are spread over the levels underneath. Still they are told from the others
by their first name, and on each level they stand in one piece, so a tree is put together again
entry by entry, from the front. If no branch is empty, a branch shows by the paths that go on below
it, and then the leaves alone say which fields there are and of which kind, though not in which
order.

* `FieldTree.NoEmptyBranch` — all branches have fields below them;
* `FieldTree.pathsAt` — the paths of one level, from left to right;
* `FieldTree.eq_of_pathsAt_eq` — trees with the same levels are the same;
* `FieldTree.kindAt_eq_of_leaves` — trees with the same leaves have equal kinds at all paths.
-/

namespace Lookahead
namespace FieldTree

/-- Below every branch there is a field. -/
def NoEmptyBranch (tree : FieldTree) : Prop :=
  tree.Everywhere fun _ entry => entry ≠ .branch nil

instance : DecidablePred NoEmptyBranch :=
  fun tree => inferInstanceAs (Decidable (tree.Everywhere fun _ entry => entry ≠ .branch nil))

/-- The paths of a level, in the order of the tree. -/
def pathsAt (depth : Nat) (tree : FieldTree) : List (List String) :=
  (tree.level depth).map Place.path

variable {name : String} {entry other : Entry} {tree left right rest others : FieldTree}
  {path below : List String} {depth : Nat}

/-! ## From the leaves to the kinds -/

/-- Where there is a field there is a leaf, at its place or below it. -/
theorem NoEmptyBranch.exists_leaf (h : tree.NoEmptyBranch) (hne : tree ≠ nil) :
    ∃ path, path ≠ [] ∧ tree.kindAt path = some false := by
  induction tree using consInduction with
  | nil =>
      exact absurd rfl hne
  | cons name entry rest ihbelow _ =>
      rcases everywhere_cons.1 h with ⟨hentry, hchildren, -⟩
      cases entry with
      | leaf =>
          exact ⟨[name], by simp, by simp [kindAt_singleton, Entry.isBranch]⟩
      | branch children =>
          have hfields : children ≠ nil := by
            rintro rfl
            exact hentry rfl
          rcases ihbelow children rfl hchildren hfields with ⟨path, hpath, hleaf⟩
          refine ⟨name :: path, by simp, ?_⟩
          rw [kindAt_cons name hpath, find?_cons, if_pos rfl]
          exact hleaf

/-- A branch stands where paths to leaves go on. -/
theorem NoEmptyBranch.kindAt_eq_true_iff (h : tree.NoEmptyBranch) :
    tree.kindAt path = some true ↔
      path ≠ [] ∧ ∃ below, below ≠ [] ∧ tree.kindAt (path ++ below) = some false := by
  constructor
  · intro hkind
    -- a branch is not empty, so there is a leaf somewhere below it
    rcases Option.map_eq_some_iff.1 hkind with ⟨entry, hentry, hbranch⟩
    have hpath : path ≠ [] := path_ne_nil_of_get? hentry
    cases entry with
    | leaf =>
        cases hbranch
    | branch children =>
        rcases Everywhere.of_get? h hentry with ⟨-, ⟨_, hne⟩, hchildren⟩
        have hfields : children ≠ nil := by
          rintro rfl
          exact hne rfl
        rcases NoEmptyBranch.exists_leaf hchildren hfields with ⟨below, hbelow, hleaf⟩
        refine ⟨hpath, below, hbelow, ?_⟩
        rw [kindAt_append hpath hbelow, hentry]
        exact hleaf
  · rintro ⟨hpath, below, hbelow, hleaf⟩
    rw [kindAt_append hpath hbelow] at hleaf
    rw [kindAt]
    -- without a branch at the path nothing is below it
    rcases hentry : tree.get? path with _ | _ | children
    · simp [hentry, childrenOf] at hleaf
    · simp [hentry, childrenOf] at hleaf
    · rfl

theorem kindAt_eq_of_leaves (hl : left.NoEmptyBranch) (hr : right.NoEmptyBranch)
    (h : ∀ path, left.kindAt path = some false ↔ right.kindAt path = some false)
    (path : List String) : left.kindAt path = right.kindAt path := by
  -- the leaves are the same, and the branches are known from the leaves
  apply Option.ext
  intro kind
  cases kind with
  | false =>
      exact h path
  | true =>
      rw [hl.kindAt_eq_true_iff, hr.kindAt_eq_true_iff]
      simp only [h]

/-! ## From the levels to the tree -/

theorem filter_level (found depth : Nat) (tree : FieldTree) :
    (tree.level found).filter (fun place => place.path.length = depth) =
      if found = depth then tree.level depth else [] := by
  split
  · next hsame =>
      subst hsame
      apply List.filter_eq_self.2
      intro place hmem
      simpa using (mem_level_iff.1 hmem).2
  · next hne =>
      apply List.filter_eq_nil_iff.2
      intro place hmem
      simpa [(mem_level_iff.1 hmem).2] using hne

/-- A level is what the level order has at its depth. -/
theorem filter_levelOrder (depth : Nat) (tree : FieldTree) :
    tree.levelOrder.filter (fun place => place.path.length = depth + 1) =
      tree.level (depth + 1) := by
  -- of the first levels only the one at the depth is kept, if it is among them
  have hfirst : ∀ bound,
      ((List.range bound).flatMap fun found => tree.level (found + 1)).filter
          (fun place => place.path.length = depth + 1) =
        if depth < bound then tree.level (depth + 1) else [] := by
    intro bound
    induction bound with
    | zero =>
        rfl
    | succ bound ih =>
        rw [List.range_succ, List.flatMap_append, List.filter_append, ih]
        have hlast := filter_level (bound + 1) (depth + 1) tree
        rcases Nat.lt_trichotomy depth bound with hlt | rfl | hgt
        · have hne : bound ≠ depth := Nat.ne_of_gt hlt
          simp [hlast, hlt, hne, Nat.lt_succ_of_lt hlt]
        · simp [hlast]
        · have hne : bound ≠ depth := Nat.ne_of_lt hgt
          have hle : ¬ depth < bound + 1 := by omega
          simp [hlast, hne, hle, Nat.not_lt_of_gt hgt]
  rw [levelOrder, hfirst]
  split
  · rfl
  · next hdeep =>
      -- a level below the last one is empty
      apply Eq.symm
      apply List.eq_nil_iff_forall_not_mem.2
      intro place hmem
      rcases mem_level_iff.1 hmem with ⟨hplace, hlength⟩
      have hheight := length_le_height hplace
      omega

theorem pathsAt_one_cons :
    (cons name entry rest).pathsAt 1 = [name] :: rest.pathsAt 1 := by
  rw [pathsAt, level_one_cons, List.map_cons, pathsAt]

theorem pathsAt_succ_cons (depth : Nat) :
    (cons name entry rest).pathsAt (depth + 2) =
      ((childrenOf (some entry)).pathsAt (depth + 1)).map (name :: ·) ++
        rest.pathsAt (depth + 2) := by
  simp [pathsAt, level_succ_cons, Function.comp_def, Place.below]

theorem eq_nil_of_pathsAt_one (h : tree.pathsAt 1 = []) : tree = nil := by
  induction tree using consInduction with
  | nil =>
      rfl
  | cons name entry rest _ _ =>
      rw [pathsAt_one_cons] at h
      cases h

/-- Among the paths that begin with a new name in front of a level, the level has none. -/
theorem filter_head_pathsAt (h : name ∉ tree.names) (front : List (List String)) :
    (front.map (name :: ·) ++ tree.pathsAt depth).filter (fun path => path.head? = some name) =
      front.map (name :: ·) := by
  have hfront : (front.map (name :: ·)).filter (fun path => path.head? = some name) =
      front.map (name :: ·) := by
    refine List.filter_eq_self.2 ?_
    intro path hmem
    rcases List.mem_map.1 hmem with ⟨below, -, rfl⟩
    simp
  have hlevel : (tree.pathsAt depth).filter (fun path => path.head? = some name) = [] := by
    refine List.filter_eq_nil_iff.2 ?_
    intro path hmem
    rcases List.mem_map.1 hmem with ⟨place, hplace, rfl⟩
    rcases exists_name_of_mem_places (mem_level_iff.1 hplace).1 with ⟨first, below, hpath, hfirst⟩
    have hne : first ≠ name := by
      rintro rfl
      exact h hfirst
    simp [hpath, hne]
  rw [List.filter_append, hfront, hlevel, List.append_nil]

/-- The paths below the first entry of a tree are told from those of the rest. -/
theorem pathsAt_cons_inj (hleft : name ∉ rest.names) (hright : name ∉ others.names)
    (h : (cons name entry rest).pathsAt (depth + 2) =
      (cons name other others).pathsAt (depth + 2)) :
    (childrenOf (some entry)).pathsAt (depth + 1) = (childrenOf (some other)).pathsAt (depth + 1) ∧
      rest.pathsAt (depth + 2) = others.pathsAt (depth + 2) := by
  rw [pathsAt_succ_cons, pathsAt_succ_cons] at h
  -- the paths that begin with the name stand in front of all others, on both sides
  have hfront := congrArg (List.filter fun path => path.head? = some name) h
  rw [filter_head_pathsAt hleft, filter_head_pathsAt hright] at hfront
  rw [hfront] at h
  have hinjective : Function.Injective (name :: · : List String → List String) :=
    List.cons_injective
  exact ⟨List.map_injective_iff.2 hinjective hfront, List.append_cancel_left h⟩

/-- Trees that have the same levels are the same tree, with the same order of neighbours. -/
theorem eq_of_pathsAt_eq (hl : left.Distinct) (hr : right.Distinct) (hlfull : left.NoEmptyBranch)
    (hrfull : right.NoEmptyBranch)
    (h : ∀ depth, left.pathsAt (depth + 1) = right.pathsAt (depth + 1)) : left = right := by
  -- the first entries are compared and cut off, and then what is left of the levels is compared
  induction left using consInduction generalizing right with
  | nil =>
      exact (eq_nil_of_pathsAt_one (h 0).symm).symm
  | cons n entry rest ihbelow ih =>
      induction right using consInduction with
      | nil =>
          exact eq_nil_of_pathsAt_one (h 0)
      | cons m other others _ _ =>
          rcases distinct_cons.1 hl with ⟨hnew, hentry, hrest⟩
          rcases distinct_cons.1 hr with ⟨hotherNew, hother, hothers⟩
          rcases everywhere_cons.1 hlfull with ⟨hfields, hchildren, hrestFull⟩
          rcases everywhere_cons.1 hrfull with ⟨hotherFields, hotherChildren, hothersFull⟩
          -- the first path of the first level is the name of the first entry
          have hfirst := h 0
          rw [pathsAt_one_cons, pathsAt_one_cons] at hfirst
          injection hfirst with hname hnames
          injection hname with hname
          subst hname
          have hlower := fun depth => pathsAt_cons_inj hnew hotherNew (h (depth + 1))
          have hrests : rest = others := by
            refine ih hrest hothers hrestFull hothersFull ?_
            intro depth
            cases depth with
            | zero => exact hnames
            | succ depth => exact (hlower depth).2
          have hbelow : ∀ depth, (childrenOf (some entry)).pathsAt (depth + 1) =
              (childrenOf (some other)).pathsAt (depth + 1) :=
            fun depth => (hlower depth).1
          -- nothing is below a leaf, and something is below each branch
          have hentries : entry = other := by
            cases entry with
            | leaf =>
                cases other with
                | leaf =>
                    rfl
                | branch below =>
                    have hnil : below = nil := eq_nil_of_pathsAt_one (hbelow 0).symm
                    exact absurd (congrArg Entry.branch hnil) hotherFields
            | branch children =>
                cases other with
                | leaf =>
                    have hnil : children = nil := eq_nil_of_pathsAt_one (hbelow 0)
                    exact absurd (congrArg Entry.branch hnil) hfields
                | branch below =>
                    exact congrArg Entry.branch
                      (ihbelow children rfl hentry hother hchildren hotherChildren hbelow)
          rw [hrests, hentries]

end FieldTree
end Lookahead
