import Lookahead.Proofs.FieldTree.Reassembly
import Lookahead.Proofs.Request.Projection

/-!
# Request.Lossless — reading a tree off its projection

A projection without new names keeps all there is to know about a tree whose names can be written
in paths and whose branches are not empty. With the branches it lists every level in full, and the
levels make up the tree. Without them it still has the leaves, from which every branch follows: the
labels, in whatever order, leave open nothing but the order of neighbours. Each single path can be
read on its own: cut at its points, it leads back to the entry it was written for.

* `FieldTree.Recoverable` — the trees that can be read off their projections;
* `FieldTree.eq_of_levelPaths_eq` — the paths of leaves and branches in order give the tree;
* `FieldTree.rearranged_iff_same_leaves` — the paths of the leaves give it up to rearranging;
* `projection_loses_nothing` — both, for the labels of a projection, with the way back.
-/

namespace Lookahead

namespace FieldTree

/-- All that is needed to read a tree off its written paths. -/
structure Recoverable (tree : FieldTree) : Prop where
  distinct : tree.Distinct
  plain : tree.PlainNames
  noEmptyBranch : tree.NoEmptyBranch

variable {tree left right : FieldTree} {path : String} {names : List String}

/-! ## With the branches -/

/-- If all entries are wanted, the written paths can be cut into the paths of the tree. -/
theorem segments_levelPaths (hd : tree.Distinct) (hplain : tree.PlainNames) :
    (tree.levelPaths true).map Dotted.segments = tree.levelOrder.map Place.path := by
  have hall : tree.levelOrder.filter (fun place => !place.isBranch || true) = tree.levelOrder := by
    simp
  rw [levelPaths, hall, List.map_map]
  apply List.map_congr_left
  intro place hmem
  have hplace := mem_levelOrder_iff.1 hmem
  exact Dotted.segments_intercalate (path_ne_nil_of_mem_places hplace)
    (hplain.of_mem_places hd hplace)

theorem filter_paths_levelOrder (depth : Nat) (tree : FieldTree) :
    (tree.levelOrder.map Place.path).filter (fun path => path.length = depth + 1) =
      tree.pathsAt (depth + 1) := by
  rw [List.filter_map, pathsAt, ← filter_levelOrder]
  rfl

theorem eq_of_levelPaths_eq (hl : left.Recoverable) (hr : right.Recoverable)
    (h : left.levelPaths true = right.levelPaths true) : left = right := by
  have hpaths : left.levelOrder.map Place.path = right.levelOrder.map Place.path := by
    calc
      left.levelOrder.map Place.path
          = (left.levelPaths true).map Dotted.segments :=
            (segments_levelPaths hl.distinct hl.plain).symm
      _ = (right.levelPaths true).map Dotted.segments := by rw [h]
      _ = right.levelOrder.map Place.path := segments_levelPaths hr.distinct hr.plain
  -- a level is found again by the length of its paths
  have hlevels : ∀ depth, left.pathsAt (depth + 1) = right.pathsAt (depth + 1) := by
    intro depth
    rw [← filter_paths_levelOrder, ← filter_paths_levelOrder, hpaths]
  exact eq_of_pathsAt_eq hl.distinct hr.distinct hl.noEmptyBranch hr.noEmptyBranch hlevels

/-! ## Without the branches -/

theorem kindAt_eq_false_iff : tree.kindAt names = some false ↔ tree.get? names = some .leaf := by
  rcases hget : tree.get? names with _ | _ | children <;> simp [kindAt, hget, Entry.isBranch]

theorem mem_leafPaths_iff (hd : tree.Distinct) :
    path ∈ tree.levelPaths false ↔
      ∃ names, tree.kindAt names = some false ∧ path = ".".intercalate names := by
  rw [mem_levelPaths_iff hd]
  constructor
  · rintro ⟨names, entry, hentry, hwanted, rfl⟩
    cases entry with
    | leaf =>
        exact ⟨names, kindAt_eq_false_iff.2 hentry, rfl⟩
    | branch children =>
        cases hwanted rfl
  · rintro ⟨names, hleaf, rfl⟩
    exact ⟨names, .leaf, kindAt_eq_false_iff.1 hleaf, nofun, rfl⟩

/-- A leaf whose path is written for another tree is a leaf of that tree, too. -/
theorem leaf_of_mem_leafPaths (hd : right.Distinct) (hplain : left.PlainNames)
    (hotherPlain : right.PlainNames) (hleaf : left.kindAt names = some false)
    (hmem : ".".intercalate names ∈ right.levelPaths false) : right.kindAt names = some false := by
  rcases (mem_leafPaths_iff hd).1 hmem with ⟨others, hother, hsame⟩
  have hget := kindAt_eq_false_iff.1 hleaf
  have hotherGet := kindAt_eq_false_iff.1 hother
  have hnames : names ≠ [] := path_ne_nil_of_get? hget
  have hothers : others ≠ [] := path_ne_nil_of_get? hotherGet
  -- a written path stands for one path only
  have heq : names = others :=
    Dotted.intercalate_injective hnames hothers (hplain.of_get? hget)
      (hotherPlain.of_get? hotherGet) hsame
  rw [heq]
  exact hother

/-- Trees have the same written paths of leaves exactly if they are equal up to the order of
neighbours. -/
theorem rearranged_iff_same_leaves (hl : left.Recoverable) (hr : right.Recoverable) :
    (∀ path, path ∈ left.levelPaths false ↔ path ∈ right.levelPaths false) ↔
      left.Rearranged right := by
  rw [rearranged_iff hl.distinct hr.distinct]
  constructor
  · intro h
    apply kindAt_eq_of_leaves hl.noEmptyBranch hr.noEmptyBranch
    intro names
    constructor
    · intro hleaf
      have hmem := (mem_leafPaths_iff hl.distinct).2 ⟨names, hleaf, rfl⟩
      exact leaf_of_mem_leafPaths hr.distinct hl.plain hr.plain hleaf ((h _).1 hmem)
    · intro hleaf
      have hmem := (mem_leafPaths_iff hr.distinct).2 ⟨names, hleaf, rfl⟩
      exact leaf_of_mem_leafPaths hl.distinct hr.plain hl.plain hleaf ((h _).2 hmem)
  · intro h path
    rw [mem_leafPaths_iff hl.distinct, mem_leafPaths_iff hr.distinct]
    simp only [h]

end FieldTree

/-! ## The labels -/

/-- A projection without new names can be read back. If it has the branches, equal projections are
those of equal trees. If it has not, projections with the same labels are those of trees that are
equal up to the order of neighbours. And each of its labels is the written path of one entry, to
which the path leads when it is cut at its points. -/
theorem projection_loses_nothing {options : Options} {left right : FieldTree}
    (htransform : options.transform = .object []) (hl : left.Recoverable)
    (hr : right.Recoverable) :
    ∃ leftLabels rightLabels,
      Projection.flatten options left = .ok leftLabels ∧
      Projection.flatten options right = .ok rightLabels ∧
      (options.keepParentField.truthy = true → leftLabels = rightLabels → left = right) ∧
      (options.keepParentField.truthy = false →
        ((∀ label, label ∈ leftLabels ↔ label ∈ rightLabels) ↔ left.Rearranged right)) ∧
      (∀ label, label ∈ leftLabels ↔
        ∃ names entry, left.get? names = some entry ∧
          (entry.isBranch = true → options.keepParentField.truthy = true) ∧
          label = .text (".".intercalate names)) ∧
      ∀ names entry, left.get? names = some entry →
        Dotted.segments (".".intercalate names) = names ∧
          left.subtree (".".intercalate names) = FieldTree.childrenOf (some entry) := by
  have hinjective : Function.Injective Value.text := by
    intro text other hsame
    injection hsame
  refine ⟨_, _, Projection.flatten_eq_levelPaths htransform hl.distinct hl.plain,
    Projection.flatten_eq_levelPaths htransform hr.distinct hr.plain, ?_, ?_, ?_, ?_⟩
  · -- with the branches every level is there, in order
    intro hbranches hlabels
    have hpaths := List.map_injective_iff.2 hinjective hlabels
    rw [hbranches] at hpaths
    exact FieldTree.eq_of_levelPaths_eq hl hr hpaths
  · -- without them the labels are the paths of the leaves
    intro hbranches
    rw [hbranches, ← FieldTree.rearranged_iff_same_leaves hl hr]
    constructor
    · intro h path
      simpa [List.mem_map_of_injective hinjective] using h (.text path)
    · intro h label
      simp only [List.mem_map, h]
  · intro label
    simp only [List.mem_map, FieldTree.mem_levelPaths_iff hl.distinct]
    constructor
    · rintro ⟨path, ⟨names, entry, hentry, hwanted, rfl⟩, rfl⟩
      exact ⟨names, entry, hentry, hwanted, rfl⟩
    · rintro ⟨names, entry, hentry, hwanted, rfl⟩
      exact ⟨_, ⟨names, entry, hentry, hwanted, rfl⟩, rfl⟩
  · intro names entry hentry
    have hnames : names ≠ [] := FieldTree.path_ne_nil_of_get? hentry
    exact ⟨Dotted.segments_intercalate hnames (hl.plain.of_get? hentry),
      FieldTree.subtree_intercalate hl.plain hentry⟩

/-- A branch with two fields, and a leaf behind it. -/
def branchFirst : FieldTree :=
  .branch "a" (.leaf "b" (.leaf "c" .nil)) (.leaf "d" .nil)

/-- The same fields the other way round, at both levels. -/
def branchLast : FieldTree :=
  .leaf "d" (.branch "a" (.leaf "c" (.leaf "b" .nil)) .nil)

/-- From the labels of the leaves it is seen that the two trees have the same fields, and the path
of a field leads to what is below it. -/
theorem sample_read_back :
    branchFirst.Rearranged branchLast ∧
      branchFirst.subtree "a" = .leaf "b" (.leaf "c" .nil) ∧
      branchFirst.subtree "a.c" = .nil := by
  have hfirst : branchFirst.Recoverable :=
    ⟨by simp [branchFirst, FieldTree.Distinct, FieldTree.names], by decide, by decide⟩
  have hlast : branchLast.Recoverable :=
    ⟨by simp [branchLast, FieldTree.Distinct, FieldTree.names], by decide, by decide⟩
  have htransform : (Options.ofFields []).transform = .object [] := rfl
  rcases projection_loses_nothing htransform hfirst hlast with
    ⟨labels, lastLabels, hlabels, hlastLabels, -, hsame, -, hback⟩
  have hpaths : branchFirst.levelPaths false = ["d", "a.b", "a.c"] := by
    decide
  have hlastPaths : branchLast.levelPaths false = ["d", "a.c", "a.b"] := by
    decide
  have hleaves : labels = [.text "d", .text "a.b", .text "a.c"] := by
    rw [Projection.flatten_eq_levelPaths htransform hfirst.distinct hfirst.plain] at hlabels
    injection hlabels with hlabels
    exact hlabels.symm.trans (congrArg (List.map Value.text) hpaths)
  have hlastLeaves : lastLabels = [.text "d", .text "a.c", .text "a.b"] := by
    rw [Projection.flatten_eq_levelPaths htransform hlast.distinct hlast.plain] at hlastLabels
    injection hlastLabels with hlastLabels
    exact hlastLabels.symm.trans (congrArg (List.map Value.text) hlastPaths)
  refine ⟨(hsame rfl).1 ?_, (hback ["a"] _ rfl).2, (hback ["a", "c"] _ rfl).2⟩
  intro label
  rw [hleaves, hlastLeaves]
  exact ((List.Perm.swap (Value.text "a.c") (Value.text "a.b") []).cons (Value.text "d")).mem_iff

end Lookahead
