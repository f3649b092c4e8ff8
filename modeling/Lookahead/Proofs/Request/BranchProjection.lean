import Lookahead.Proofs.FieldTree.Subtree
import Lookahead.Proofs.Request.Projection

/-!
# Request.BranchProjection — projecting a branch is cutting a prefix off

A projection that asks for a branch need not be made on its own. It has the paths of the whole
projection that begin with the path of the branch and a point, without this beginning and in the
same order. That holds for every text in place of the path: where it leads nowhere, or to a field
with nothing below it, no path begins with it and a point.

* `FieldTree.filterMap_levelPaths` — the written paths of a subtree, level by level;
* `FieldTree.filterMap_levelPaths_eq_nil` — where there are none;
* `projection_of_branch` — the two projections of a request.
-/

namespace Lookahead

namespace FieldTree

variable {tree : FieldTree} {withBranches : Bool} {path : String}

/-- The written paths below a path are those that begin with it and a point. -/
theorem filterMap_levelPaths (hd : tree.Distinct) (hplain : tree.PlainNames)
    (withBranches : Bool) (path : String) :
    (tree.levelPaths withBranches).filterMap (Dotted.rest? path) =
      (tree.descend (Dotted.segments path)).levelPaths withBranches := by
  have hrest : ∀ place ∈ tree.levelOrder.filter fun place => !place.isBranch || withBranches,
      Dotted.rest? path (".".intercalate place.path) =
        (place.within? (Dotted.segments path)).map fun inner => ".".intercalate inner.path := by
    intro place hmem
    have hplace := mem_levelOrder_iff.1 (List.mem_filter.1 hmem).1
    exact rest?_place (path_ne_nil_of_mem_places hplace) (hplain.of_mem_places hd hplace)
  -- a place is a branch no matter from where it is seen
  have hkind : ∀ place inner, Place.within? (Dotted.segments path) place = some inner →
      (!place.isBranch || withBranches) = (!inner.isBranch || withBranches) := by
    intro place inner hinner
    have hsame := (Place.within?_eq_some_iff.1 hinner).2.2
    simp [hsame]
  calc
    (tree.levelPaths withBranches).filterMap (Dotted.rest? path)
        = (tree.levelOrder.filter fun place => !place.isBranch || withBranches).filterMap
            (fun place => Dotted.rest? path (".".intercalate place.path)) := by
          simp only [levelPaths, List.filterMap_map, Function.comp_def]
    _ = ((tree.levelOrder.filter fun place => !place.isBranch || withBranches).filterMap
            (Place.within? (Dotted.segments path))).map
              (fun inner => ".".intercalate inner.path) := by
          rw [List.map_filterMap, List.filterMap_congr hrest]
    _ = (tree.descend (Dotted.segments path)).levelPaths withBranches := by
          rw [filterMap_within?_filter hkind, filterMap_levelOrder hd, levelPaths]

/-- Nothing is written behind a path unless it leads to a branch with fields below it. -/
theorem filterMap_levelPaths_eq_nil (hd : tree.Distinct) (hplain : tree.PlainNames)
    (h : ∀ children, tree.get? (Dotted.segments path) = some (.branch children) → children = nil) :
    (tree.levelPaths withBranches).filterMap (Dotted.rest? path) = [] := by
  have hnothing : childrenOf (tree.get? (Dotted.segments path)) = nil := by
    rcases hget : tree.get? (Dotted.segments path) with _ | _ | children
    · rfl
    · rfl
    · exact h children hget
  rw [filterMap_levelPaths hd hplain, descend_eq_childrenOf (Dotted.segments_ne_nil path), hnothing]
  rfl

/-- No plain name is empty, so a path with an empty segment leads nowhere. -/
theorem PlainNames.get?_of_empty_segment (hplain : tree.PlainNames)
    (hempty : "" ∈ Dotted.segments path) : tree.get? (Dotted.segments path) = none := by
  cases hget : tree.get? (Dotted.segments path) with
  | none => rfl
  | some entry => exact absurd rfl (hplain.of_get? hget "" hempty).1

end FieldTree

/-- With a path that is not empty, a projection without new names has the paths of the projection
without it that begin with the path and a point, in the same order and without this beginning. It
has none if the path leads to no branch or to an empty one, and so if one of its segments is
empty. -/
theorem projection_of_branch {settings : Settings} {info : ResolverInfo}
    {fields : List (String × Value)} {path : String} {tree : FieldTree} (hpath : path ≠ "")
    (hwhole : (Options.ofFields fields).path.truthy = false)
    (htransform : (Options.ofFields fields).transform = .object [])
    (htree : (info.requestedTree settings (.object fields)).outcome = .ok tree)
    (hplain : tree.PlainNames) :
    ∃ paths : List String,
      (info.projection settings (.object fields)).outcome = .ok (paths.map .text) ∧
      (info.projection settings (ResolverInfo.narrowed path fields)).outcome =
        .ok ((paths.filterMap (Dotted.rest? path)).map .text) ∧
      (∀ key rest, Dotted.rest? path key = some rest ↔ key = path ++ "." ++ rest) ∧
      ((∀ children, tree.get? (Dotted.segments path) = some (.branch children) →
        children = .nil) → paths.filterMap (Dotted.rest? path) = []) ∧
      ("" ∈ Dotted.segments path → tree.get? (Dotted.segments path) = none) := by
  have hd := ResolverInfo.distinct_requestedTree htree
  have hparsed : Options.ofValue (.object fields) = .ok (Options.ofFields fields) := by
    cases fields <;> rfl
  have hnarrowed : Options.ofValue (ResolverInfo.narrowed path fields) =
      .ok { Options.ofFields fields with path := .text path } := rfl
  have hbranch : (info.requestedTree settings (ResolverInfo.narrowed path fields)).outcome =
      .ok (tree.descend (Dotted.segments path)) := by
    rw [← FieldTree.subtree_of_ne hpath]
    by_cases hnodes : info.resolvedNodes = []
    · -- without a node both trees are empty
      rw [ResolverInfo.outcome_requestedTree_of_no_node hnodes] at htree ⊢
      cases htree
      rw [FieldTree.subtree_of_ne hpath, FieldTree.descend_nil _ (Dotted.segments_ne_nil path)]
    · exact ResolverInfo.outcome_requestedTree_narrowed hnodes hpath hwhole htree
  have hpaths := Projection.flatten_eq_levelPaths htransform hd hplain
  have hbelow : Projection.flatten { Options.ofFields fields with path := .text path }
      (tree.descend (Dotted.segments path)) = _ :=
    Projection.flatten_eq_levelPaths htransform (hd.descend _) (hplain.descend _)
  refine ⟨tree.levelPaths (Options.ofFields fields).keepParentField.truthy, ?_, ?_, ?_, ?_, ?_⟩
  · rw [ResolverInfo.outcome_projection hparsed htree]
    exact hpaths
  · rw [ResolverInfo.outcome_projection hnarrowed hbranch, hbelow,
      FieldTree.filterMap_levelPaths hd hplain]
  · intro key rest
    exact Dotted.rest?_eq_some_iff
  · exact FieldTree.filterMap_levelPaths_eq_nil hd hplain
  · exact hplain.get?_of_empty_segment

/-- Options under which a projection holds the branches too, and no others. -/
def keepingBranches : List (String × Value) :=
  [(Options.keepParentFieldKey, .bool true)]

theorem outcome_projection_keepingBranches :
    (sampleInfo.projection {} (.object keepingBranches)).outcome =
      .ok (["a", "d", "a.b", "a.b.x"].map .text) := by
  have htree : (sampleInfo.requestedTree {} (.object keepingBranches)).outcome = .ok sampleTree :=
    rfl
  have hplain : sampleTree.PlainNames := by decide
  have hlisted : sampleTree.levelPaths true = ["a", "d", "a.b", "a.b.x"] := by decide
  rw [ResolverInfo.outcome_projection rfl htree, Projection.flatten_eq_levelPaths rfl
    (ResolverInfo.distinct_requestedTree htree) hplain]
  exact congrArg (fun paths => Except.ok (List.map Value.text paths)) hlisted

/-- The paths of the sample query that go on behind `a` are those of `b` and of `x`, and so they are
in the projection of the branch. Nothing goes on behind `d`, which is a leaf. -/
theorem sample_projection_of_branch :
    (sampleInfo.requestedTree {} (.object keepingBranches)).outcome = .ok sampleTree ∧
      (sampleInfo.projection {} (ResolverInfo.narrowed "a" keepingBranches)).outcome =
        .ok [.text "b", .text "b.x"] ∧
      (sampleInfo.projection {} (ResolverInfo.narrowed "d" keepingBranches)).outcome = .ok [] := by
  have htree : (sampleInfo.requestedTree {} (.object keepingBranches)).outcome = .ok sampleTree :=
    rfl
  have hplain : sampleTree.PlainNames := by decide
  -- the labels of the whole projection are known, so the paths of the theorem are
  have hpaths : ∀ paths : List String,
      (sampleInfo.projection {} (.object keepingBranches)).outcome = .ok (paths.map .text) →
        paths = ["a", "d", "a.b", "a.b.x"] := by
    intro paths h
    have hlabels := outcome_projection_keepingBranches.symm.trans h
    injection hlabels with hlabels
    exact (List.map_injective_iff.2 (fun _ _ hsame => Value.text.inj hsame) hlabels).symm
  have ha : "a" ≠ "" := by decide
  have hd : "d" ≠ "" := by decide
  refine ⟨htree, ?_, ?_⟩
  · rcases projection_of_branch ha rfl rfl htree hplain with ⟨paths, hwhole, hbranch, -⟩
    rw [hbranch, hpaths paths hwhole]
    rfl
  · rcases projection_of_branch hd rfl rfl htree hplain with ⟨paths, -, hbranch, -, hnothing, -⟩
    have hleaf : ∀ children,
        sampleTree.get? (Dotted.segments "d") = some (.branch children) → children = .nil := by
      intro children h
      cases h
    rw [hbranch, hnothing hleaf]
    rfl

end Lookahead
