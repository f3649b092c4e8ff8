import Lookahead.Proofs.Request.Projection

/-!
# Request.Renaming — projections with new names

New names have no influence on which fields are requested, so a projection with new names goes
through the same places as one without. Each leaf is looked up once, under its written path, and all
of them at the same time: a new name is not looked up again. A branch keeps its path, even if there
is a new name for it.

* `ResolverInfo.outcome_requestedTree_of_transform` — the tree does not depend on the new names;
* `projection_renames_leaves` — with new names a projection has the same entries under their new
  names, of which only those are left out whose names are already there.
-/

namespace Lookahead

/-- New names do not change what is requested. -/
theorem ResolverInfo.outcome_requestedTree_of_transform {settings : Settings} {info : ResolverInfo}
    {options otherOptions transform : Value} {parsed : Options}
    (hparsed : Options.ofValue options = .ok parsed)
    (hother : Options.ofValue otherOptions = .ok { parsed with transform := transform }) :
    (info.requestedTree settings otherOptions).outcome =
      (info.requestedTree settings options).outcome := by
  simp only [requestedTree, hparsed, hother]
  rfl

/-- A projection goes through the wanted places of its tree, with new names or without. Without new
names it has the written paths of the places. With new names it has the new names of the leaves and
the written paths of the branches, each where it comes first. If they are all different, every entry
has the place that it has in the projection without new names. -/
theorem projection_renames_leaves {settings : Settings} {info : ResolverInfo}
    {options plainOptions : Value} {parsed : Options} {renamings : List (String × String)}
    {tree : FieldTree} (hparsed : Options.ofValue options = .ok parsed)
    (htransform : parsed.transform = .ofNames renamings)
    (hplainOptions : Options.ofValue plainOptions = .ok { parsed with transform := .object [] })
    (htree : (info.requestedTree settings options).outcome = .ok tree)
    (hplain : tree.PlainNames) :
    (info.projection settings plainOptions).outcome =
        .ok ((tree.wantedPlaces parsed.keepParentField.truthy).map fun place =>
          .text place.written) ∧
      (info.projection settings options).outcome =
        .ok ((tree.levelNames renamings parsed.keepParentField.truthy).eraseDups.map .text) ∧
      ((tree.levelNames renamings parsed.keepParentField.truthy).Nodup →
        (info.projection settings options).outcome =
          .ok ((tree.wantedPlaces parsed.keepParentField.truthy).map fun place =>
            .text (place.renamed renamings))) := by
  have hd := ResolverInfo.distinct_requestedTree htree
  -- both projections are made of one tree
  have hplainTree : (info.requestedTree settings plainOptions).outcome = .ok tree :=
    (ResolverInfo.outcome_requestedTree_of_transform hparsed hplainOptions).trans htree
  have hrenamed : (info.projection settings options).outcome =
      .ok ((tree.levelNames renamings parsed.keepParentField.truthy).eraseDups.map .text) := by
    rw [ResolverInfo.outcome_projection hparsed htree]
    exact Projection.flatten_eq_levelNames htransform hd hplain
  refine ⟨?_, hrenamed, ?_⟩
  · rw [ResolverInfo.outcome_projection hplainOptions hplainTree,
      Projection.flatten_eq_levelPaths rfl hd hplain, FieldTree.levelPaths, List.map_map]
    rfl
  · intro hnodup
    rw [hrenamed, Projection.eraseDups_of_nodup hnodup, FieldTree.levelNames, List.map_map]
    rfl

/-! ### New names in the sample query -/

namespace ResolverInfo

/-- Options with new names, under which a projection holds the branches too. -/
def renamingOptions (renamings : List (String × String)) : Value :=
  .object [(Options.transformKey, .ofNames renamings), (Options.keepParentFieldKey, .bool true)]

/-- What such options are read as. -/
def parsedRenaming (renamings : List (String × String)) : Options :=
  { Options.ofFields [(Options.keepParentFieldKey, .bool true)] with
    transform := .ofNames renamings }

theorem ofValue_renamingOptions (renamings : List (String × String)) :
    Options.ofValue (renamingOptions renamings) = .ok (parsedRenaming renamings) := by
  cases renamings <;> rfl

end ResolverInfo

/-- Two names that change places do so at the same time. Under the other names `a.b.x` has the name
of the branch `a`, which is listed before it and has not become `z`. -/
theorem sample_renamed_leaves :
    (sampleInfo.projection {} (ResolverInfo.renamingOptions [])).outcome =
        .ok [.text "a", .text "d", .text "a.b", .text "a.b.x"] ∧
      (sampleInfo.projection {}
        (ResolverInfo.renamingOptions [("d", "a.b.x"), ("a.b.x", "d")])).outcome =
          .ok [.text "a", .text "a.b.x", .text "a.b", .text "d"] ∧
      (sampleInfo.projection {}
        (ResolverInfo.renamingOptions [("a", "z"), ("d", ""), ("a.b.x", "a")])).outcome =
          .ok [.text "a", .text "d", .text "a.b"] := by
  have hread := ResolverInfo.ofValue_renamingOptions
  have htree (renamings : List (String × String)) :
      (sampleInfo.requestedTree {} (ResolverInfo.renamingOptions renamings)).outcome =
        .ok sampleTree := rfl
  have hplain : sampleTree.PlainNames := by decide
  rcases projection_renames_leaves (hread [("d", "a.b.x"), ("a.b.x", "d")]) rfl (hread [])
    (htree _) hplain with ⟨hunrenamed, -, hswapped⟩
  rcases projection_renames_leaves (hread [("a", "z"), ("d", ""), ("a.b.x", "a")]) rfl (hread [])
    (htree _) hplain with ⟨-, hclash, -⟩
  exact ⟨hunrenamed, hswapped (by decide), hclash⟩

end Lookahead
