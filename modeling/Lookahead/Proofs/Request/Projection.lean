import Lookahead.Proofs.FieldTree.Levels
import Lookahead.Proofs.Request.Branch
import Lookahead.Proofs.Request.Labels

/-!
# Request.Projection — the paths of the requested fields, level by level

A projection without new names writes down the paths of its tree: first those of the fields right
below the root, then those one level further down, and so on, each level from left to right. Leaves
are always written down, branches if they are wanted. As long as the names can be written in paths,
different entries have different paths, so no path takes the place of another. With new names that
may happen, and then the earlier entry stays.

* `FieldTree.levelPaths`, `FieldTree.levelNames` — the written paths of a tree, level by level, and
  the names that take their places;
* `Projection.flatten` — the labels of a tree;
* `Projection.flatten_eq_levelNames` — they are the names, each at its first place;
* `Projection.flatten_eq_levelPaths` — without new names they are the written paths;
* `projection_eq_levelPaths` — the projection of a request.
-/

namespace Lookahead

namespace FieldTree

variable {tree : FieldTree} {withBranches : Bool} {path : String}
  {renamings : List (String × String)}

/-- The written paths of the leaves of a tree, and of its branches if they are wanted, level by
level and from left to right. -/
def levelPaths (withBranches : Bool) (tree : FieldTree) : List String :=
  (tree.levelOrder.filter fun place => !place.isBranch || withBranches).map fun place =>
    ".".intercalate place.path

/-- The path of a place, written with points between its names. -/
def Place.written (place : Place) : String :=
  ".".intercalate place.path

/-- The name of a place in a projection: that of a leaf may be a new one, that of a branch is its
written path. -/
def Place.renamed (renamings : List (String × String)) (place : Place) : String :=
  if place.isBranch then place.written else Value.newName renamings place.written

/-- The places of the leaves of a tree, and of its branches if they are wanted, level by level. -/
def wantedPlaces (withBranches : Bool) (tree : FieldTree) : List Place :=
  tree.levelOrder.filter fun place => !place.isBranch || withBranches

/-- The names of the wanted places. -/
def levelNames (renamings : List (String × String)) (withBranches : Bool) (tree : FieldTree) :
    List String :=
  (tree.wantedPlaces withBranches).map (Place.renamed renamings)

theorem levelNames_nil : tree.levelNames [] withBranches = tree.levelPaths withBranches := by
  apply List.map_congr_left
  intro place _
  simp [Place.renamed, Place.written, Value.newName]

theorem nodup_levelPaths (hd : tree.Distinct) (hplain : tree.PlainNames) :
    (tree.levelPaths withBranches).Nodup := by
  refine List.Nodup.map_on ?_ (hd.nodup_levelOrder.filter _)
  intro place hplace other hother hsame
  have hmem := mem_levelOrder_iff.1 (List.mem_filter.1 hplace).1
  have hotherMem := mem_levelOrder_iff.1 (List.mem_filter.1 hother).1
  have hpath : place.path = other.path :=
    Dotted.intercalate_injective (path_ne_nil_of_mem_places hmem)
      (path_ne_nil_of_mem_places hotherMem) (hplain.of_mem_places hd hmem)
      (hplain.of_mem_places hd hotherMem) hsame
  -- the entry at a path is one, and so is its kind
  rcases (mem_places_iff hd).1 hmem with ⟨entry, hentry, hkind⟩
  rcases (mem_places_iff hd).1 hotherMem with ⟨otherEntry, hotherEntry, hotherKind⟩
  rw [hpath, hotherEntry] at hentry
  cases hentry
  have hkinds : place.isBranch = other.isBranch := hkind.symm.trans hotherKind
  cases place
  cases other
  simpa using ⟨hpath, hkinds⟩

/-- A written path is there exactly if it is that of an entry that is wanted. -/
theorem mem_levelPaths_iff (hd : tree.Distinct) :
    path ∈ tree.levelPaths withBranches ↔
      ∃ names entry, tree.get? names = some entry ∧
        (entry.isBranch = true → withBranches = true) ∧ path = ".".intercalate names := by
  constructor
  · intro hmem
    rcases List.mem_map.1 hmem with ⟨place, hplace, rfl⟩
    rcases List.mem_filter.1 hplace with ⟨hlevel, hwanted⟩
    rcases (mem_places_iff hd).1 (mem_levelOrder_iff.1 hlevel) with ⟨entry, hentry, hkind⟩
    refine ⟨place.path, entry, hentry, ?_, rfl⟩
    intro hbranch
    simpa [← hkind, hbranch] using hwanted
  · intro h
    rcases h with ⟨names, entry, hentry, hwanted, rfl⟩
    have hplace := mem_levelOrder_iff.2 (mem_places_of_get? hentry)
    refine List.mem_map.2 ⟨_, List.mem_filter.2 ⟨hplace, ?_⟩, rfl⟩
    cases hbranch : entry.isBranch with
    | false => rfl
    | true => simp [hwanted hbranch]

end FieldTree

/-! ## The labels of a tree -/

namespace Projection

variable {options : Options} {tree : FieldTree} {renamings : List (String × String)}

/-- The labels of the entries of a tree, as they are listed. -/
def flatten (options : Options) (tree : FieldTree) : Except Failure (List Value) :=
  tree.listing.foldlM (add options) []

theorem eraseDups_of_nodup {names : List String} (h : names.Nodup) : names.eraseDups = names := by
  induction names with
  | nil =>
      rfl
  | cons name names ih =>
      rcases List.nodup_cons.1 h with ⟨hother, hrest⟩
      have hkept : (names.filter fun other => !other == name) = names := by
        refine List.filter_eq_self.2 ?_
        intro other hmem
        have hne : other ≠ name := ne_of_mem_of_not_mem hmem hother
        simpa using hne
      simp only [List.eraseDups_cons, hkept, ih hrest]

/-- The labels of a tree are the names of its wanted places, each where it comes first. -/
theorem flatten_eq_levelNames (htransform : options.transform = .ofNames renamings)
    (hd : tree.Distinct) (hplain : tree.PlainNames) :
    flatten options tree =
      .ok ((tree.levelNames renamings options.keepParentField.truthy).eraseDups.map .text) := by
  have hlisted : (tree.listing.filter (lists options)).map (FieldTree.Item.renamed renamings) =
      tree.levelNames renamings options.keepParentField.truthy := by
    rw [FieldTree.listing_eq_levelOrder, List.filter_map, List.map_map]
    refine List.map_congr_left ?_
    intro place hmem
    have hplace := FieldTree.mem_levelOrder_iff.1 (List.mem_filter.1 hmem).1
    have hpath : FieldTree.dotted "" place.path = place.written :=
      FieldTree.dotted_eq_intercalate (hplain.of_mem_places hd hplace)
    simp only [Function.comp_apply, FieldTree.Place.item, FieldTree.Item.renamed, hpath,
      FieldTree.Place.renamed]
  calc
    flatten options tree
        = .ok ((tree.listing.filter (lists options)).foldl
            (fun labels item => insert labels (.text (item.renamed renamings))) []) :=
          foldlM_add_of_names htransform tree.listing []
    _ = .ok ((tree.levelNames renamings options.keepParentField.truthy).foldl
            (fun labels name => insert labels (.text name)) []) := by
          rw [← hlisted, List.foldl_map]
    _ = .ok ((tree.levelNames renamings options.keepParentField.truthy).eraseDups.map .text) := by
          rw [foldl_insert_texts]

/-- Without new names the labels of a tree are its written paths. -/
theorem flatten_eq_levelPaths (htransform : options.transform = .object [])
    (hd : tree.Distinct) (hplain : tree.PlainNames) :
    flatten options tree =
      .ok ((tree.levelPaths options.keepParentField.truthy).map .text) := by
  have hnames : options.transform = .ofNames [] := htransform
  have hnodup : (tree.levelPaths options.keepParentField.truthy).Nodup :=
    FieldTree.nodup_levelPaths hd hplain
  rw [flatten_eq_levelNames hnames hd hplain, FieldTree.levelNames_nil, eraseDups_of_nodup hnodup]

end Projection

/-! ## The projection of a request -/

namespace ResolverInfo

variable {settings : Settings} {info : ResolverInfo} {options : Value} {parsed : Options}
  {tree : FieldTree}

/-- A projection has the labels of the tree that is requested with its options. -/
theorem outcome_projection (hparsed : Options.ofValue options = .ok parsed)
    (htree : (info.requestedTree settings options).outcome = .ok tree) :
    (info.projection settings options).outcome = Projection.flatten parsed tree := by
  rw [projection, Run.outcome_bind_of_ok hparsed, Run.outcome_bind_of_ok htree]
  rfl

end ResolverInfo

/-- A projection without new names goes through the tree of its request level by level, each level
from left to right, and has the written paths of its leaves, and those of its branches if they are
wanted. It has every such path, and none of them twice. -/
theorem projection_eq_levelPaths {settings : Settings} {info : ResolverInfo} {options : Value}
    {parsed : Options} {tree : FieldTree} (hparsed : Options.ofValue options = .ok parsed)
    (htransform : parsed.transform = .object [])
    (htree : (info.requestedTree settings options).outcome = .ok tree)
    (hplain : tree.PlainNames) :
    (info.projection settings options).outcome =
        .ok ((tree.levelPaths parsed.keepParentField.truthy).map .text) ∧
      (tree.levelPaths parsed.keepParentField.truthy).Nodup ∧
      ∀ path, path ∈ tree.levelPaths parsed.keepParentField.truthy ↔
        ∃ names entry, tree.get? names = some entry ∧
          (entry.isBranch = true → parsed.keepParentField.truthy = true) ∧
          path = ".".intercalate names := by
  have hd := ResolverInfo.distinct_requestedTree htree
  refine ⟨?_, FieldTree.nodup_levelPaths hd hplain, ?_⟩
  · rw [ResolverInfo.outcome_projection hparsed htree]
    exact Projection.flatten_eq_levelPaths htransform hd hplain
  · intro path
    exact FieldTree.mem_levelPaths_iff hd

/-- With everything below `a.b` left out, the sample query has an empty branch there. It is listed
behind `d`, which is one level higher. -/
theorem sample_projection :
    (sampleInfo.requestedTree {} (ResolverInfo.skipping ["a.b.x"])).outcome =
        .ok (.branch "a" (.branch "b" .nil .nil) (.leaf "d" .nil)) ∧
      (sampleInfo.projection {} (ResolverInfo.skipping ["a.b.x"])).outcome =
        .ok [.text "a", .text "d", .text "a.b"] := by
  have hparsed := ResolverInfo.ofValue_skipping ["a.b.x"]
  have htree : (sampleInfo.requestedTree {} (ResolverInfo.skipping ["a.b.x"])).outcome =
      .ok (.branch "a" (.branch "b" .nil .nil) (.leaf "d" .nil)) := rfl
  have hplain : (FieldTree.branch "a" (.branch "b" .nil .nil) (.leaf "d" .nil)).PlainNames := by
    decide
  have hprojection := projection_eq_levelPaths hparsed rfl htree hplain
  have hpaths : (FieldTree.branch "a" (.branch "b" .nil .nil) (.leaf "d" .nil)).levelPaths true =
      ["a", "d", "a.b"] := by
    decide
  refine ⟨htree, ?_⟩
  rw [hprojection.1]
  exact congrArg (fun paths => Except.ok (List.map Value.text paths)) hpaths

end Lookahead
