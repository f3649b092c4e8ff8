import Mathlib.Data.List.Induction
import Lookahead.Proofs.FieldTree.Listing
import Lookahead.Proofs.Request.Tree

/-!
# Request.Labels — the labels of a projection

A record of new names is asked once for each leaf, and never for a branch. A projection without new
names that keeps the branches has one label for each path of its tree. What is true of the paths of
trees so becomes true of projections.

* `Projection.foldl_insert_texts` — texts that are added one after the other;
* `Projection.foldlM_add_of_names` — what the listed entries add under a record of new names;
* `Projection.pathLabels` — the labels, each once, in the order of the listing;
* `Projection.mem_pathLabels_iff` — they are the paths of the tree;
* `ResolverInfo.outcome_projection_skipping` — the projection of a request with patterns.
-/

namespace Lookahead

variable {label : Value} {labels : List Value} {tree : FieldTree}
  {renamings : List (String × String)}

/-! ## New names -/

namespace Value

/-- A record of new names. -/
def ofNames (renamings : List (String × String)) : Value :=
  .object (renamings.map fun entry => (entry.1, .text entry.2))

/-- The name in the place of a path: the path itself, unless it has another one. -/
def newName (renamings : List (String × String)) (path : String) : String :=
  match renamings.lookup path with
  | none => path
  | some name => if name = "" then path else name

theorem lookup_names (path : String) (renamings : List (String × String)) :
    lookup path (renamings.map fun entry => (entry.1, .text entry.2)) =
      (renamings.lookup path).map .text := by
  induction renamings with
  | nil =>
      rfl
  | cons entry renamings ih =>
      rcases entry with ⟨key, name⟩
      by_cases hkey : key = path
      · simp [lookup, hkey]
      · have hother : (path == key) = false := beq_eq_false_iff_ne.2 (Ne.symm hkey)
        simp [lookup, List.lookup_cons, hkey, hother, ih]

/-- Under a record of new names every label is a text. -/
theorem label_ofNames (renamings : List (String × String)) (path : String) :
    (ofNames renamings).label path = .ok (.text (newName renamings path)) := by
  simp only [label, ofNames, field?_object, lookup_names, newName]
  cases renamings.lookup path with
  | none =>
      rfl
  | some name =>
      by_cases hname : name = "" <;> simp [orElse, truthy, hname]

end Value

/-- The name under which an entry is listed: a leaf may have a new one, a branch keeps its path. -/
def FieldTree.Item.renamed (renamings : List (String × String)) (item : Item) : String :=
  if item.isBranch then item.path else Value.newName renamings item.path

/-! ## Labels -/

namespace Projection

theorem sameLabel_text_iff {path : String} :
    (Value.text path).sameLabel label = true ↔ label = .text path := by
  cases label with
  | text other =>
      rw [Value.sameLabel, beq_iff_eq, Value.text.injEq]
      exact eq_comm
  | _ =>
      simp [Value.sameLabel, Value.decimal?]

theorem insert_text (names : List String) (name : String) :
    insert (names.map .text) (.text name) =
      (if name ∈ names then names else names ++ [name]).map .text := by
  have hknown : (names.map Value.text).any (Value.text name).sameLabel = true ↔ name ∈ names := by
    simp only [List.any_eq_true, sameLabel_text_iff]
    simp
  simp only [insert, hknown]
  split
  · rfl
  · simp only [List.map_append, List.map_cons, List.map_nil]

/-- Of texts that are added one after the other, each stays where it is added first. -/
theorem foldl_insert_texts (names : List String) :
    names.foldl (fun labels name => insert labels (.text name)) [] =
      names.eraseDups.map .text := by
  induction names using List.reverseRecOn with
  | nil =>
      rfl
  | append_singleton names name ih =>
      -- the last name stays exactly if it is none of those before it
      have hlast : (names ++ [name]).eraseDups =
          if name ∈ names then names.eraseDups else names.eraseDups ++ [name] := by
        rw [List.eraseDups_append]
        split
        · next hmem => simp [List.removeAll, hmem]
        · next hmem => simp [List.removeAll, hmem, List.eraseDups_cons]
      simp only [List.foldl_append, List.foldl_cons, List.foldl_nil, ih, insert_text, hlast,
        List.mem_eraseDups]

/-- The labels of a projection that renames nothing and leaves nothing out. -/
def pathLabels (tree : FieldTree) : List Value :=
  tree.listing.foldl (fun labels item => insert labels (.text item.path)) []

theorem pathLabels_eq (tree : FieldTree) :
    pathLabels tree = (tree.listing.map FieldTree.Item.path).eraseDups.map .text := by
  rw [← foldl_insert_texts, List.foldl_map]
  rfl

/-- The labels are the dotted paths of the entries. -/
theorem mem_pathLabels_iff (h : tree.Distinct) :
    label ∈ pathLabels tree ↔
      ∃ path, (tree.get? path).isSome ∧ label = .text (FieldTree.dotted "" path) := by
  simp only [pathLabels_eq, List.mem_map, List.mem_eraseDups]
  constructor
  · rintro ⟨_, ⟨item, hitem, rfl⟩, rfl⟩
    rcases (FieldTree.mem_listing_iff h).1 hitem with ⟨path, entry, hget, rfl⟩
    exact ⟨path, by rw [hget]; rfl, rfl⟩
  · rintro ⟨path, hsome, rfl⟩
    rcases Option.isSome_iff_exists.1 hsome with ⟨entry, hget⟩
    exact ⟨_, ⟨_, (FieldTree.mem_listing_iff h).2 ⟨path, entry, hget, rfl⟩, rfl⟩, rfl⟩

/-- Whether an entry is listed: a leaf always is, a branch if it is wanted. -/
def lists (options : Options) (item : FieldTree.Item) : Bool :=
  !item.isBranch || options.keepParentField.truthy

/-- Under a record of new names, what is added are the names of the entries that are listed. -/
theorem foldlM_add_of_names {options : Options}
    (htransform : options.transform = .ofNames renamings) (items : List FieldTree.Item)
    (labels : List Value) :
    items.foldlM (add options) labels =
      .ok ((items.filter (lists options)).foldl
        (fun labels item => insert labels (.text (item.renamed renamings))) labels) := by
  induction items generalizing labels with
  | nil =>
      rfl
  | cons item items ih =>
      -- a branch has no new name, and the name of a leaf can always be a label
      have hadd : add options labels item =
          .ok (if lists options item then insert labels (.text (item.renamed renamings))
            else labels) := by
        cases hbranch : item.isBranch with
        | true =>
            simp [add, lists, FieldTree.Item.renamed, hbranch]
        | false =>
            simp only [add, lists, FieldTree.Item.renamed, hbranch, htransform,
              Value.label_ofNames]
            rfl
      simp only [List.foldlM_cons, hadd, List.filter_cons]
      cases lists options item with
      | true => exact ih _
      | false => exact ih labels

theorem foldlM_add {options : Options} (hkeep : options.keepParentField = .bool true)
    (htransform : options.transform = .object []) (items : List FieldTree.Item)
    (labels : List Value) :
    items.foldlM (add options) labels =
      .ok (items.foldl (fun labels item => insert labels (.text item.path)) labels) := by
  have hall : items.filter (lists options) = items := by
    refine List.filter_eq_self.2 ?_
    intro item _
    simp [lists, hkeep, Value.truthy]
  -- the empty record leaves every name as it is
  have hunrenamed : ∀ item : FieldTree.Item, item.renamed [] = item.path := by
    intro item
    simp [FieldTree.Item.renamed, Value.newName]
  have hnames : options.transform = .ofNames [] := htransform
  simp only [foldlM_add_of_names hnames, hall, hunrenamed]

end Projection

/-! ## Requests with patterns -/

namespace Pattern

theorem ofItems_texts (patterns : List String) :
    ofItems (patterns.map Value.text) = .ok patterns := by
  induction patterns with
  | nil =>
      rfl
  | cons pattern patterns ih =>
      rw [List.map_cons, ofItems, ih]
      rfl

end Pattern

namespace ResolverInfo

variable {settings : Settings} {info : ResolverInfo} {patterns : List String}

/-- Options with patterns, under which a projection holds every path. -/
def skipping (patterns : List String) : Value :=
  .object [(Options.skipKey, .array (patterns.map .text)),
    (Options.keepParentFieldKey, .bool true)]

/-- What such options are read as. -/
def parsedSkipping (patterns : List String) : Options :=
  Options.ofFields [(Options.skipKey, .array (patterns.map .text)),
    (Options.keepParentFieldKey, .bool true)]

theorem ofValue_skipping (patterns : List String) :
    Options.ofValue (skipping patterns) = .ok (parsedSkipping patterns) := rfl

theorem patterns_parsedSkipping (patterns : List String) :
    Pattern.ofValue (parsedSkipping patterns).skip = .ok patterns := by
  have hskip : (parsedSkipping patterns).skip = .array (patterns.map .text) := by
    cases patterns <;> rfl
  rw [hskip]
  exact Pattern.ofItems_texts patterns

/-- A request with patterns is one walk under their scope. -/
theorem outcome_requestedTree_skipping (hnodes : info.resolvedNodes ≠ []) :
    (info.requestedTree settings (skipping patterns)).outcome =
      (collect (info.defaultContext settings) settings.nestingLimit
        (.within (Pattern.scope patterns)) (selectionsBelow info.resolvedNodes)).outcome := by
  have hparsed := ofValue_skipping patterns
  have hpatterns := patterns_parsedSkipping patterns
  have hcontext : info.contextOf settings (parsedSkipping patterns) =
      info.defaultContext settings := contextOf_of_default rfl
  -- without a path the whole tree is the wanted branch
  rw [outcome_requestedTree hnodes hparsed hpatterns, hcontext]
  exact bind_pure _

theorem distinct_requestedTree_skipping
    (h : (info.requestedTree settings (skipping patterns)).outcome = .ok tree) :
    tree.Distinct :=
  distinct_requestedTree h

theorem outcome_projection_skipping
    (h : (info.requestedTree settings (skipping patterns)).outcome = .ok tree) :
    (info.projection settings (skipping patterns)).outcome =
      .ok (Projection.pathLabels tree) := by
  rw [projection, Run.outcome_bind_of_ok (ofValue_skipping patterns), Run.outcome_bind_of_ok h,
    Projection.foldlM_add rfl rfl]
  rfl

/-- A projection with patterns has the paths of the tree that is requested with them. -/
theorem projection_skipping_ok_iff {labels : List Value} :
    (info.projection settings (skipping patterns)).outcome = .ok labels ↔
      ∃ tree, (info.requestedTree settings (skipping patterns)).outcome = .ok tree ∧
        labels = Projection.pathLabels tree := by
  constructor
  · intro h
    rcases Run.bind_outcome_eq_ok_iff.1 h with ⟨parsed, _, hrest⟩
    rcases Run.bind_outcome_eq_ok_iff.1 hrest with ⟨tree, htree, _⟩
    rw [outcome_projection_skipping htree] at h
    cases h
    exact ⟨tree, htree, rfl⟩
  · rintro ⟨tree, htree, rfl⟩
    exact outcome_projection_skipping htree

end ResolverInfo

end Lookahead
