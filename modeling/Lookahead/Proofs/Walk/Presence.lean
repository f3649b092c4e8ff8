import Lookahead.Proofs.Walk.Entry

/-!
# Presence — which paths a walk's tree has

The tree of a walk is described without the walk: a path is in it exactly if some occurrence of
the path is reached, and it ends in a leaf exactly if none of those occurrences has selections.

* `mem_occurrences_iff` — a walk that ends well has seen all requested occurrences;
* `entry_collect_iff_reached` — the paths of a walk's tree and their kinds.
-/

namespace Lookahead

open FieldTree (gather gather_cons_ok_iff)

variable {context : Context} {limit : Nat} {rule : Rule} {name : String} {path : List String}
  {selections : List Selection} {node : Selection} {tree : FieldTree}

/-! ## Nothing requested is missed -/

/-- Gathering goes well exactly if every contribution does. -/
theorem FieldTree.gather_isOk_iff {α : Type} {contribute : α → Run FieldTree} {items : List α} :
    (∃ tree, (gather contribute items).outcome = .ok tree) ↔
      ∀ item ∈ items, ∃ added, (contribute item).outcome = .ok added := by
  induction items with
  | nil =>
      exact ⟨fun _ _ hmem => (List.not_mem_nil hmem).elim, fun _ => ⟨.nil, rfl⟩⟩
  | cons first items ih =>
      rw [List.forall_mem_cons, ← ih]
      constructor
      · rintro ⟨tree, h⟩
        rcases gather_cons_ok_iff.1 h with ⟨added, others, hadded, hothers, -⟩
        exact ⟨⟨added, hadded⟩, others, hothers⟩
      · rintro ⟨⟨added, hadded⟩, others, hothers⟩
        exact ⟨_, gather_cons_ok_iff.2 ⟨added, others, hadded, hothers, rfl⟩⟩

/-- A walk through part of the selections ends well if the walk through all of them does. -/
theorem collect_isOk_of_subset {fewer : List Selection} (hsub : fewer ⊆ selections)
    (h : (collect context limit rule selections).outcome = .ok tree) :
    ∃ part, (collect context limit rule fewer).outcome = .ok part := by
  cases limit with
  | zero =>
      cases h
  | succ limit =>
      rw [collect_succ] at h ⊢
      have hall := FieldTree.gather_isOk_iff.1 ⟨tree, h⟩
      exact FieldTree.gather_isOk_iff.2 fun selection hmem => hall selection (hsub hmem)

/-- In a walk that ends well each selection has added a tree, in one of the known ways. -/
theorem contributes_of_mem {selection : Selection}
    (h : (collect context (limit + 1) rule selections).outcome = .ok tree)
    (hmem : selection ∈ selections) :
    ∃ added, selection.Contributes context (collect context limit) rule added := by
  rw [collect_succ] at h
  rcases FieldTree.gather_isOk_iff.1 ⟨tree, h⟩ selection hmem with ⟨added, hadded⟩
  exact ⟨added, Selection.contributes_of_ok hadded⟩

/-- In a walk that ends well the walks that its selections lead to have ended well. -/
theorem exists_collect_of_opens {selection : Selection} {inner : Rule} {below : List Selection}
    (h : (collect context (limit + 1) rule selections).outcome = .ok tree)
    (hmem : selection ∈ selections) (hopens : selection.Opens context rule inner below) :
    ∃ found, (collect context limit inner below).outcome = .ok found := by
  rcases contributes_of_mem h hmem with ⟨added, hadded⟩
  exact hadded.isOk_of_opens hopens

theorem mem_fieldsNamed (hfound : FoundField context name selections node)
    (h : (collect context limit rule selections).outcome = .ok tree) :
    node ∈ fieldsNamed context name limit selections := by
  induction hfound generalizing limit tree with
  | @field selections directives selectionSet hmem hadmits =>
      -- without a level to go the walk would have failed
      cases limit with
      | zero =>
          cases h
      | succ limit =>
          refine List.mem_flatMap.2 ⟨_, hmem, ?_⟩
          rw [Selection.fieldsNamed_field hadmits, if_pos rfl]
          exact List.mem_singleton_self _
  | @inlineFragment selections directives selectionSet node hmem hadmits _ ih =>
      cases limit with
      | zero =>
          cases h
      | succ limit =>
          refine List.mem_flatMap.2 ⟨_, hmem, ?_⟩
          rw [Selection.fieldsNamed_inlineFragment hadmits]
          rcases exists_collect_of_opens h hmem (.inlineFragment hadmits) with ⟨found, hwalk⟩
          exact ih hwalk
  | @spread selections spreadName directives fragment node hmem hadmits hdefined _ ih =>
      cases limit with
      | zero =>
          cases h
      | succ limit =>
          refine List.mem_flatMap.2 ⟨_, hmem, ?_⟩
          rw [Selection.fieldsNamed_spread hadmits hdefined]
          rcases exists_collect_of_opens h hmem (.spread hadmits hdefined) with ⟨found, hwalk⟩
          exact ih hwalk

theorem mem_occurrences (hkept : rule.below context.timeout path ≠ .exclude)
    (hrequested : Requested context path selections node)
    (h : (collect context limit rule selections).outcome = .ok tree) :
    node ∈ occurrences context limit path selections := by
  induction hrequested generalizing rule tree with
  | here hfound =>
      exact mem_fieldsNamed hfound h
  | @deeper name path selections parent node hfound hbelow ih =>
      rcases Rule.below_cons_ne_exclude_iff.1 hkept with ⟨hname, hrest⟩
      have hparent := mem_fieldsNamed hfound h
      -- the parent is walked together with all other fields of its name
      rcases find?_collect hname h with ⟨children, hchildren, -⟩
      have hsub : parent.selections ⊆
          selectionsBelow (fieldsNamed context name limit selections) :=
        fun below hmem => List.mem_flatMap.2 ⟨parent, hparent, hmem⟩
      rcases collect_isOk_of_subset hsub hchildren with ⟨part, hpart⟩
      rw [occurrences_cons context limit name hbelow.path_ne_nil]
      exact List.mem_flatMap.2 ⟨parent, hparent, ih hrest hpart⟩

/-- The listed occurrences of a path that is kept are exactly those that are requested. -/
theorem mem_occurrences_iff (hkept : rule.below context.timeout path ≠ .exclude)
    (h : (collect context limit rule selections).outcome = .ok tree) :
    node ∈ occurrences context limit path selections ↔ Requested context path selections node := by
  constructor
  · intro hmem
    exact requested_of_mem hmem
  · intro hrequested
    exact mem_occurrences hkept hrequested h

/-! ## The paths of a walk's tree -/

/-- At every path stands what the occurrences come to that are reached there. -/
theorem get?_collect_eq_entryOf (h : (collect context limit rule selections).outcome = .ok tree)
    (path : List String) :
    ∃ nodes children, tree.get? path = entryOf nodes children ∧
      ∀ node, node ∈ nodes ↔ Reached context rule selections path node := by
  by_cases hpath : path = []
  · refine ⟨[], .nil, by rw [hpath]; rfl, fun node => ?_⟩
    refine ⟨fun hmem => (List.not_mem_nil hmem).elim, fun hreached => ?_⟩
    exact absurd hpath hreached.requested.path_ne_nil
  · by_cases hkept : rule.below context.timeout path = .exclude
    · -- where the rule excludes there is no entry, and nothing is reached
      refine ⟨[], .nil, get?_collect_of_excluded hpath hkept h, fun node => ?_⟩
      refine ⟨fun hmem => (List.not_mem_nil hmem).elim, fun hreached => ?_⟩
      exact absurd hkept hreached.kept
    · rcases get?_collect hpath hkept h with ⟨children, -, hentry⟩
      refine ⟨_, children, hentry, fun node => ?_⟩
      rw [mem_occurrences_iff hkept h]
      exact ⟨fun hrequested => ⟨hrequested, hkept⟩, fun hreached => hreached.requested⟩

theorem isSome_get?_collect_iff (h : (collect context limit rule selections).outcome = .ok tree)
    (path : List String) :
    (tree.get? path).isSome ↔ ∃ node, Reached context rule selections path node := by
  rcases get?_collect_eq_entryOf h path with ⟨nodes, children, hentry, hnodes⟩
  rw [hentry, isSome_entryOf_iff]
  exact exists_congr hnodes

theorem get?_collect_eq_leaf_iff (h : (collect context limit rule selections).outcome = .ok tree)
    (path : List String) :
    tree.get? path = some .leaf ↔
      (∃ node, Reached context rule selections path node) ∧
        ∀ node, Reached context rule selections path node → node.selections = [] := by
  rcases get?_collect_eq_entryOf h path with ⟨nodes, children, hentry, hnodes⟩
  rw [hentry, entryOf_eq_leaf_iff]
  exact and_congr (exists_congr hnodes) (forall_congr' fun node => imp_congr_left (hnodes node))

theorem get?_collect_eq_branch_iff (h : (collect context limit rule selections).outcome = .ok tree)
    (path : List String) :
    (∃ children, tree.get? path = some (.branch children)) ↔
      ∃ node, Reached context rule selections path node ∧ node.selections ≠ [] := by
  rcases get?_collect_eq_entryOf h path with ⟨nodes, below, hentry, hnodes⟩
  rw [hentry, entryOf_eq_branch_iff]
  exact exists_congr fun node => and_congr_left' (hnodes node)

/-- A path is in the tree of a walk exactly if some occurrence of it is reached. It ends in a leaf
exactly if no occurrence reached there has selections, and otherwise in a branch, even if nothing
is left below it. -/
theorem entry_collect_iff_reached
    (h : (collect context limit rule selections).outcome = .ok tree) (path : List String) :
    ((tree.get? path).isSome ↔ ∃ node, Reached context rule selections path node) ∧
      (tree.get? path = some .leaf ↔
        (∃ node, Reached context rule selections path node) ∧
          ∀ node, Reached context rule selections path node → node.selections = []) ∧
      ((∃ children, tree.get? path = some (.branch children)) ↔
        ∃ node, Reached context rule selections path node ∧ node.selections ≠ []) :=
  ⟨isSome_get?_collect_iff h path, get?_collect_eq_leaf_iff h path,
    get?_collect_eq_branch_iff h path⟩

/-! ### A sample query -/

/-- The query `{ a, ...F, a { c @skip(if: $v) } }` with `fragment F { a { b { x } }, d }`. -/
def sampleSelections : List Selection :=
  [.field (some "a") .missing .missing,
    .spread (some "F") .missing,
    .field (some "a") .missing
      (.listed [.field (some "c")
        (.listed [.named "skip" (.listed [.ofVariable "v"])]) .missing])]

def sampleFragment : Fragment :=
  .definition (.listed
    [.field (some "a") .missing
      (.listed [.field (some "b") .missing (.listed [.field (some "x") .missing .missing])]),
    .field (some "d") .missing .missing])

/-- The variable `v` of the query is true. -/
def sampleContext : Context where
  fragments := .table [("F", some sampleFragment)]
  variableValues := .object [("v", .bool true)]
  withDirectives := true
  timeout := .unset

/-- The rule of the patterns `*a.b.x` and `d`. -/
def sampleRule : Rule :=
  .within (.narrow "*a" (.narrow "b" (.exclude "x" .nil) .nil) (.exclude "d" .nil))

/-- Everything below `b` is excluded, so `b` is an empty branch; `d` is not there at all. -/
theorem sample_branch_reached :
    (collect sampleContext 4 sampleRule sampleSelections).outcome =
        .ok (.branch "a" (.branch "b" .nil .nil) .nil) ∧
      (∃ node, Reached sampleContext sampleRule sampleSelections ["a", "b"] node ∧
        node.selections ≠ []) ∧
      ¬ ∃ node, Reached sampleContext sampleRule sampleSelections ["d"] node := by
  have hwalk : (collect sampleContext 4 sampleRule sampleSelections).outcome =
      .ok (.branch "a" (.branch "b" .nil .nil) .nil) := rfl
  have hbranch := (entry_collect_iff_reached hwalk ["a", "b"]).2.2
  have habsent := (entry_collect_iff_reached hwalk ["d"]).1
  refine ⟨hwalk, hbranch.1 ⟨.nil, rfl⟩, ?_⟩
  intro hreached
  exact absurd (habsent.2 hreached) (by decide)

end Lookahead
