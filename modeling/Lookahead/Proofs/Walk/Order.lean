import Lookahead.Proofs.Walk.Visit

/-!
# Order — names stand in the order in which they were first asked for

A tree is put together from many smaller ones: fields come again, fragments add to what is there,
and a leaf becomes a branch later on. None of this moves a name. At every level the names stand in
the order in which the walk first came to a field of that name there, however far apart its visits
are.

* `Visit.nameAt` — the name that a visit asks for at a place;
* `FieldTree.names_union_eraseDups` — the names of a union, if both trees have theirs in order;
* `names_descend_collect` — the names at any place of a walk's tree;
* `names_in_order_of_visits` — the same for each branch, with what the visits are.
-/

namespace Lookahead

namespace Selection

/-- The name of a field. -/
def fieldName? : Selection → Option String
  | field name _ _ => name
  | _ => none

end Selection

/-- The name that a visit asks for right below a path: that of a field with this path around it. -/
def Visit.nameAt (path : List String) (visit : Visit) : Option String :=
  if visit.around = path then visit.node.fieldName? else none

/-! ## Names in order -/

/-- Dropping repetitions and leaving out members may be done in any order. -/
theorem eraseDups_filter (p : String → Bool) : ∀ items : List String,
    (items.filter p).eraseDups = items.eraseDups.filter p
  | [] => by simp
  | item :: items => by
      -- what goes on behind a member is the rest of the list without it, so the recursion is on
      -- the length
      have hrest := eraseDups_filter p (items.filter fun other => !other == item)
      by_cases hitem : p item = true
      · have hcomm : (items.filter fun other => !other == item).filter p =
            (items.filter p).filter fun other => !other == item := by
          simp only [List.filter_filter, Bool.and_comm]
        rw [List.filter_cons_of_pos hitem, List.eraseDups_cons, List.eraseDups_cons,
          List.filter_cons_of_pos hitem, ← hrest, hcomm]
      · -- the item is left out anyway, so it need not be dropped as well
        have hsame : (items.filter fun other => !other == item).filter p = items.filter p := by
          rw [List.filter_filter]
          refine List.filter_congr ?_
          intro other _
          by_cases hother : other = item <;> simp [hother, hitem]
        rw [List.filter_cons_of_neg hitem, List.eraseDups_cons, List.filter_cons_of_neg hitem,
          ← hrest, hsame]
termination_by items => items.length
decreasing_by exact Nat.lt_succ_of_le (List.length_filter_le _ _)

/-- If two trees have their names in the order of some lists, their union has them in the order of
both lists together. -/
theorem FieldTree.names_union_eraseDups {left right : FieldTree} {front back : List String}
    (hleft : left.names = front.eraseDups) (hright : right.names = back.eraseDups) :
    (left.union right).names = (front ++ back).eraseDups := by
  have hnew : (back.eraseDups.filter fun name => !front.eraseDups.contains name) =
      (back.filter fun name => !front.contains name).eraseDups := by
    rw [eraseDups_filter]
    refine List.filter_congr ?_
    intro name _
    simp [List.mem_eraseDups]
  rw [FieldTree.names_union, hleft, hright, hnew, List.eraseDups_append]
  simp [List.removeAll]

/-! ## Visits below a field -/

variable {context : Context} {limit : Nat} {rule : Rule} {name : String}
  {selections : List Selection} {selection : Selection} {tree : FieldTree}

@[simp]
theorem Visit.nameAt_below_nil (name : String) (visit : Visit) :
    (visit.below name).nameAt [] = none := by
  simp [nameAt, below]

theorem filterMap_nameAt_below_nil (name : String) (visited : List Visit) :
    (visited.map (Visit.below name)).filterMap (Visit.nameAt []) = [] := by
  simp

/-- Seen from above a field, the visits below it ask for names only at paths through it. -/
theorem Visit.nameAt_below_cons (name next : String) (path : List String) (visit : Visit) :
    (visit.below name).nameAt (next :: path) = if name = next then visit.nameAt path else none := by
  by_cases h : name = next <;> simp [nameAt, below, h]

theorem filterMap_nameAt_below (name next : String) (path : List String) (visited : List Visit) :
    (visited.map (Visit.below name)).filterMap (Visit.nameAt (next :: path)) =
      if name = next then visited.filterMap (Visit.nameAt path) else [] := by
  have hbelow : Visit.nameAt (next :: path) ∘ Visit.below name =
      fun visit => if name = next then visit.nameAt path else none := by
    funext visit
    exact visit.nameAt_below_cons name next path
  rw [List.filterMap_map, hbelow]
  by_cases h : name = next <;> simp [h]

theorem filterMap_nameAt_cons_of_not_field (path : List String) (visited : List Visit)
    (h : selection.fieldName? = none) :
    (⟨[], selection⟩ :: visited).filterMap (Visit.nameAt path) =
      visited.filterMap (Visit.nameAt path) := by
  refine List.filterMap_cons_none ?_
  simp [Visit.nameAt, h]

/-! ## The names of a walk's tree -/

namespace Selection

/-- What a selection adds has its names in the order of its visits, if this is so below it. -/
theorem Contributes.names_descend
    (hinside : ∀ inner below found, (collect context limit inner below).outcome = .ok found →
      ∀ path, (found.descend path).names =
        ((Lookahead.visits context limit inner below).filterMap (Visit.nameAt path)).eraseDups)
    (h : Contributes context (collect context limit) rule selection tree) (path : List String) :
    (tree.descend path).names =
      ((selection.visits context (Lookahead.visits context limit) rule).filterMap
        (Visit.nameAt path)).eraseDups := by
  -- what adds nothing has no names anywhere
  have hnone : (FieldTree.nil.descend path).names = ([] : List String).eraseDups := by
    cases path <;> rfl
  cases h with
  | leftOut hadmits =>
      simpa [visits_of_leftOut hadmits] using hnone
  | excluded hadmits hverdict =>
      simpa [visits_field_of_excluded hadmits hverdict] using hnone
  | @leaf name directives set hadmits hverdict hempty =>
      rw [visits_field_of_kept hadmits hverdict, hempty]
      cases path with
      | nil =>
          have hself : Visit.nameAt [] ⟨[], field (some name) directives set⟩ = some name := rfl
          rw [List.filterMap_cons_some hself]
          simp [FieldTree.descend, FieldTree.names, List.eraseDups_cons]
      | cons next path =>
          have hleaf : (FieldTree.leaf name .nil).descend (next :: path) = .nil := by
            by_cases hname : name = next <;> simp [FieldTree.descend, FieldTree.find?, hname]
          simp [Visit.nameAt, hleaf, FieldTree.names]
  | @branch name directives set children hadmits hverdict _ hwalk =>
      rw [visits_field_of_kept hadmits hverdict]
      cases path with
      | nil =>
          have hself : Visit.nameAt [] ⟨[], field (some name) directives set⟩ = some name := rfl
          rw [List.filterMap_cons_some hself, filterMap_nameAt_below_nil]
          simp [FieldTree.descend, FieldTree.names, List.eraseDups_cons]
      | cons next path =>
          have hself : Visit.nameAt (next :: path) ⟨[], field (some name) directives set⟩ = none :=
            rfl
          rw [List.filterMap_cons_none hself, filterMap_nameAt_below]
          by_cases hname : name = next
          · have hchildren := hinside _ _ _ hwalk path
            simpa [FieldTree.descend, FieldTree.find?, hname] using hchildren
          · have hother : (FieldTree.branch name children .nil).descend (next :: path) = .nil := by
              simp [FieldTree.descend, FieldTree.find?, hname]
            simp [hname, hother, FieldTree.names]
  | inlineFragment hadmits hwalk =>
      rw [visits_inlineFragment hadmits, filterMap_nameAt_cons_of_not_field _ _ rfl]
      exact hinside _ _ _ hwalk path
  | spread hadmits hdefined hwalk =>
      rw [visits_spread_of_defined hadmits hdefined, filterMap_nameAt_cons_of_not_field _ _ rfl]
      exact hinside _ _ _ hwalk path
  | undefined hadmits hundefined =>
      rw [visits_spread_of_undefined hadmits hundefined, filterMap_nameAt_cons_of_not_field _ _ rfl]
      exact hnone
  | other hadmits =>
      rw [visits_other hadmits, filterMap_nameAt_cons_of_not_field _ _ rfl]
      exact hnone
  | value hadmits =>
      rw [visits_value hadmits, filterMap_nameAt_cons_of_not_field _ _ rfl]
      exact hnone

end Selection

/-- At every place of a walk's tree the names stand in the order of the visits there. -/
theorem names_descend_collect (h : (collect context limit rule selections).outcome = .ok tree)
    (path : List String) :
    (tree.descend path).names =
      ((visits context limit rule selections).filterMap (Visit.nameAt path)).eraseDups := by
  refine collect_induction (motive := fun limit rule selections tree => ∀ path,
    (tree.descend path).names =
      ((visits context limit rule selections).filterMap (Visit.nameAt path)).eraseDups) ?_ ?_ h path
  · intro limit rule path
    cases path <;> rfl
  · intro limit rule selection selections first others hcase hbelow ih path
    have hfirst := hcase.names_descend hbelow path
    have hothers := ih path
    have hvisits : visits context (limit + 1) rule (selection :: selections) =
        selection.visits context (visits context limit) rule ++
          visits context (limit + 1) rule selections := List.flatMap_cons
    rw [FieldTree.descend_union, FieldTree.names_union_eraseDups hfirst hothers, hvisits,
      List.filterMap_append]

/-- The visits of a walk list its fields as it comes to them: depth first, from left to right, with
fragments expanded in place. They are the reached occurrences, and at the root of the tree and in
each of its branches the names stand in the order in which the walk first comes to them there. -/
theorem names_in_order_of_visits (h : (collect context limit rule selections).outcome = .ok tree) :
    (∀ around name directives selectionSet,
      ⟨around, .field (some name) directives selectionSet⟩ ∈
          visits context limit rule selections ↔
        Reached context rule selections (around ++ [name])
          (.field (some name) directives selectionSet)) ∧
      tree.names =
        ((visits context limit rule selections).filterMap (Visit.nameAt [])).eraseDups ∧
      ∀ path children, tree.get? path = some (.branch children) →
        children.names =
          ((visits context limit rule selections).filterMap (Visit.nameAt path)).eraseDups := by
  refine ⟨?_, ?_, ?_⟩
  · intro around name directives selectionSet
    exact mem_visits_iff h
  · exact names_descend_collect h []
  · intro path children hbranch
    have hpath : path ≠ [] := FieldTree.path_ne_nil_of_get? hbranch
    have hdescend : tree.descend path = children := by
      rw [FieldTree.descend_eq_childrenOf hpath, hbranch]
      rfl
    rw [← hdescend]
    exact names_descend_collect h path

/-! ### A query that asks again -/

/-- The query `{ b, ...G, a { z }, b { y, x } }`. -/
def repeatedSelections : List Selection :=
  [.field (some "b") .missing .missing,
    .spread (some "G") .missing,
    .field (some "a") .missing (.listed [.field (some "z") .missing .missing]),
    .field (some "b") .missing
      (.listed [.field (some "y") .missing .missing, .field (some "x") .missing .missing])]

/-- Its fragment `G { a, b { x, w } }`. -/
def repeatedContext : Context where
  fragments := .table [("G", some (.definition (.listed
    [.field (some "a") .missing .missing,
      .field (some "b") .missing
        (.listed [.field (some "x") .missing .missing, .field (some "w") .missing .missing])])))]
  variableValues := .null
  withDirectives := true
  timeout := .unset

/-- The field `b` comes first, as a leaf. What is below it was first asked for inside the fragment,
so `x` and `w` stand before `y`. -/
theorem sample_names_in_order :
    (collect repeatedContext 3 .keep repeatedSelections).outcome =
        .ok (.branch "b" (.leaf "x" (.leaf "w" (.leaf "y" .nil)))
          (.branch "a" (.leaf "z" .nil) .nil)) ∧
      (visits repeatedContext 3 .keep repeatedSelections).filterMap (Visit.nameAt ["b"]) =
        ["x", "w", "y", "x"] ∧
      ["x", "w", "y"] = ["x", "w", "y", "x"].eraseDups ∧
      Reached repeatedContext .keep repeatedSelections ["b", "y"]
        (.field (some "y") .missing .missing) := by
  have hwalk : (collect repeatedContext 3 .keep repeatedSelections).outcome =
      .ok (.branch "b" (.leaf "x" (.leaf "w" (.leaf "y" .nil)))
        (.branch "a" (.leaf "z" .nil) .nil)) := rfl
  have hvisits : (visits repeatedContext 3 .keep repeatedSelections).filterMap
      (Visit.nameAt ["b"]) = ["x", "w", "y", "x"] := rfl
  rcases names_in_order_of_visits hwalk with ⟨hreached, -, hbranches⟩
  have hnames := hbranches ["b"] _ rfl
  rw [hvisits] at hnames
  refine ⟨hwalk, hvisits, hnames, ?_⟩
  refine (hreached ["b"] "y" .missing .missing).1 ?_
  -- it is the last visit but one
  exact List.mem_of_getElem? (i := 9) rfl

end Lookahead
