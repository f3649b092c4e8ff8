import Lookahead.Proofs.Walk.Occurrence

/-!
# Walk.Entry — the entries of a walk's tree, by the occurrences behind them

All occurrences of a field come together in one entry. Below it stands what the walk through all
of their selections, one after the other, collects:

* `entryOf` — the entry some occurrences come to: none without an occurrence, a leaf if none of
  them has selections, else a branch;
* `find?_collect`, `get?_collect` — the entry under a name, and at a path, of a walk's tree;
* `find?_collect_of_excluded`, `get?_collect_of_excluded` — there is none where the rule
  excludes.
-/

namespace Lookahead

open FieldTree (gather joined)

variable {context : Context} {limit : Nat} {rule : Rule} {name : String}
  {selections : List Selection} {tree : FieldTree}

/-! ## The entry of some occurrences -/

/-- All selections below some nodes. -/
def selectionsBelow (nodes : List Selection) : List Selection :=
  nodes.flatMap Selection.selections

/-- What occurrences of one field come to, if walking all selections below them collects
`children`. -/
def entryOf (nodes : List Selection) (children : FieldTree) : Option FieldTree.Entry :=
  if nodes = [] then none
  else if selectionsBelow nodes = [] then some .leaf
  else some (.branch children)

theorem selectionsBelow_append (front back : List Selection) :
    selectionsBelow (front ++ back) = selectionsBelow front ++ selectionsBelow back :=
  List.flatMap_append

@[simp]
theorem entryOf_nil (children : FieldTree) : entryOf [] children = none := rfl

theorem isSome_entryOf_iff {nodes : List Selection} {children : FieldTree} :
    (entryOf nodes children).isSome ↔ ∃ node, node ∈ nodes := by
  rw [← List.isEmpty_eq_false_iff_exists_mem, List.isEmpty_eq_false_iff]
  unfold entryOf
  split
  · simp [*]
  · split <;> simp [*]

theorem entryOf_eq_leaf_iff {nodes : List Selection} {children : FieldTree} :
    entryOf nodes children = some .leaf ↔
      (∃ node, node ∈ nodes) ∧ ∀ node ∈ nodes, node.selections = [] := by
  rw [← List.isEmpty_eq_false_iff_exists_mem, List.isEmpty_eq_false_iff,
    ← List.flatMap_eq_nil_iff]
  unfold entryOf
  split
  · simp [*]
  · split <;> simp_all [selectionsBelow]

theorem entryOf_eq_branch_iff {nodes : List Selection} {children : FieldTree} :
    (∃ below, entryOf nodes children = some (.branch below)) ↔
      ∃ node, node ∈ nodes ∧ node.selections ≠ [] := by
  have hsome : (∃ node, node ∈ nodes ∧ node.selections ≠ []) ↔ selectionsBelow nodes ≠ [] := by
    simp [selectionsBelow, List.flatMap_eq_nil_iff]
  rw [hsome]
  unfold entryOf
  split
  · next hnodes => simp [hnodes, selectionsBelow]
  · split <;> simp [*]

/-- Occurrences together come to what the entries of their parts are joined to, provided that
nothing is collected where there is nothing to walk. -/
theorem entryOf_append {front back : List Selection} {left right : FieldTree}
    (hleft : selectionsBelow front = [] → left = .nil)
    (hright : selectionsBelow back = [] → right = .nil) :
    entryOf (front ++ back) (left.union right) =
      joined (entryOf front left) (entryOf back right) := by
  -- a side without nodes leaves the entry to the other side, and a side with nodes but nothing
  -- below them is a leaf, which any branch outweighs
  by_cases hfront : front = []
  · subst hfront
    have hnil := hleft rfl
    simp [hnil]
  · by_cases hback : back = []
    · subst hback
      have hnil := hright rfl
      simp [hnil]
    · by_cases hl : selectionsBelow front = []
      · have hnil := hleft hl
        by_cases hr : selectionsBelow back = []
        · simp [entryOf, hfront, hback, selectionsBelow_append, hl, hr]
        · simp [entryOf, hfront, hback, selectionsBelow_append, hl, hr, hnil,
            FieldTree.Entry.meet]
      · by_cases hr : selectionsBelow back = []
        · have hnil := hright hr
          simp [entryOf, hfront, hback, selectionsBelow_append, hl, hr, hnil]
        · simp [entryOf, hfront, hback, selectionsBelow_append, hl, hr, FieldTree.Entry.meet]

/-- The fields below the entry of some occurrences are what is collected there. -/
theorem childrenOf_entryOf {nodes : List Selection} {children : FieldTree}
    (hnil : selectionsBelow nodes = [] → children = .nil) :
    FieldTree.childrenOf (entryOf nodes children) = children := by
  unfold entryOf
  split
  · next hnodes =>
      subst hnodes
      exact (hnil rfl).symm
  · split
    · next hempty => exact (hnil hempty).symm
    · rfl

/-- Where there is nothing to walk, nothing is collected. -/
theorem eq_nil_of_collect_nothing (h : (collect context limit rule selections).outcome = .ok tree)
    (hempty : selections = []) : tree = .nil := by
  subst hempty
  cases limit with
  | zero =>
      cases h
  | succ limit =>
      cases h
      rfl

/-- There is a tree that `nodes` come to, namely the one collected below them. -/
def ComesTo (context : Context) (limit : Nat) (inner : Rule) (nodes : List Selection)
    (entry : Option FieldTree.Entry) : Prop :=
  ∃ children, (collect context limit inner (selectionsBelow nodes)).outcome = .ok children ∧
    entry = entryOf nodes children

theorem collect_nil (context : Context) (limit : Nat) (rule : Rule) :
    (collect context (limit + 1) rule []).outcome = .ok .nil := rfl

theorem ComesTo.none (context : Context) (limit : Nat) (inner : Rule) :
    ComesTo context (limit + 1) inner [] none :=
  ⟨.nil, collect_nil context limit inner, rfl⟩

theorem ComesTo.of_le {larger : Nat} {inner : Rule} {nodes : List Selection}
    {entry : Option FieldTree.Entry} (hle : limit ≤ larger)
    (h : ComesTo context limit inner nodes entry) : ComesTo context larger inner nodes entry := by
  rcases h with ⟨children, hchildren, hentry⟩
  refine ⟨children, ?_, hentry⟩
  rw [collect_of_le hle hchildren]
  exact hchildren

theorem ComesTo.append {inner : Rule} {front back : List Selection}
    {left right : Option FieldTree.Entry} (hl : ComesTo context (limit + 1) inner front left)
    (hr : ComesTo context (limit + 1) inner back right) :
    ComesTo context (limit + 1) inner (front ++ back) (joined left right) := by
  rcases hl with ⟨leftBelow, hleft, rfl⟩
  rcases hr with ⟨rightBelow, hright, rfl⟩
  refine ⟨leftBelow.union rightBelow, ?_, ?_⟩
  · rw [selectionsBelow_append, collect_append, Run.outcome_bind_of_ok hleft,
      Run.outcome_bind_of_ok hright]
    rfl
  · have hleftNil := eq_nil_of_collect_nothing hleft
    have hrightNil := eq_nil_of_collect_nothing hright
    exact (entryOf_append hleftNil hrightNil).symm

/-! ## The entry under a name -/

namespace Selection

theorem fieldsNamed_of_leftOut {selection : Selection} {inside : List Selection → List Selection}
    (hadmits : context.admits selection = .ok false) :
    selection.fieldsNamed context name inside = [] := by
  simp [fieldsNamed, hadmits]

theorem fieldsNamed_field {n : String} {directives : Directives} {selectionSet : SelectionSet}
    {inside : List Selection → List Selection}
    (hadmits : context.admits (field (some n) directives selectionSet) = .ok true) :
    (field (some n) directives selectionSet).fieldsNamed context name inside =
      if n = name then [field (some n) directives selectionSet] else [] := by
  simp [fieldsNamed, hadmits]

theorem fieldsNamed_inlineFragment {directives : Directives} {selectionSet : SelectionSet}
    {inside : List Selection → List Selection}
    (hadmits : context.admits (inlineFragment directives selectionSet) = .ok true) :
    (inlineFragment directives selectionSet).fieldsNamed context name inside =
      inside selectionSet.toList := by
  simp [fieldsNamed, hadmits]

theorem fieldsNamed_spread {n : String} {directives : Directives} {fragment : Fragment}
    {inside : List Selection → List Selection}
    (hadmits : context.admits (spread (some n) directives) = .ok true)
    (hdefined : context.fragments.lookup n = .ok (some fragment)) :
    (spread (some n) directives).fieldsNamed context name inside =
      inside fragment.selections := by
  simp [fieldsNamed, hadmits, hdefined]

/-- What one selection adds under a name is what its fields of that name come to. -/
theorem Contributes.comesTo {selection : Selection}
    (hkept : rule.verdict context.timeout name ≠ .exclude)
    (hinside : ∀ below found, (collect context limit rule below).outcome = .ok found →
      ComesTo context limit (rule.verdict context.timeout name)
        (Lookahead.fieldsNamed context name limit below) (found.find? name))
    (h : Contributes context (collect context limit) rule selection tree) :
    ComesTo context (limit + 1) (rule.verdict context.timeout name)
      (selection.fieldsNamed context name (Lookahead.fieldsNamed context name limit))
      (tree.find? name) := by
  -- what adds nothing under the name has no field of that name either
  have hnone := ComesTo.none context limit (rule.verdict context.timeout name)
  cases h with
  | leftOut hadmits =>
      rw [fieldsNamed_of_leftOut hadmits]
      exact hnone
  | @excluded n directives selectionSet hadmits hverdict =>
      -- the name is kept, so the excluded field is called something else
      have hn : n ≠ name := by
        rintro rfl
        exact hkept hverdict
      rw [fieldsNamed_field hadmits, if_neg hn]
      exact hnone
  | @leaf n directives selectionSet hadmits _ hempty =>
      rw [fieldsNamed_field hadmits]
      by_cases hn : n = name
      · subst hn
        have hbelow : selectionsBelow [field (some n) directives selectionSet] = [] := by
          simpa [selectionsBelow, selections] using hempty
        refine ⟨.nil, ?_, ?_⟩
        · rw [if_pos rfl, hbelow]
          exact collect_nil context limit _
        · simp [entryOf, hbelow, FieldTree.find?]
      · simpa [hn, FieldTree.find?] using hnone
  | @branch n directives selectionSet children hadmits _ hfull hwalk =>
      rw [fieldsNamed_field hadmits]
      by_cases hn : n = name
      · subst hn
        have hbelow :
            selectionsBelow [field (some n) directives selectionSet] = selectionSet.toList := by
          simp [selectionsBelow, selections]
        refine ⟨children, ?_, ?_⟩
        · rw [if_pos rfl, hbelow, collect_of_le (Nat.le_succ limit) hwalk]
          exact hwalk
        · simp [entryOf, hbelow, hfull, FieldTree.find?]
      · simpa [hn, FieldTree.find?] using hnone
  | inlineFragment hadmits hwalk =>
      -- a fragment is walked one level further down, where the limit is smaller
      rw [fieldsNamed_inlineFragment hadmits]
      exact (hinside _ _ hwalk).of_le (Nat.le_succ limit)
  | spread hadmits hdefined hwalk =>
      rw [fieldsNamed_spread hadmits hdefined]
      exact (hinside _ _ hwalk).of_le (Nat.le_succ limit)
  | undefined hadmits hundefined =>
      simpa [fieldsNamed, hadmits, hundefined, FieldTree.find?] using hnone
  | other hadmits =>
      simpa [fieldsNamed, hadmits, FieldTree.find?] using hnone
  | value hadmits =>
      simpa [fieldsNamed, hadmits, FieldTree.find?] using hnone

end Selection

/-- Under a name that is kept stands what the fields of that name come to. -/
theorem find?_collect (hkept : rule.verdict context.timeout name ≠ .exclude)
    (h : (collect context limit rule selections).outcome = .ok tree) :
    ComesTo context limit (rule.verdict context.timeout name)
      (fieldsNamed context name limit selections) (tree.find? name) := by
  refine collect_induction (motive := fun limit rule selections tree =>
    rule.verdict context.timeout name ≠ .exclude →
      ComesTo context limit (rule.verdict context.timeout name)
        (fieldsNamed context name limit selections) (tree.find? name)) ?_ ?_ h hkept
  · intro limit rule _
    exact ComesTo.none context limit _
  · intro limit rule selection selections first others hcase hbelow ih hkept
    -- fragments are walked under the same rule, so the name is kept in them too
    have hinside : ∀ below found, (collect context limit rule below).outcome = .ok found →
        ComesTo context limit (rule.verdict context.timeout name)
          (fieldsNamed context name limit below) (found.find? name) := by
      intro below found hfound
      exact hbelow rule below found hfound hkept
    have hhead := hcase.comesTo hkept hinside
    have hrest := ih hkept
    rw [FieldTree.find?_union]
    exact hhead.append hrest

/-- Nothing stands under a name that is excluded. -/
theorem find?_collect_of_excluded (hexcluded : rule.verdict context.timeout name = .exclude)
    (h : (collect context limit rule selections).outcome = .ok tree) :
    tree.find? name = none := by
  refine collect_induction (motive := fun _ rule _ tree =>
    rule.verdict context.timeout name = .exclude → tree.find? name = none) ?_ ?_ h hexcluded
  · intro _ _ _
    rfl
  · intro limit rule selection selections first others hcase hbelow ih hexcluded
    rw [FieldTree.find?_union, ih hexcluded, FieldTree.joined_none_right]
    -- a field with an entry was kept, so its name is another one
    cases hcase with
    | leaf _ hkept _ =>
        refine if_neg ?_
        rintro rfl
        exact hkept hexcluded
    | branch _ hkept _ _ =>
        refine if_neg ?_
        rintro rfl
        exact hkept hexcluded
    | inlineFragment _ hwalk =>
        exact hbelow rule _ _ hwalk hexcluded
    | spread _ _ hwalk =>
        exact hbelow rule _ _ hwalk hexcluded
    | _ => rfl

/-! ## The entry at a path -/

/-- At a path that is kept stands what the occurrences of the path come to. -/
theorem get?_collect {path : List String} (hpath : path ≠ [])
    (hkept : rule.below context.timeout path ≠ .exclude)
    (h : (collect context limit rule selections).outcome = .ok tree) :
    ComesTo context limit (rule.below context.timeout path)
      (occurrences context limit path selections) (tree.get? path) := by
  induction path generalizing rule selections tree with
  | nil =>
      exact absurd rfl hpath
  | cons name path ih =>
      rcases Rule.below_cons_ne_exclude_iff.1 hkept with ⟨hname, hrest⟩
      rcases find?_collect hname h with ⟨children, hchildren, hentry⟩
      rw [Rule.below_of_kept hname]
      cases path with
      | nil =>
          exact ⟨children, hchildren, hentry⟩
      | cons next path =>
          -- the rest of the path leads through the selections of all occurrences together
          have hbelow := ih (by simp) hrest hchildren
          have hoccurrences : occurrences context limit (name :: next :: path) selections =
              occurrences context limit (next :: path)
                (selectionsBelow (fieldsNamed context name limit selections)) :=
            (occurrences_flatMap context limit (next :: path) _).symm
          rw [hoccurrences, FieldTree.get?_cons name (by simp), hentry,
            childrenOf_entryOf (eq_nil_of_collect_nothing hchildren)]
          exact hbelow

/-- Nothing stands at a path on which a name is excluded. -/
theorem get?_collect_of_excluded {path : List String} (hpath : path ≠ [])
    (hexcluded : rule.below context.timeout path = .exclude)
    (h : (collect context limit rule selections).outcome = .ok tree) :
    tree.get? path = none := by
  induction path generalizing rule selections tree with
  | nil =>
      exact absurd rfl hpath
  | cons name path ih =>
      by_cases hname : rule.verdict context.timeout name = .exclude
      · have hnone := find?_collect_of_excluded hname h
        by_cases hend : path = []
        · rw [hend]
          exact hnone
        · rw [FieldTree.get?_cons name hend, hnone]
          exact FieldTree.nil_get? path
      · -- the name itself is kept, so the exclusion is met further down
        rw [Rule.below_of_kept hname] at hexcluded
        rcases find?_collect hname h with ⟨children, hchildren, hentry⟩
        have hend : path ≠ [] := by
          rintro rfl
          exact hname hexcluded
        rw [FieldTree.get?_cons name hend, hentry,
          childrenOf_entryOf (eq_nil_of_collect_nothing hchildren)]
        exact ih hend hexcluded hchildren

end Lookahead
