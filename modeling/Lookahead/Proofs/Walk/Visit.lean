import Lookahead.Proofs.Walk.Presence

/-!
# Visit — what a walk comes by, in order

A walk goes depth first and from left to right, and it expands a fragment where the fragment
stands. `visits` lists the selections it comes to in this order, whatever their kind, each with the
names of the fields around it. No tree is built on the way, so the list can say in which order
something was first asked for.

* `Visit` — a selection and the fields around it;
* `visits` — all selections that a walk comes to;
* `mem_visits_iff` — the fields among them are those that are reached.
-/

namespace Lookahead

/-- A selection that a walk comes to, with the names of the fields around it. -/
structure Visit where
  around : List String
  node : Selection

/-- A visit below a field, seen from above it. -/
def Visit.below (name : String) (visit : Visit) : Visit :=
  ⟨name :: visit.around, visit.node⟩

namespace Selection

/-- The visits that one selection leads to: itself if it is let through and not excluded, and then
those below it, where `inside` lists the visits to the selections below. -/
def visits (context : Context) (inside : Rule → List Selection → List Visit) (rule : Rule)
    (selection : Selection) : List Visit :=
  match context.admits selection with
  | .ok true =>
      match selection with
      | field (some name) _ selectionSet =>
          if rule.verdict context.timeout name = .exclude then []
          else
            ⟨[], selection⟩ ::
              (inside (rule.verdict context.timeout name) selectionSet.toList).map
                (Visit.below name)
      | inlineFragment _ selectionSet => ⟨[], selection⟩ :: inside rule selectionSet.toList
      | spread (some name) _ =>
          match context.fragments.lookup name with
          | .ok (some fragment) => ⟨[], selection⟩ :: inside rule fragment.selections
          | _ => [⟨[], selection⟩]
      | _ => [⟨[], selection⟩]
  | _ => []

end Selection

/-- The visits of a walk through selections, at most `limit` levels deep. -/
def visits (context : Context) : (limit : Nat) → Rule → List Selection → List Visit
  | 0, _, _ => []
  | limit + 1, rule, selections =>
      selections.flatMap (Selection.visits context (visits context limit) rule)

variable {context : Context} {limit : Nat} {rule : Rule} {name : String} {around : List String}
  {selections : List Selection} {node : Selection} {visit : Visit} {tree : FieldTree}

@[simp]
theorem visits_nil (context : Context) (limit : Nat) (rule : Rule) :
    visits context limit rule [] = [] := by
  cases limit <;> rfl

theorem mem_visits_of_mem {selection : Selection} (hmem : selection ∈ selections)
    (h : visit ∈ selection.visits context (visits context limit) rule) :
    visit ∈ visits context (limit + 1) rule selections :=
  List.mem_flatMap.2 ⟨selection, hmem, h⟩

namespace Selection

variable {inside : Rule → List Selection → List Visit} {directives : Directives}
  {selectionSet : SelectionSet}

theorem visits_of_leftOut {selection : Selection}
    (hadmits : context.admits selection = .ok false) :
    selection.visits context inside rule = [] := by
  simp [visits, hadmits]

theorem visits_field_of_excluded
    (hadmits : context.admits (field (some name) directives selectionSet) = .ok true)
    (hverdict : rule.verdict context.timeout name = .exclude) :
    (field (some name) directives selectionSet).visits context inside rule = [] := by
  simp [visits, hadmits, hverdict]

theorem visits_field_of_kept
    (hadmits : context.admits (field (some name) directives selectionSet) = .ok true)
    (hverdict : rule.verdict context.timeout name ≠ .exclude) :
    (field (some name) directives selectionSet).visits context inside rule =
      ⟨[], field (some name) directives selectionSet⟩ ::
        (inside (rule.verdict context.timeout name) selectionSet.toList).map
          (Visit.below name) := by
  simp [visits, hadmits, hverdict]

theorem visits_inlineFragment
    (hadmits : context.admits (inlineFragment directives selectionSet) = .ok true) :
    (inlineFragment directives selectionSet).visits context inside rule =
      ⟨[], inlineFragment directives selectionSet⟩ :: inside rule selectionSet.toList := by
  simp [visits, hadmits]

theorem visits_spread_of_defined {fragment : Fragment}
    (hadmits : context.admits (spread (some name) directives) = .ok true)
    (hdefined : context.fragments.lookup name = .ok (some fragment)) :
    (spread (some name) directives).visits context inside rule =
      ⟨[], spread (some name) directives⟩ :: inside rule fragment.selections := by
  simp [visits, hadmits, hdefined]

theorem visits_spread_of_undefined
    (hadmits : context.admits (spread (some name) directives) = .ok true)
    (hundefined : context.fragments.lookup name = .ok none) :
    (spread (some name) directives).visits context inside rule =
      [⟨[], spread (some name) directives⟩] := by
  simp [visits, hadmits, hundefined]

theorem visits_other (hadmits : context.admits (other directives selectionSet) = .ok true) :
    (other directives selectionSet).visits context inside rule =
      [⟨[], other directives selectionSet⟩] := by
  simp [visits, hadmits]

theorem visits_value {value : Value} (hadmits : context.admits (.value value) = .ok true) :
    (Selection.value value).visits context inside rule = [⟨[], .value value⟩] := by
  simp [visits, hadmits]

end Selection

/-! ## Visited fields are reached -/

/-- What is reached inside a fragment among the selections is reached from all of them. -/
theorem Reached.of_fragment {path : List String} {below : List Selection}
    (hfound : ∀ name node, FoundField context name below node →
      FoundField context name selections node)
    (h : Reached context rule below path node) : Reached context rule selections path node where
  requested := by
    cases h.requested with
    | here hnode =>
        exact .here (hfound _ _ hnode)
    | deeper hparent hbelow =>
        exact .deeper (hfound _ _ hparent) hbelow
  kept := h.kept

/-- What is reached below a field that is kept is reached from the selections around it. -/
theorem Reached.of_field {path : List String} {parent : Selection}
    (hfound : FoundField context name selections parent)
    (hverdict : rule.verdict context.timeout name ≠ .exclude)
    (h : Reached context (rule.verdict context.timeout name) parent.selections path node) :
    Reached context rule selections (name :: path) node where
  requested := .deeper hfound h.requested
  kept := Rule.below_cons_ne_exclude_iff.2 ⟨hverdict, h.kept⟩

theorem Reached.here (hfound : FoundField context name selections node)
    (hverdict : rule.verdict context.timeout name ≠ .exclude) :
    Reached context rule selections [name] node where
  requested := .here hfound
  kept := Rule.below_cons_ne_exclude_iff.2 ⟨hverdict, hverdict⟩

theorem reached_of_mem_visits {directives : Directives} {selectionSet : SelectionSet}
    (h : ⟨around, .field (some name) directives selectionSet⟩ ∈
      visits context limit rule selections) :
    Reached context rule selections (around ++ [name])
      (.field (some name) directives selectionSet) := by
  induction limit generalizing rule selections around with
  | zero =>
      cases h
  | succ limit ih =>
      rcases List.mem_flatMap.1 h with ⟨selection, hmem, h⟩
      -- only what is let through leads to visits, and what is visited below it is known to be
      -- reached there
      unfold Selection.visits at h
      split at h
      · next hadmits =>
          split at h
          · next n fieldDirectives set =>
              split at h
              · cases h
              · next hverdict =>
                  have hfound : FoundField context n selections
                      (.field (some n) fieldDirectives set) := .field hmem hadmits
                  rcases List.mem_cons.1 h with hself | hbelow
                  · cases hself
                    exact .here hfound hverdict
                  · rcases List.mem_map.1 hbelow with ⟨inner, hinner, hvisit⟩
                    cases inner
                    cases hvisit
                    exact .of_field hfound hverdict (ih hinner)
          · have hbelow := (List.mem_cons.1 h).resolve_left (by simp)
            exact (ih hbelow).of_fragment fun _ _ hnode => .inlineFragment hmem hadmits hnode
          · split at h
            · next hdefined =>
                have hbelow := (List.mem_cons.1 h).resolve_left (by simp)
                exact (ih hbelow).of_fragment fun _ _ hnode => .spread hmem hadmits hdefined hnode
            · simp at h
          · next hfield _ _ =>
              have hself := List.mem_singleton.1 h
              cases hself
              exact absurd rfl (hfield _ _ _)
      · cases h

/-! ## Reached fields are visited -/

/-- A field called `name` is among the visits. If it has selections they were walked too, on some
level further down, and the visits there are visits below the field. -/
structure VisitedField (context : Context) (rule : Rule) (name : String) (node : Selection)
    (visited : List Visit) : Prop where
  itself : ⟨[], node⟩ ∈ visited
  inside : node.selections ≠ [] → ∃ level children,
    (collect context level (rule.verdict context.timeout name) node.selections).outcome =
      .ok children ∧
    ∀ visit ∈ visits context level (rule.verdict context.timeout name) node.selections,
      visit.below name ∈ visited

theorem VisitedField.mono {visited more : List Visit}
    (h : VisitedField context rule name node visited) (hsub : visited ⊆ more) :
    VisitedField context rule name node more where
  itself := hsub h.itself
  inside := by
    intro hfull
    rcases h.inside hfull with ⟨level, children, hchildren, hvisited⟩
    exact ⟨level, children, hchildren, fun visit hvisit => hsub (hvisited visit hvisit)⟩

theorem visits_subset_of_mem {below : List Selection} {selection : Selection}
    (hmem : selection ∈ selections)
    (hvisits : selection.visits context (visits context limit) rule =
      ⟨[], selection⟩ :: visits context limit rule below) :
    visits context limit rule below ⊆ visits context (limit + 1) rule selections := by
  intro visit hvisit
  refine mem_visits_of_mem hmem ?_
  rw [hvisits]
  exact List.mem_cons_of_mem _ hvisit

/-- In a walk that ends well every field found among the selections is visited, unless its name is
excluded. -/
theorem FoundField.visited (hfound : FoundField context name selections node)
    (hverdict : rule.verdict context.timeout name ≠ .exclude)
    (h : (collect context limit rule selections).outcome = .ok tree) :
    VisitedField context rule name node (visits context limit rule selections) := by
  induction hfound generalizing limit tree with
  | @field selections directives selectionSet hmem hadmits =>
      -- without a level to go the walk would have failed
      cases limit with
      | zero =>
          cases h
      | succ limit =>
          have hvisits : (Selection.field (some name) directives selectionSet).visits context
              (visits context limit) rule = _ := Selection.visits_field_of_kept hadmits hverdict
          constructor
          · exact mem_visits_of_mem hmem (by simp [hvisits])
          · intro hfull
            rcases exists_collect_of_opens h hmem (.field hadmits hverdict hfull) with
              ⟨children, hwalk⟩
            refine ⟨limit, children, hwalk, ?_⟩
            intro visit hvisit
            refine mem_visits_of_mem hmem ?_
            rw [hvisits]
            exact List.mem_cons_of_mem _ (List.mem_map_of_mem hvisit)
  | @inlineFragment selections directives selectionSet node hmem hadmits _ ih =>
      cases limit with
      | zero =>
          cases h
      | succ limit =>
          rcases exists_collect_of_opens h hmem (.inlineFragment hadmits) with ⟨found, hwalk⟩
          have hsub : visits context limit rule selectionSet.toList ⊆
              visits context (limit + 1) rule selections :=
            visits_subset_of_mem hmem (Selection.visits_inlineFragment hadmits)
          exact (ih hwalk).mono hsub
  | @spread selections spreadName directives fragment node hmem hadmits hdefined _ ih =>
      cases limit with
      | zero =>
          cases h
      | succ limit =>
          rcases exists_collect_of_opens h hmem (.spread hadmits hdefined) with ⟨found, hwalk⟩
          have hsub : visits context limit rule fragment.selections ⊆
              visits context (limit + 1) rule selections :=
            visits_subset_of_mem hmem (Selection.visits_spread_of_defined hadmits hdefined)
          exact (ih hwalk).mono hsub

theorem mem_visits_of_requested {path : List String}
    (hrequested : Requested context path selections node)
    (hkept : rule.below context.timeout path ≠ .exclude)
    (h : (collect context limit rule selections).outcome = .ok tree) :
    ⟨path.dropLast, node⟩ ∈ visits context limit rule selections := by
  induction hrequested generalizing limit rule tree with
  | here hfound =>
      have hverdict := (Rule.below_cons_ne_exclude_iff.1 hkept).1
      exact (hfound.visited hverdict h).itself
  | @deeper name path selections parent node hfound hbelow ih =>
      rcases Rule.below_cons_ne_exclude_iff.1 hkept with ⟨hverdict, hrest⟩
      have hfull : parent.selections ≠ [] := by
        intro hempty
        rw [hempty] at hbelow
        exact not_requested_nil path node hbelow
      rcases (hfound.visited hverdict h).inside hfull with ⟨level, children, hchildren, hvisited⟩
      have hinner := hvisited _ (ih hrest hchildren)
      rw [List.dropLast_cons_of_ne_nil hbelow.path_ne_nil]
      exact hinner

/-- In a walk that ends well the visited fields are exactly those that are reached. -/
theorem mem_visits_iff {directives : Directives} {selectionSet : SelectionSet}
    (h : (collect context limit rule selections).outcome = .ok tree) :
    ⟨around, .field (some name) directives selectionSet⟩ ∈ visits context limit rule selections ↔
      Reached context rule selections (around ++ [name])
        (.field (some name) directives selectionSet) := by
  constructor
  · intro hvisit
    exact reached_of_mem_visits hvisit
  · intro hreached
    have hvisit := mem_visits_of_requested hreached.requested hreached.kept h
    rwa [List.dropLast_concat] at hvisit

end Lookahead
