import Lookahead.Proofs.Walk.Gather

/-!
# Occurrence — the field nodes behind a path of names

One field may be asked for at several places of a query: next to each other, inside fragments, or
below several occurrences of the field above it. This module says which nodes those are, once as
a relation and once as a list in the order of the walk:

* `FoundField` — a node with a given name stands among selections, possibly inside fragments;
* `Requested` — a chain of such nodes leads along a path of names;
* `Reached` — it does, and no rule looked up along the path excludes a name;
* `occurrences` — the nodes of a path in walk order, as deep as a limit allows.

Whatever is listed is requested (`requested_of_mem`). A walk that ends well has not met its limit,
so there nothing that is requested is missing in the list either.
-/

namespace Lookahead

/-! ## The relation -/

/-- The field `node`, called `name`, is found among `selections`, inside any number of fragments.
The node and all fragments around it are let through by their directives. -/
inductive FoundField (context : Context) (name : String) : List Selection → Selection → Prop
  | field {selections : List Selection} {directives : Directives} {selectionSet : SelectionSet}
      (hmem : .field (some name) directives selectionSet ∈ selections)
      (hadmits : context.admits (.field (some name) directives selectionSet) = .ok true) :
      FoundField context name selections (.field (some name) directives selectionSet)
  | inlineFragment {selections : List Selection} {directives : Directives}
      {selectionSet : SelectionSet} {node : Selection}
      (hmem : .inlineFragment directives selectionSet ∈ selections)
      (hadmits : context.admits (.inlineFragment directives selectionSet) = .ok true)
      (hbelow : FoundField context name selectionSet.toList node) :
      FoundField context name selections node
  | spread {selections : List Selection} {spreadName : String} {directives : Directives}
      {fragment : Fragment} {node : Selection}
      (hmem : .spread (some spreadName) directives ∈ selections)
      (hadmits : context.admits (.spread (some spreadName) directives) = .ok true)
      (hdefined : context.fragments.lookup spreadName = .ok (some fragment))
      (hbelow : FoundField context name fragment.selections node) :
      FoundField context name selections node

/-- A chain of fields, each found among the selections of the one before, leads along a path. -/
inductive Requested (context : Context) : List String → List Selection → Selection → Prop
  | here {name : String} {selections : List Selection} {node : Selection}
      (hfound : FoundField context name selections node) :
      Requested context [name] selections node
  | deeper {name : String} {path : List String} {selections : List Selection}
      {parent node : Selection} (hfound : FoundField context name selections parent)
      (hbelow : Requested context path parent.selections node) :
      Requested context (name :: path) selections node

/-- An occurrence at a path none of whose names is excluded. -/
structure Reached (context : Context) (rule : Rule) (selections : List Selection)
    (path : List String) (node : Selection) : Prop where
  requested : Requested context path selections node
  kept : rule.below context.timeout path ≠ .exclude

variable {context : Context} {name : String} {selections more : List Selection}
  {path : List String} {node : Selection}

theorem FoundField.mono (h : FoundField context name selections node)
    (hsub : selections ⊆ more) : FoundField context name more node := by
  cases h with
  | field hmem hadmits =>
      exact .field (hsub hmem) hadmits
  | inlineFragment hmem hadmits hbelow =>
      exact .inlineFragment (hsub hmem) hadmits hbelow
  | spread hmem hadmits hdefined hbelow =>
      exact .spread (hsub hmem) hadmits hdefined hbelow

theorem Requested.path_ne_nil (h : Requested context path selections node) : path ≠ [] := by
  cases h <;> simp

theorem not_requested_nil (path : List String) (node : Selection) :
    ¬ Requested context path [] node := by
  have hnone : ∀ name found, ¬ FoundField context name [] found := by
    intro name found hfound
    cases hfound <;> contradiction
  intro h
  cases h with
  | here hfound => exact hnone _ _ hfound
  | deeper hfound _ => exact hnone _ _ hfound

/-! ## The list -/

namespace Selection

/-- The fields called `name` that one selection stands for, where `inside` lists those of the
selections of a fragment. -/
def fieldsNamed (context : Context) (name : String) (inside : List Selection → List Selection)
    (selection : Selection) : List Selection :=
  match context.admits selection with
  | .ok true =>
      match selection with
      | field (some n) _ _ => if n = name then [selection] else []
      | inlineFragment _ selectionSet => inside selectionSet.toList
      | spread (some n) _ =>
          match context.fragments.lookup n with
          | .ok (some fragment) => inside fragment.selections
          | _ => []
      | _ => []
  | _ => []

end Selection

/-- The fields called `name` among selections, in walk order, at most `limit` fragments deep. -/
def fieldsNamed (context : Context) (name : String) : (limit : Nat) → List Selection →
    List Selection
  | 0, _ => []
  | limit + 1, selections =>
      selections.flatMap (Selection.fieldsNamed context name (fieldsNamed context name limit))

/-- The field nodes at a path of names, in walk order. -/
def occurrences (context : Context) (limit : Nat) : List String → List Selection → List Selection
  | [], _ => []
  | [name], selections => fieldsNamed context name limit selections
  | name :: next :: path, selections =>
      (fieldsNamed context name limit selections).flatMap fun node =>
        occurrences context limit (next :: path) node.selections

theorem fieldsNamed_append (context : Context) (name : String) (limit : Nat)
    (front back : List Selection) :
    fieldsNamed context name limit (front ++ back) =
      fieldsNamed context name limit front ++ fieldsNamed context name limit back := by
  cases limit with
  | zero =>
      rfl
  | succ limit =>
      simp [fieldsNamed]

@[simp]
theorem fieldsNamed_nil (context : Context) (name : String) (limit : Nat) :
    fieldsNamed context name limit [] = [] := by
  cases limit <;> rfl

@[simp]
theorem occurrences_nil (context : Context) (limit : Nat) (path : List String) :
    occurrences context limit path [] = [] := by
  rcases path with _ | ⟨name, _ | ⟨next, path⟩⟩ <;> simp [occurrences]

theorem occurrences_append (context : Context) (limit : Nat) (path : List String)
    (front back : List Selection) :
    occurrences context limit path (front ++ back) =
      occurrences context limit path front ++ occurrences context limit path back := by
  rcases path with _ | ⟨name, _ | ⟨next, path⟩⟩
  · rfl
  · exact fieldsNamed_append context name limit front back
  · simp only [occurrences, fieldsNamed_append, List.flatMap_append]

theorem occurrences_cons (context : Context) (limit : Nat) (name : String) {path : List String}
    (hpath : path ≠ []) (selections : List Selection) :
    occurrences context limit (name :: path) selections =
      (fieldsNamed context name limit selections).flatMap fun node =>
        occurrences context limit path node.selections := by
  cases path with
  | nil =>
      exact absurd rfl hpath
  | cons next path =>
      rfl

/-- The occurrences below several nodes are those in all of their selections together. -/
theorem occurrences_flatMap (context : Context) (limit : Nat) (path : List String)
    (nodes : List Selection) :
    occurrences context limit path (nodes.flatMap Selection.selections) =
      nodes.flatMap fun node => occurrences context limit path node.selections := by
  induction nodes with
  | nil =>
      simp
  | cons node nodes ih =>
      rw [List.flatMap_cons, List.flatMap_cons, occurrences_append, ih]

/-! ## What is listed is requested -/

theorem foundField_of_mem {limit : Nat} (h : node ∈ fieldsNamed context name limit selections) :
    FoundField context name selections node := by
  induction limit generalizing selections with
  | zero =>
      cases h
  | succ limit ih =>
      rcases List.mem_flatMap.1 h with ⟨selection, hmem, h⟩
      -- only a selection that is let through lists anything, and each kind that does is a way to
      -- find a field
      unfold Selection.fieldsNamed at h
      split at h
      · next hadmits =>
          split at h
          · next n directives selectionSet =>
              by_cases hn : n = name
              · subst hn
                rw [if_pos rfl, List.mem_singleton] at h
                subst h
                exact .field hmem hadmits
              · rw [if_neg hn] at h
                cases h
          · exact .inlineFragment hmem hadmits (ih h)
          · split at h
            · next hdefined => exact .spread hmem hadmits hdefined (ih h)
            · cases h
          · cases h
      · cases h

theorem requested_of_mem {limit : Nat} (h : node ∈ occurrences context limit path selections) :
    Requested context path selections node := by
  induction path generalizing selections with
  | nil =>
      cases h
  | cons name path ih =>
      cases path with
      | nil =>
          exact .here (foundField_of_mem h)
      | cons next path =>
          -- the rest of the path is listed below one of the fields with the first name
          rcases List.mem_flatMap.1 h with ⟨parent, hparent, hbelow⟩
          exact .deeper (foundField_of_mem hparent) (ih hbelow)

end Lookahead
