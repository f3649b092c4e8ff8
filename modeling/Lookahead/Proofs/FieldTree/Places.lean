import Lookahead.Proofs.FieldTree.Prune

/-!
# FieldTree.Places — the paths of a tree, in its own order

Going through a tree entry by entry, and below each branch before the next entry, meets every path
of the tree once. The list of these places shows the paths, their kinds and the order of all
names, so what leaves out fields can be described by what it leaves out of the list.

* `FieldTree.places` — the places of a tree;
* `FieldTree.mem_places_iff` — they are the paths that lead to an entry;
* `FieldTree.Everywhere` — all entries have a property, and so has the entry at a path;
* `FieldTree.places_prune` — pruning keeps the places on whose paths no name is excluded.
-/

namespace Lookahead
namespace FieldTree

/-- A path with the kind of the entry at its end. -/
structure Place where
  path : List String
  isBranch : Bool
  deriving DecidableEq, Repr

/-- A place below a branch, seen from above it. -/
def Place.below (name : String) (place : Place) : Place :=
  ⟨name :: place.path, place.isBranch⟩

/-- All places of a tree, an entry before those below it and these before the next entry. -/
def places : FieldTree → List Place
  | nil => []
  | leaf name rest => ⟨[name], false⟩ :: rest.places
  | branch name children rest =>
      ⟨[name], true⟩ :: children.places.map (Place.below name) ++ rest.places

variable {timeout : Timeout} {rule : Rule} {name : String} {entry : Entry}
  {tree rest : FieldTree} {place : Place}

theorem places_cons :
    (cons name entry rest).places =
      ⟨[name], entry.isBranch⟩ ::
        (childrenOf (some entry)).places.map (Place.below name) ++ rest.places := by
  cases entry <;> rfl

theorem mem_places_cons_iff :
    place ∈ (cons name entry rest).places ↔
      place = ⟨[name], entry.isBranch⟩ ∨
        (∃ inner ∈ (childrenOf (some entry)).places, place = inner.below name) ∨
        place ∈ rest.places := by
  simp only [places_cons, List.cons_append, List.mem_cons, List.mem_append, List.mem_map, eq_comm]

/-! ## Places and entries -/

/-- A place begins with a name of the tree. -/
theorem exists_name_of_mem_places (h : place ∈ tree.places) :
    ∃ name path, place.path = name :: path ∧ name ∈ tree.names := by
  induction tree using consInduction with
  | nil =>
      cases h
  | cons name entry rest _ ih =>
      rcases mem_places_cons_iff.1 h with rfl | ⟨inner, _, rfl⟩ | hrest
      · exact ⟨name, [], rfl, by simp⟩
      · exact ⟨name, inner.path, rfl, by simp⟩
      · rcases ih hrest with ⟨first, path, hpath, hmem⟩
        exact ⟨first, path, hpath, by simp [hmem]⟩

theorem path_ne_nil_of_mem_places (h : place ∈ tree.places) : place.path ≠ [] := by
  rcases exists_name_of_mem_places h with ⟨name, path, hpath, _⟩
  simp [hpath]

theorem get?_cons_self {path : List String} (h : path ≠ []) :
    (cons name entry rest).get? (name :: path) = (childrenOf (some entry)).get? path := by
  simp [get?_cons name h]

theorem get?_cons_of_ne {other : String} (h : name ≠ other) (path : List String) :
    (cons name entry rest).get? (other :: path) = rest.get? (other :: path) := by
  by_cases hend : path = []
  · simp [hend, h]
  · simp [get?_cons other hend, h]

theorem get?_of_mem_places (h : tree.Distinct) (hmem : place ∈ tree.places) :
    ∃ entry, tree.get? place.path = some entry ∧ entry.isBranch = place.isBranch := by
  induction tree using consInduction generalizing place with
  | nil =>
      cases hmem
  | cons name entry rest ihbelow ih =>
      rcases distinct_cons.1 h with ⟨hnew, hentry, hrest⟩
      rcases mem_places_cons_iff.1 hmem with rfl | ⟨inner, hinner, rfl⟩ | hother
      · exact ⟨entry, by simp, rfl⟩
      · cases entry with
        | leaf =>
            cases hinner
        | branch children =>
            have hfound := ihbelow children rfl hentry hinner
            have hpath : (cons name (.branch children) rest).get? (name :: inner.path) =
                children.get? inner.path :=
              get?_cons_self (path_ne_nil_of_mem_places hinner)
            simp only [Place.below, hpath]
            exact hfound
      · -- a place of the rest begins with another name
        rcases ih hrest hother with ⟨found, hfound, hkind⟩
        rcases exists_name_of_mem_places hother with ⟨first, path, hpath, hfirst⟩
        have hne : name ≠ first := by
          intro heq
          exact hnew (heq ▸ hfirst)
        refine ⟨found, ?_, hkind⟩
        simp only [hpath, get?_cons_of_ne hne] at hfound ⊢
        exact hfound

theorem mem_places_of_get? {path : List String} {found : Entry} (h : tree.get? path = some found) :
    ⟨path, found.isBranch⟩ ∈ tree.places := by
  induction tree using consInduction generalizing path with
  | nil =>
      simp at h
  | cons name entry rest ihbelow ih =>
      apply mem_places_cons_iff.2
      cases path with
      | nil =>
          cases h
      | cons first path =>
          by_cases hname : name = first
          · subst hname
            by_cases hend : path = []
            · subst hend
              have hentry : entry = found := by simpa using h
              exact .inl (by rw [hentry])
            · have hbelow : (childrenOf (some entry)).get? path = some found := by
                simpa only [get?_cons_self hend] using h
              cases entry with
              | leaf =>
                  simp [childrenOf] at hbelow
              | branch children =>
                  exact .inr (.inl ⟨_, ihbelow children rfl hbelow, rfl⟩)
          · have hrest : rest.get? (first :: path) = some found := by
              simpa only [get?_cons_of_ne hname] using h
            exact .inr (.inr (ih hrest))

/-- With distinct names, a place is a path that leads to an entry, with the kind of the entry. -/
theorem mem_places_iff (h : tree.Distinct) :
    place ∈ tree.places ↔
      ∃ entry, tree.get? place.path = some entry ∧ entry.isBranch = place.isBranch := by
  constructor
  · intro hmem
    exact get?_of_mem_places h hmem
  · intro hfound
    rcases hfound with ⟨entry, hentry, hkind⟩
    have hmem := mem_places_of_get? hentry
    simpa only [hkind] using hmem

/-! ## What holds everywhere -/

/-- Every entry of a tree, at every level, has a property under its name. -/
def Everywhere (holds : String → Entry → Prop) : FieldTree → Prop
  | nil => True
  | leaf name rest => holds name .leaf ∧ rest.Everywhere holds
  | branch name children rest =>
      holds name (.branch children) ∧ children.Everywhere holds ∧ rest.Everywhere holds

instance decidableEverywhere (holds : String → Entry → Prop)
    [∀ name entry, Decidable (holds name entry)] :
    (tree : FieldTree) → Decidable (tree.Everywhere holds)
  | nil => isTrue trivial
  | leaf name rest =>
      have := decidableEverywhere holds rest
      inferInstanceAs (Decidable (holds name .leaf ∧ rest.Everywhere holds))
  | branch name children rest =>
      have := decidableEverywhere holds children
      have := decidableEverywhere holds rest
      inferInstanceAs (Decidable (holds name (.branch children) ∧ children.Everywhere holds ∧
        rest.Everywhere holds))

variable {holds : String → Entry → Prop}

theorem everywhere_cons :
    (cons name entry rest).Everywhere holds ↔
      holds name entry ∧ (childrenOf (some entry)).Everywhere holds ∧ rest.Everywhere holds := by
  cases entry <;> simp [cons, Everywhere, childrenOf]

theorem Everywhere.of_find? (h : tree.Everywhere holds) (hfound : tree.find? name = some entry) :
    holds name entry ∧ (childrenOf (some entry)).Everywhere holds := by
  induction tree using consInduction with
  | nil =>
      cases hfound
  | cons n first rest _ ih =>
      rcases everywhere_cons.1 h with ⟨hfirst, hbelow, hrest⟩
      rw [find?_cons] at hfound
      split at hfound
      · next hn =>
          cases hfound
          subst hn
          exact ⟨hfirst, hbelow⟩
      · exact ih hrest hfound

/-- On the way to an entry every name is that of some entry with the property, as is the last one,
and the property goes on below it. -/
theorem Everywhere.of_get? {path : List String} (h : tree.Everywhere holds)
    (hget : tree.get? path = some entry) :
    (∀ name ∈ path, ∃ passed, holds name passed) ∧ (∃ name, holds name entry) ∧
      (childrenOf (some entry)).Everywhere holds := by
  induction path generalizing tree with
  | nil =>
      cases hget
  | cons name path ih =>
      by_cases hend : path = []
      · subst hend
        rcases h.of_find? hget with ⟨hentry, hbelow⟩
        exact ⟨by simpa using ⟨entry, hentry⟩, ⟨name, hentry⟩, hbelow⟩
      · rw [get?_cons name hend] at hget
        -- a path with an entry at its end leads through an entry at its first name
        cases hfound : tree.find? name with
        | none =>
            simp [hfound, childrenOf] at hget
        | some first =>
            rcases h.of_find? hfound with ⟨hfirst, hbelow⟩
            rw [hfound] at hget
            rcases ih hbelow hget with ⟨hpassed, hentry, hlast⟩
            exact ⟨List.forall_mem_cons.2 ⟨⟨first, hfirst⟩, hpassed⟩, hentry, hlast⟩

/-- The property goes on in every subtree. -/
theorem Everywhere.descend (h : tree.Everywhere holds) (path : List String) :
    (tree.descend path).Everywhere holds := by
  by_cases hpath : path = []
  · subst hpath
    exact h
  · rw [descend_eq_childrenOf hpath]
    cases hget : tree.get? path with
    | none => trivial
    | some entry => exact (h.of_get? hget).2.2

/-! ## Pruning -/

/-- Pruning keeps the places on whose paths no name is excluded, in their order and of their
kinds. -/
theorem places_prune (tree : FieldTree) :
    (tree.prune timeout rule).places =
      tree.places.filter fun place => rule.below timeout place.path ≠ .exclude := by
  induction tree using consInduction generalizing rule with
  | nil =>
      rfl
  | cons name entry rest ihbelow ih =>
      rw [prune_cons, places_cons, List.cons_append, List.filter_cons, List.filter_append, ← ih]
      by_cases hname : rule.verdict timeout name = .exclude
      · -- nothing that begins with the name is left
        have hall : ∀ path, rule.below timeout (name :: path) = .exclude := by
          intro path
          exact Rule.below_of_excluded hname
        simp [hname, hall, List.filter_map, Function.comp_def, Place.below]
      · have hkept : ∀ path, rule.below timeout (name :: path) =
            (rule.verdict timeout name).below timeout path := by
          intro path
          exact Rule.below_of_kept hname
        have hchildren : (childrenOf (some entry)).places.filter
            (fun place => (rule.verdict timeout name).below timeout place.path ≠ .exclude) =
              ((childrenOf (some entry)).prune timeout (rule.verdict timeout name)).places := by
          cases entry with
          | leaf => rfl
          | branch children => exact (ihbelow children rfl).symm
        have hbelow : ((childrenOf (some entry)).places.map (Place.below name)).filter
            (fun place => rule.below timeout place.path ≠ .exclude) =
              ((childrenOf (some entry)).prune timeout
                (rule.verdict timeout name)).places.map (Place.below name) := by
          rw [List.filter_map, ← hchildren]
          simp only [Function.comp_def, Place.below, hkept]
        have hkind : (entry.prune timeout (rule.verdict timeout name)).isBranch =
            entry.isBranch := by
          cases entry <;> rfl
        have hprune : childrenOf (some (entry.prune timeout (rule.verdict timeout name))) =
            (childrenOf (some entry)).prune timeout (rule.verdict timeout name) := by
          cases entry <;> rfl
        rw [if_neg hname, places_cons, hkind, hprune, hbelow]
        simp [hkept, hname]

end FieldTree
end Lookahead
