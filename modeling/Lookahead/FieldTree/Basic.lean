/-!
# FieldTree — the requested fields, in order

A field tree says which fields a query wants below a field. Its entries stand in the order in
which they were first asked for: a `leaf` is wanted as it is, and a `branch` is wanted for the
fields below it, of which there may be none. A tree is written as its first entry and the
remaining ones.

* `FieldTree.find?`, `FieldTree.get?` — the entry of a name, and the entry at a path;
* `FieldTree.Distinct` — no name occurs twice among neighbours. All operations keep this, and
  with it looking a name up and going through the entries agree;
* `FieldTree.consInduction` — going through a tree entry by entry, whether they are leaves or
  branches.
-/

namespace Lookahead

inductive FieldTree
  | nil
  | leaf (name : String) (rest : FieldTree)
  | branch (name : String) (children rest : FieldTree)
  deriving DecidableEq, Repr

namespace FieldTree

/-- What stands under a name. -/
inductive Entry
  | leaf
  | branch (children : FieldTree)
  deriving DecidableEq, Repr

def Entry.isBranch : Entry → Bool
  | leaf => false
  | branch _ => true

/-! ## Entries -/

def entries : FieldTree → List (String × Entry)
  | nil => []
  | leaf name rest => (name, .leaf) :: rest.entries
  | branch name children rest => (name, .branch children) :: rest.entries

def names : FieldTree → List String
  | nil => []
  | leaf name rest => name :: rest.names
  | branch name _ rest => name :: rest.names

/-- The first entry under a name. -/
def find? (name : String) : FieldTree → Option Entry
  | nil => none
  | leaf n rest => if n = name then some .leaf else rest.find? name
  | branch n children rest => if n = name then some (.branch children) else rest.find? name

/-- The tree without the entries under a name. -/
def erase (name : String) : FieldTree → FieldTree
  | nil => nil
  | leaf n rest => if n = name then rest.erase name else leaf n (rest.erase name)
  | branch n children rest =>
      if n = name then rest.erase name else branch n children (rest.erase name)

/-- The number of entries at all levels. -/
def size : FieldTree → Nat
  | nil => 0
  | leaf _ rest => rest.size + 1
  | branch _ children rest => children.size + rest.size + 1

/-- The entry at the end of a path of names; the empty path leads nowhere. -/
def get? : List String → FieldTree → Option Entry
  | [], _ => none
  | [name], tree => tree.find? name
  | name :: next :: path, tree =>
      match tree.find? name with
      | some (.branch children) => children.get? (next :: path)
      | _ => none

/-! ## Distinct names -/

def Distinct : FieldTree → Prop
  | nil => True
  | leaf name rest => name ∉ rest.names ∧ rest.Distinct
  | branch name children rest => name ∉ rest.names ∧ children.Distinct ∧ rest.Distinct

/-! ## One entry after the other -/

/-- A tree with one more entry in front. -/
def cons (name : String) : Entry → FieldTree → FieldTree
  | .leaf, rest => leaf name rest
  | .branch children, rest => branch name children rest

/-- A tree is its first entry, which may have a tree below it, and the remaining ones. -/
@[elab_as_elim]
theorem consInduction {motive : FieldTree → Prop} (nil : motive nil)
    (cons : ∀ name entry rest, (∀ children, entry = .branch children → motive children) →
      motive rest → motive (FieldTree.cons name entry rest))
    (tree : FieldTree) : motive tree := by
  induction tree with
  | nil =>
      exact nil
  | leaf name rest ih =>
      exact cons name .leaf rest (fun _ h => nomatch h) ih
  | branch name children rest ihc ih =>
      refine cons name (.branch children) rest ?_ ih
      rintro _ ⟨rfl⟩
      exact ihc

theorem entries_cons (name : String) (entry : Entry) (rest : FieldTree) :
    (cons name entry rest).entries = (name, entry) :: rest.entries := by
  cases entry <;> rfl

@[simp]
theorem find?_cons (name other : String) (entry : Entry) (rest : FieldTree) :
    (cons name entry rest).find? other = if name = other then some entry else rest.find? other := by
  cases entry <;> rfl

@[simp]
theorem names_cons (name : String) (entry : Entry) (rest : FieldTree) :
    (cons name entry rest).names = name :: rest.names := by
  cases entry <;> rfl

@[simp]
theorem erase_cons (name other : String) (entry : Entry) (rest : FieldTree) :
    (cons name entry rest).erase other =
      if name = other then rest.erase other else cons name entry (rest.erase other) := by
  cases entry <;> rfl

/-! ## Looking up and going through -/

theorem find?_isSome_iff {name : String} {tree : FieldTree} :
    (tree.find? name).isSome ↔ name ∈ tree.names := by
  induction tree using consInduction with
  | nil =>
      simp [find?, names]
  | cons n entry rest _ ih =>
      by_cases h : n = name
      · simp [h]
      · have hn : name ≠ n := fun e => h e.symm
        simp [h, hn, ih]

theorem find?_eq_none_iff {name : String} {tree : FieldTree} :
    tree.find? name = none ↔ name ∉ tree.names := by
  rw [← find?_isSome_iff]
  simp

theorem find?_erase (name other : String) (tree : FieldTree) :
    (tree.erase name).find? other = if other = name then none else tree.find? other := by
  induction tree using consInduction with
  | nil =>
      simp [erase, find?]
  | cons n entry rest _ ih =>
      by_cases h : n = name
      · subst h
        by_cases ho : other = n
        · subst ho
          simpa using ih
        · have hn : n ≠ other := fun e => ho e.symm
          simp [ih, ho, hn]
      · by_cases ho : n = other
        · subst ho
          simp [h]
        · simp [h, ho, ih]

theorem names_erase (name : String) (tree : FieldTree) :
    (tree.erase name).names = tree.names.filter (· != name) := by
  induction tree using consInduction with
  | nil =>
      rfl
  | cons n entry rest _ ih =>
      by_cases h : n = name <;> simp [h, ih]

theorem erase_of_not_mem {name : String} {tree : FieldTree} (h : name ∉ tree.names) :
    tree.erase name = tree := by
  induction tree using consInduction with
  | nil =>
      rfl
  | cons n entry rest _ ih =>
      simp only [names_cons, List.mem_cons, not_or] at h
      have hn : n ≠ name := fun e => h.1 e.symm
      simp [hn, ih h.2]

end FieldTree

end Lookahead
