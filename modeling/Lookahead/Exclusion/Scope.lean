/-!
# Scope — which fields are left out, level by level

A scope holds a rule for each of its keys, in the order in which the keys were added. The rule
of a field says what happens to it:

* `keep` — the field stays, and so does everything below it;
* `exclude` — the field and everything below it are left out;
* `within scope` — the field stays, and the scope goes on below it.

A scope is written as its first key with the rule for it and the remaining keys. `excludeAt`
adds a rule for a path of keys; it never makes an excluded field come back.
-/

namespace Lookahead

inductive Scope
  | nil
  | keep (key : String) (rest : Scope)
  | exclude (key : String) (rest : Scope)
  | narrow (key : String) (inner rest : Scope)
  deriving DecidableEq, Repr

/-- What happens to a field. -/
inductive Rule
  | keep
  | exclude
  | within (scope : Scope)
  deriving DecidableEq, Repr

namespace Scope

/-! ## Keys -/

def entries : Scope → List (String × Rule)
  | nil => []
  | keep key rest => (key, .keep) :: rest.entries
  | exclude key rest => (key, .exclude) :: rest.entries
  | narrow key inner rest => (key, .within inner) :: rest.entries

def keys : Scope → List String
  | nil => []
  | keep key rest => key :: rest.keys
  | exclude key rest => key :: rest.keys
  | narrow key _ rest => key :: rest.keys

/-- The rule under a key. -/
def find? (key : String) : Scope → Option Rule
  | nil => none
  | keep k rest => if k = key then some .keep else rest.find? key
  | exclude k rest => if k = key then some .exclude else rest.find? key
  | narrow k inner rest => if k = key then some (.within inner) else rest.find? key

/-- A key with its rule in front of a scope. -/
def cons (key : String) : Rule → Scope → Scope
  | .keep, rest => keep key rest
  | .exclude, rest => exclude key rest
  | .within inner, rest => narrow key inner rest

/-- Sets the rule under a key, at its place or at the end. -/
def put (key : String) (rule : Rule) : Scope → Scope
  | nil => cons key rule nil
  | keep k rest => if k = key then cons key rule rest else keep k (rest.put key rule)
  | exclude k rest => if k = key then cons key rule rest else exclude k (rest.put key rule)
  | narrow k inner rest =>
      if k = key then cons key rule rest else narrow k inner (rest.put key rule)

/-! ## Paths of keys -/

/-- Excludes the end of a path of keys. If part of the way is excluded already, nothing is left
to do; where the way is missing, it is made. -/
def excludeAt : List String → Scope → Scope
  | [], scope => scope
  | [key], scope => scope.put key .exclude
  | key :: next :: path, scope =>
      match scope.find? key with
      | some .exclude => scope
      | some (.within inner) => scope.put key (.within (inner.excludeAt (next :: path)))
      | _ => scope.put key (.within (nil.excludeAt (next :: path)))

/-! ## Distinct keys -/

/-- No key occurs twice in the scope or in one below it. -/
def Distinct : Scope → Prop
  | nil => True
  | keep key rest => key ∉ rest.keys ∧ rest.Distinct
  | exclude key rest => key ∉ rest.keys ∧ rest.Distinct
  | narrow key inner rest => key ∉ rest.keys ∧ inner.Distinct ∧ rest.Distinct

/-! ## One key after the other -/

/-- A scope is its first key with the rule for it, which may go on below, and the remaining keys. -/
@[elab_as_elim]
theorem consInduction {motive : Scope → Prop} (nil : motive nil)
    (cons : ∀ key rule rest, (∀ inner, rule = .within inner → motive inner) → motive rest →
      motive (cons key rule rest))
    (scope : Scope) : motive scope := by
  induction scope with
  | nil =>
      exact nil
  | keep key rest ih =>
      exact cons key .keep rest (fun _ h => nomatch h) ih
  | exclude key rest ih =>
      exact cons key .exclude rest (fun _ h => nomatch h) ih
  | narrow key inner rest ihinner ih =>
      refine cons key (.within inner) rest ?_ ih
      rintro _ ⟨rfl⟩
      exact ihinner

theorem entries_cons (key : String) (rule : Rule) (rest : Scope) :
    (cons key rule rest).entries = (key, rule) :: rest.entries := by
  cases rule <;> rfl

theorem keys_cons (key : String) (rule : Rule) (rest : Scope) :
    (cons key rule rest).keys = key :: rest.keys := by
  cases rule <;> rfl

theorem find?_cons (key other : String) (rule : Rule) (rest : Scope) :
    (cons key rule rest).find? other = if key = other then some rule else rest.find? other := by
  cases rule <;> rfl

theorem put_cons (k key : String) (old rule : Rule) (rest : Scope) :
    (cons k old rest).put key rule =
      if k = key then cons key rule rest else cons k old (rest.put key rule) := by
  cases old <;> rfl

/-! ## Looking up what was set -/

theorem find?_put (key other : String) (rule : Rule) (scope : Scope) :
    (scope.put key rule).find? other =
      if key = other then some rule else scope.find? other := by
  induction scope using consInduction with
  | nil =>
      simp [put, find?_cons]
  | cons k old rest _ ih =>
      by_cases hk : k = key
      · subst hk
        by_cases h : k = other <;> simp [put_cons, find?_cons, h]
      · by_cases h : k = other
        · subst h
          have hne : key ≠ k := fun e => hk e.symm
          simp [put_cons, find?_cons, hk, hne]
        · simp [put_cons, find?_cons, hk, h, ih]

/-- A new key goes to the end, and a known one keeps its place. -/
theorem keys_put (key : String) (rule : Rule) (scope : Scope) :
    (scope.put key rule).keys =
      if key ∈ scope.keys then scope.keys else scope.keys ++ [key] := by
  induction scope using consInduction with
  | nil =>
      simp [put, keys_cons, keys]
  | cons k old rest _ ih =>
      by_cases hk : k = key
      · simp [put_cons, keys_cons, hk]
      · have hne : key ≠ k := fun e => hk e.symm
        by_cases hmem : key ∈ rest.keys <;> simp [put_cons, keys_cons, hk, hne, ih, hmem]

end Scope

end Lookahead
