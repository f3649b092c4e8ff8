import Lookahead.Proofs.Exclusion.Growth

/-!
# Exclusion.Exact — what a scope excludes key by key

A path of names can be followed through a scope as a path of keys, with no regard to stars. Keys
that are the names themselves come before all keys with stars, so an exclusion found this way is
one for the fields too:

* `Rule.Bars` — the path of keys runs into an exclusion;
* `Scope.bars_excludeAt_iff` — excluding one more path bars just the paths that begin with it;
* `Pattern.bars_scope_iff` — so patterns bar the paths that begin with one of them;
* `Rule.Bars.excludes`, `Scope.Plain.bars_of_excludes` — what is barred is excluded, and in a
  scope without stars nothing else is.
-/

namespace Lookahead

variable {timeout : Timeout} {name key : String} {keys path : List String} {scope : Scope}

namespace Rule

variable {rule : Rule}

/-! ## Paths of keys -/

/-- Following a path key by key runs into an exclusion. -/
inductive Bars : Rule → List String → Prop
  | excluded (path : List String) : Bars .exclude path
  | key {scope : Scope} {name : String} {rule : Rule} {path : List String}
      (hfound : scope.find? name = some rule) (hbelow : Bars rule path) :
      Bars (.within scope) (name :: path)

theorem not_keep_bars : ¬ keep.Bars path := by
  intro h
  cases h

theorem not_within_bars_nil : ¬ (within scope).Bars [] := by
  intro h
  cases h

theorem not_within_nil_bars : ¬ (within .nil).Bars path := by
  intro h
  cases h with
  | key hnone _ => cases hnone

theorem within_bars_cons :
    (within scope).Bars (name :: path) ↔ ∃ rule, scope.find? name = some rule ∧ rule.Bars path := by
  constructor
  · intro h
    cases h with
    | key hfound hbelow => exact ⟨_, hfound, hbelow⟩
  · intro h
    rcases h with ⟨rule, hfound, hbelow⟩
    exact .key hfound hbelow

/-- A key decides about the name that it is, so what is barred is excluded. -/
theorem Bars.excludes (h : rule.Bars path) : rule.Excludes timeout path := by
  induction h with
  | excluded path =>
      exact exclude_excludes path
  | @key scope name rule path hfound _ ih =>
      have hverdict : (within scope).verdict timeout name = rule := Scope.verdict_of_find? hfound
      apply within_excludes_cons.2
      simpa only [hverdict] using ih

end Rule

namespace Scope

/-! ## One more path -/

/-- What a changed key leads to, for the paths that begin with it. -/
theorem bars_put_iff {rule : Rule} :
    (Rule.within (scope.put key rule)).Bars (name :: path) ↔
      if key = name then rule.Bars path else (Rule.within scope).Bars (name :: path) := by
  by_cases hkey : key = name
  · simp [Rule.within_bars_cons, find?_put, hkey]
  · simp [Rule.within_bars_cons, find?_put, hkey]

/-- Putting a rule under a key that bars what was barred there, and the paths that begin with
`keys`, does the same for the scope. -/
private theorem bars_put_of_below {rule : Rule}
    (hbelow : ∀ path, rule.Bars path ↔
      (Rule.within scope).Bars (key :: path) ∨ keys <+: path) :
    (Rule.within (scope.put key rule)).Bars path ↔
      (Rule.within scope).Bars path ∨ key :: keys <+: path := by
  cases path with
  | nil =>
      simp [Rule.not_within_bars_nil]
  | cons name path =>
      rw [bars_put_iff]
      by_cases hkey : key = name
      · subst hkey
        simpa [List.cons_prefix_cons] using hbelow path
      · simp [List.cons_prefix_cons, hkey]

/-- Excluding the end of a path of keys bars the paths that begin with it, and no others that were
not barred before. -/
theorem bars_excludeAt_iff (hkeys : keys ≠ []) :
    (Rule.within (scope.excludeAt keys)).Bars path ↔
      (Rule.within scope).Bars path ∨ keys <+: path := by
  induction keys generalizing scope path with
  | nil =>
      exact absurd rfl hkeys
  | cons key rest ih =>
      cases rest with
      | nil =>
          apply bars_put_of_below
          intro below
          have hbarred : Rule.exclude.Bars below := .excluded below
          simp [hbarred]
      | cons next rest =>
          have hinner : ∀ (inner : Scope) (below : List String),
              (Rule.within (inner.excludeAt (next :: rest))).Bars below ↔
                (Rule.within inner).Bars below ∨ next :: rest <+: below := by
            intro inner below
            exact ih (by simp)
          -- where the first key bars nothing yet, the rest of the way is made from scratch
          have hfresh : (∀ below, ¬ (Rule.within scope).Bars (key :: below)) →
              ((Rule.within (scope.put key (.within (nil.excludeAt (next :: rest))))).Bars path ↔
                (Rule.within scope).Bars path ∨ key :: next :: rest <+: path) := by
            intro hnone
            apply bars_put_of_below
            intro below
            simp [hinner, hnone, Rule.not_within_nil_bars]
          cases hfound : scope.find? key with
          | none =>
              simp only [excludeAt, hfound]
              apply hfresh
              intro below
              simp [Rule.within_bars_cons, hfound]
          | some rule =>
              cases rule with
              | keep =>
                  simp only [excludeAt, hfound]
                  apply hfresh
                  intro below
                  simp [Rule.within_bars_cons, hfound, Rule.not_keep_bars]
              | exclude =>
                  -- the way ends here, and everything beyond is barred already
                  simp only [excludeAt, hfound]
                  constructor
                  · exact .inl
                  · intro h
                    rcases h with h | ⟨more, rfl⟩
                    · exact h
                    · exact .key hfound (.excluded _)
              | within inner =>
                  simp only [excludeAt, hfound]
                  apply bars_put_of_below
                  intro below
                  simp [hinner, Rule.within_bars_cons, hfound]

/-! ## Names that are looked up by their own key alone -/

/-- In scopes that keep every name without a key of its own, nothing is excluded but what is
barred. -/
theorem bars_of_excludes (literal : Scope → Prop)
    (hbelow : ∀ {outer inner : Scope} {key : String}, literal outer →
      outer.find? key = some (.within inner) → literal inner)
    (hkeeps : ∀ {outer : Scope} {name : String}, literal outer → outer.find? name = none →
      (Rule.within outer).verdict timeout name = .keep)
    (h : literal scope) (hexcludes : (Rule.within scope).Excludes timeout path) :
    (Rule.within scope).Bars path := by
  induction path generalizing scope with
  | nil =>
      exact absurd hexcludes Rule.not_within_excludes_nil
  | cons name path ih =>
      have hname := Rule.within_excludes_cons.1 hexcludes
      cases hfound : scope.find? name with
      | none =>
          -- no key speaks of the name, so it is kept with all that is below it
          have hverdict : (Rule.within scope).verdict timeout name = .keep := hkeeps h hfound
          simp only [hverdict] at hname
          exact absurd hname (Rule.not_keep_excludes path)
      | some rule =>
          have hverdict : (Rule.within scope).verdict timeout name = rule :=
            verdict_of_find? hfound
          simp only [hverdict] at hname
          apply Rule.Bars.key hfound
          cases rule with
          | keep => exact absurd hname (Rule.not_keep_excludes path)
          | exclude => exact .excluded path
          | within inner => exact ih (hbelow h hfound) hname

/-- Without stars a name is looked up by its own key alone. -/
theorem Plain.bars_of_excludes (h : scope.Plain)
    (hexcludes : (Rule.within scope).Excludes timeout path) : (Rule.within scope).Bars path :=
  Scope.bars_of_excludes Plain (fun hplain hfound => hplain.find? hfound)
    (fun hplain hnone => hplain.verdict hnone) h hexcludes

end Scope

namespace Pattern

variable {patterns : List String}

/-! ## Patterns -/

private theorem bars_addTo_iff {pattern : String} :
    (Rule.within (addTo scope pattern)).Bars path ↔
      (Rule.within scope).Bars path ∨ pattern ≠ "" ∧ Pattern.path pattern <+: path := by
  unfold addTo
  by_cases hempty : pattern = ""
  · simp [hempty]
  · have hkeys : (Rule.within (scope.excludeAt (Pattern.path pattern))).Bars path ↔
        (Rule.within scope).Bars path ∨ Pattern.path pattern <+: path :=
      Scope.bars_excludeAt_iff (path_ne_nil pattern)
    simpa [hempty] using hkeys

/-- Patterns bar the paths that begin with one of them. -/
theorem bars_scope_iff :
    (Rule.within (Pattern.scope patterns)).Bars path ↔
      ∃ pattern ∈ patterns, pattern ≠ "" ∧ Pattern.path pattern <+: path := by
  have hfold : ∀ start : Scope, (Rule.within (patterns.foldl addTo start)).Bars path ↔
      (Rule.within start).Bars path ∨
        ∃ pattern ∈ patterns, pattern ≠ "" ∧ Pattern.path pattern <+: path := by
    induction patterns with
    | nil =>
        intro start
        simp
    | cons pattern patterns ih =>
        intro start
        simp only [List.foldl_cons, ih, bars_addTo_iff, or_assoc]
        simp
  calc
    (Rule.within (Pattern.scope patterns)).Bars path
        ↔ (Rule.within .nil).Bars path ∨
            ∃ pattern ∈ patterns, pattern ≠ "" ∧ Pattern.path pattern <+: path := hfold .nil
    _ ↔ ∃ pattern ∈ patterns, pattern ≠ "" ∧ Pattern.path pattern <+: path := by
          simp only [Rule.not_within_nil_bars, false_or]

/-- A path that begins with a pattern is excluded, whatever other patterns there are. -/
theorem below_scope_of_prefix {pattern : String} (hmem : pattern ∈ patterns) (hne : pattern ≠ "")
    (hbegins : Pattern.path pattern <+: path) :
    (Rule.within (Pattern.scope patterns)).below timeout path = .exclude := by
  have hbars : (Rule.within (Pattern.scope patterns)).Bars path :=
    bars_scope_iff.2 ⟨pattern, hmem, hne, hbegins⟩
  exact Rule.within_excludes_iff.1 hbars.excludes

/-- Patterns without stars exclude the paths that begin with one of them, and no others. -/
theorem below_scope_iff_of_plain
    (hplain : ∀ pattern ∈ patterns, pattern ≠ "" →
      ∀ key ∈ Pattern.path pattern, Wildcard.isPattern key = false) :
    (Rule.within (Pattern.scope patterns)).below timeout path = .exclude ↔
      ∃ pattern ∈ patterns, pattern ≠ "" ∧ Pattern.path pattern <+: path := by
  have hscope : (Pattern.scope patterns).Plain := by
    apply plain_scope
    intro pattern hmem
    by_cases hempty : pattern = ""
    · subst hempty
      decide
    · exact hplain pattern hmem hempty
  constructor
  · intro hbelow
    have hexcludes := Rule.within_excludes_iff.2 hbelow
    exact bars_scope_iff.1 (hscope.bars_of_excludes hexcludes)
  · intro h
    rcases h with ⟨pattern, hmem, hne, hbegins⟩
    exact below_scope_of_prefix hmem hne hbegins

end Pattern

end Lookahead
