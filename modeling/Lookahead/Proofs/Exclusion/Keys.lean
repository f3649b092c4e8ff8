import Lookahead.Exclusion.Pattern

/-!
# Exclusion.Keys — what scopes keep while patterns are added

The scope of some patterns is made from the empty one by setting rules under keys: a pattern sets
an exclusion under its last key, and scopes that are not empty under the keys before it. A property
that goes on in inner scopes and is kept by each of these changes is kept by a whole pattern, and so
holds of the scope of any patterns.

* `Rule.get?` — the rule at the end of a path of keys;
* `Scope.excludeAt_preserves`, `Pattern.scope_preserves` — from one key to all patterns;
* `Scope.Everywhere` — all keys have a property together with their rules, at every level;
* `Scope.Filled` — every key excludes, or leads to a scope that has keys;
* `Scope.Distinct.mem_entries_iff` — with distinct keys, looking a key up and going through all keys
  agree;
* `Pattern.distinct_scope`, `Pattern.filled_scope` — no key occurs twice in the scope of patterns,
  and none was made in vain.
-/

namespace Lookahead

variable {scope inner rest : Scope} {key : String} {rule : Rule} {path front : List String}

namespace Rule

/-! ## Rules at the end of a path -/

/-- The rule at the end of a path of keys, if the path leads through scopes. -/
def get? : List String → Rule → Option Rule
  | [], rule => some rule
  | key :: path, within scope => (scope.find? key).bind (get? path)
  | _ :: _, _ => none

@[simp]
theorem get?_nil (rule : Rule) : rule.get? [] = some rule := by
  cases rule <;> rfl

@[simp]
theorem within_get?_cons (scope : Scope) (key : String) (path : List String) :
    (within scope).get? (key :: path) = (scope.find? key).bind (get? path) := rfl

theorem get?_append (front back : List String) (rule : Rule) :
    rule.get? (front ++ back) = (rule.get? front).bind (get? back) := by
  induction front generalizing rule with
  | nil =>
      simp
  | cons key front ih =>
      cases rule with
      | keep => rfl
      | exclude => rfl
      | within scope =>
          cases hfound : scope.find? key with
          | none => simp [hfound]
          | some inner => simpa [hfound] using ih inner

/-- Nothing stands behind an exclusion. -/
theorem get?_append_of_exclude (h : rule.get? front = some .exclude) (hpath : path ≠ []) :
    rule.get? (front ++ path) = none := by
  cases path with
  | nil => exact absurd rfl hpath
  | cons key path => simp [get?_append, h, get?]

end Rule

namespace Scope

/-! ## Keys that are there -/

theorem find?_isSome_iff : (scope.find? key).isSome ↔ key ∈ scope.keys := by
  induction scope using consInduction with
  | nil =>
      simp [find?, keys]
  | cons k old rest _ ih =>
      by_cases hk : k = key
      · simp [find?_cons, keys_cons, hk]
      · have hne : key ≠ k := fun e => hk e.symm
        simpa [find?_cons, keys_cons, hk, hne] using ih

theorem ne_nil_of_find? (hfound : scope.find? key = some rule) : scope ≠ nil := by
  rintro rfl
  cases hfound

theorem put_ne_nil (key : String) (rule : Rule) (scope : Scope) : scope.put key rule ≠ nil := by
  have hfound : (scope.put key rule).find? key = some rule := by
    simp [find?_put]
  exact ne_nil_of_find? hfound

theorem excludeAt_ne_nil (hpath : path ≠ []) : scope.excludeAt path ≠ nil := by
  cases path with
  | nil =>
      exact absurd rfl hpath
  | cons key path =>
      cases path with
      | nil =>
          exact put_ne_nil key .exclude scope
      | cons next path =>
          rw [excludeAt]
          split
          · next hfound => exact ne_nil_of_find? hfound
          · exact put_ne_nil _ _ scope
          · exact put_ne_nil _ _ scope

/-! ## From one key to a path of keys -/

/-- Excluding a path keeps what is kept by excluding its last key and by setting scopes with keys
under those before it. -/
theorem excludeAt_preserves {motive : Scope → Prop} (hnil : motive nil)
    (hbelow : ∀ {scope : Scope} {key : String} {inner : Scope}, motive scope →
      scope.find? key = some (.within inner) → motive inner)
    (hlast : ∀ {scope : Scope} {key : String}, path.getLast? = some key → motive scope →
      motive (scope.put key .exclude))
    (hway : ∀ {scope : Scope} {key : String} {inner : Scope}, key ∈ path.dropLast → motive scope →
      motive inner → inner ≠ nil → motive (scope.put key (.within inner)))
    (h : motive scope) : motive (scope.excludeAt path) := by
  induction path generalizing scope with
  | nil =>
      exact h
  | cons key path ih =>
      cases path with
      | nil =>
          exact hlast rfl h
      | cons next path =>
          have hinner : ∀ inner : Scope,
              motive inner → motive (inner.excludeAt (next :: path)) := by
            intro inner hinner
            refine ih ?_ ?_ hinner
            · intro scope last hend
              exact hlast (by simpa using hend)
            · intro scope other inner hmem
              exact hway (by simp [hmem])
          -- the way leads into the scope that is there, or into a new one
          have hset : ∀ inner : Scope, motive inner →
              motive (scope.put key (.within (inner.excludeAt (next :: path)))) := by
            intro inner hkept
            exact hway (by simp) h (hinner inner hkept) (excludeAt_ne_nil (by simp))
          rw [excludeAt]
          split
          · exact h
          · next inner hfound => exact hset inner (hbelow h hfound)
          · exact hset nil hnil

/-! ## Distinct keys -/

theorem distinct_cons :
    (cons key rule rest).Distinct ↔
      key ∉ rest.keys ∧ (∀ inner, rule = .within inner → inner.Distinct) ∧ rest.Distinct := by
  cases rule <;> simp [cons, Distinct]

theorem Distinct.find? (h : scope.Distinct) (hfound : scope.find? key = some (.within inner)) :
    inner.Distinct := by
  induction scope using consInduction with
  | nil =>
      cases hfound
  | cons k old rest _ ih =>
      rcases distinct_cons.1 h with ⟨_, hold, hrest⟩
      rw [find?_cons] at hfound
      split at hfound
      · cases hfound
        exact hold inner rfl
      · exact ih hrest hfound

theorem Distinct.put (h : scope.Distinct)
    (hrule : ∀ inner, rule = .within inner → inner.Distinct) : (scope.put key rule).Distinct := by
  induction scope using consInduction with
  | nil =>
      exact distinct_cons.2 ⟨List.not_mem_nil, hrule, trivial⟩
  | cons k old rest _ ih =>
      rcases distinct_cons.1 h with ⟨hnew, hold, hrest⟩
      rw [put_cons]
      split
      · next hk =>
          subst hk
          exact distinct_cons.2 ⟨hnew, hrule, hrest⟩
      · next hk =>
          -- a key that is added behind `k` is another one
          refine distinct_cons.2 ⟨?_, hold, ih hrest⟩
          rw [keys_put]
          split
          · exact hnew
          · simpa [hk] using hnew

theorem Distinct.excludeAt (h : scope.Distinct) (path : List String) :
    (scope.excludeAt path).Distinct := by
  refine excludeAt_preserves (motive := Distinct) trivial Distinct.find? ?_ ?_ h
  · intro scope key _ hscope
    exact hscope.put fun _ hinner => nomatch hinner
  · rintro scope key inner _ hscope hinner _
    refine hscope.put ?_
    rintro _ ⟨rfl⟩
    exact hinner

theorem Distinct.of_get? (h : scope.Distinct)
    (hget : (Rule.within scope).get? path = some (.within inner)) : inner.Distinct := by
  induction path generalizing scope with
  | nil =>
      cases hget
      exact h
  | cons key path ih =>
      rcases Option.bind_eq_some_iff.1 hget with ⟨first, hfound, hrest⟩
      cases first with
      | keep => cases path <;> cases hrest
      | exclude => cases path <;> cases hrest
      | within next => exact ih (h.find? hfound) hrest

theorem Distinct.nodup_keys (h : scope.Distinct) : scope.keys.Nodup := by
  induction scope using consInduction with
  | nil =>
      exact List.nodup_nil
  | cons k old rest _ ih =>
      rcases distinct_cons.1 h with ⟨hnew, _, hrest⟩
      simpa [keys_cons] using ⟨hnew, ih hrest⟩

/-- With distinct keys, the entries are what is found under the keys. -/
theorem Distinct.mem_entries_iff (h : scope.Distinct) :
    (key, rule) ∈ scope.entries ↔ scope.find? key = some rule := by
  induction scope using consInduction with
  | nil =>
      simp [entries, Scope.find?]
  | cons k old rest _ ih =>
      rcases distinct_cons.1 h with ⟨hnew, _, hrest⟩
      by_cases hk : k = key
      · -- the key stands in front, so it is not found behind
        subst hk
        have hnone : rest.find? k = none := by
          simpa only [← find?_isSome_iff, Option.not_isSome_iff_eq_none] using hnew
        simp [entries_cons, find?_cons, ih hrest, hnone, eq_comm]
      · have hne : key ≠ k := fun e => hk e.symm
        simp [entries_cons, find?_cons, ih hrest, hk, hne]

/-! ## What holds of all keys -/

/-- Every key, at every level, has a property together with its rule. -/
def Everywhere (holds : String → Rule → Prop) : Scope → Prop
  | nil => True
  | keep key rest => holds key .keep ∧ rest.Everywhere holds
  | exclude key rest => holds key .exclude ∧ rest.Everywhere holds
  | narrow key inner rest =>
      holds key (.within inner) ∧ inner.Everywhere holds ∧ rest.Everywhere holds

variable {holds : String → Rule → Prop}

theorem everywhere_cons :
    (cons key rule rest).Everywhere holds ↔
      holds key rule ∧ (∀ inner, rule = .within inner → inner.Everywhere holds) ∧
        rest.Everywhere holds := by
  cases rule <;> simp [cons, Everywhere]

/-- The property holds of a key that is found, and goes on in the scope it leads to. -/
theorem Everywhere.find? (h : scope.Everywhere holds) (hfound : scope.find? key = some rule) :
    holds key rule ∧ ∀ inner, rule = .within inner → inner.Everywhere holds := by
  induction scope using consInduction with
  | nil =>
      cases hfound
  | cons k old rest _ ih =>
      rcases everywhere_cons.1 h with ⟨hkey, hinner, hrest⟩
      rw [find?_cons] at hfound
      split at hfound
      · next hk =>
          cases hfound
          subst hk
          exact ⟨hkey, hinner⟩
      · exact ih hrest hfound

theorem Everywhere.put (h : scope.Everywhere holds) (hkey : holds key rule)
    (hrule : ∀ inner, rule = .within inner → inner.Everywhere holds) :
    (scope.put key rule).Everywhere holds := by
  induction scope using consInduction with
  | nil =>
      exact everywhere_cons.2 ⟨hkey, hrule, trivial⟩
  | cons k old rest _ ih =>
      rcases everywhere_cons.1 h with ⟨hk, hold, hrest⟩
      rw [put_cons]
      split
      · exact everywhere_cons.2 ⟨hkey, hrule, hrest⟩
      · exact everywhere_cons.2 ⟨hk, hold, ih hrest⟩

theorem Everywhere.excludeAt (h : scope.Everywhere holds)
    (hlast : ∀ key, path.getLast? = some key → holds key .exclude)
    (hway : ∀ key ∈ path.dropLast, ∀ inner, inner ≠ nil → holds key (.within inner)) :
    (scope.excludeAt path).Everywhere holds := by
  refine excludeAt_preserves (motive := Everywhere holds) trivial ?_ ?_ ?_ h
  · intro scope key inner hscope hfound
    exact (hscope.find? hfound).2 inner rfl
  · intro scope key hend hscope
    exact hscope.put (hlast key hend) fun _ hinner => nomatch hinner
  · rintro scope key inner hmem hscope hinner hne
    refine hscope.put (hway key hmem inner hne) ?_
    rintro _ ⟨rfl⟩
    exact hinner

/-- What holds of all keys holds of the last key of a path. -/
theorem Everywhere.of_get? (h : scope.Everywhere holds)
    (hpath : path ≠ []) (hget : (Rule.within scope).get? path = some rule) :
    ∃ key, holds key rule := by
  induction path generalizing scope with
  | nil =>
      exact absurd rfl hpath
  | cons key path ih =>
      rcases Option.bind_eq_some_iff.1 hget with ⟨first, hfound, hrest⟩
      cases path with
      | nil =>
          have hrule : first = rule := by simpa using hrest
          subst hrule
          exact ⟨key, (h.find? hfound).1⟩
      | cons next path =>
          -- a path goes on below scopes only
          cases first with
          | keep => cases hrest
          | exclude => cases hrest
          | within inner => exact ih ((h.find? hfound).2 inner rfl) (by simp) hrest

/-! ## Scopes without keys made in vain -/

/-- Every key excludes, or leads to a scope that has keys. -/
def Filled (scope : Scope) : Prop :=
  scope.Everywhere fun _ rule => rule ≠ .keep ∧ rule ≠ .within .nil

theorem Filled.excludeAt (h : scope.Filled) (path : List String) :
    (scope.excludeAt path).Filled := by
  refine Everywhere.excludeAt h ?_ ?_
  · intro key _
    simp
  · intro key _ inner hne
    simpa using hne

/-- At the end of each path there is an exclusion or a scope that has keys. -/
theorem Filled.exclude_or_within (h : scope.Filled) (hpath : path ≠ [])
    (hget : (Rule.within scope).get? path = some rule) :
    rule = .exclude ∨ ∃ inner, rule = .within inner ∧ inner ≠ .nil := by
  rcases h.of_get? hpath hget with ⟨key, hkeep, hnil⟩
  cases rule with
  | keep => exact absurd rfl hkeep
  | exclude => exact .inl rfl
  | within inner => exact .inr ⟨inner, rfl, fun hinner => hnil (congrArg Rule.within hinner)⟩

end Scope

namespace Pattern

variable {patterns : List String}

/-- What each pattern keeps holds of the scope of all of them. -/
theorem scope_preserves {motive : Scope → Prop} (hnil : motive .nil)
    (hadd : ∀ pattern ∈ patterns, ∀ scope : Scope, motive scope →
      motive (scope.excludeAt (Pattern.path pattern))) : motive (Pattern.scope patterns) := by
  have hfold : ∀ start : Scope, motive start → motive (patterns.foldl addTo start) := by
    induction patterns with
    | nil =>
        exact fun _ hstart => hstart
    | cons pattern patterns ih =>
        rcases List.forall_mem_cons.1 hadd with ⟨hpattern, hrest⟩
        intro start hstart
        refine ih hrest _ ?_
        unfold addTo
        split
        · exact hstart
        · exact hpattern start hstart
  exact hfold .nil hnil

theorem distinct_scope (patterns : List String) : (Pattern.scope patterns).Distinct := by
  refine scope_preserves (motive := Scope.Distinct) trivial ?_
  intro pattern _ scope hscope
  exact hscope.excludeAt (Pattern.path pattern)

theorem filled_scope (patterns : List String) : (Pattern.scope patterns).Filled := by
  refine scope_preserves (motive := Scope.Filled) trivial ?_
  intro pattern _ scope hscope
  exact hscope.excludeAt (Pattern.path pattern)

end Pattern

end Lookahead
