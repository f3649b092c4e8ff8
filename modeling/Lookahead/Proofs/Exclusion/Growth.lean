import Lookahead.Proofs.Exclusion.Descent
import Lookahead.Proofs.Exclusion.Keys

/-!
# Exclusion.Growth — what a further pattern does to a scope

A further pattern makes some fields be left out, and it may also bring fields back. Where it makes
a key that the scope did not have, the key takes names over from keys with stars: a key that is
the name itself comes before all of them, and a new key with stars comes last among the scopes.
What the former rule excluded below such a name is kept unless the new key excludes it as well.

* `Rule.NoStricter` — one rule excludes at most the paths that another one does;
* `Scope.TakesOver` — a new key decides about a name;
* `Scope.LosesNothing` — the key that a path of keys makes first, if it makes one on its way,
  excludes below each name that it takes over at least what was excluded there before;
* `Scope.noStricter_excludeAt_iff` — only then, and always then, nothing is brought back.
-/

namespace Lookahead

variable {timeout : Timeout} {name key : String} {path : List String} {scope : Scope}

/-! ## What a rule excludes -/

namespace Rule

variable {rule other third : Rule}

/-- A field with this rule, or one at the path below it, is left out. -/
def Excludes (timeout : Timeout) (rule : Rule) (path : List String) : Prop :=
  rule = .exclude ∨ rule.below timeout path = .exclude

/-- Whatever `rule` excludes is excluded by `other`. -/
def NoStricter (timeout : Timeout) (rule other : Rule) : Prop :=
  ∀ path, rule.Excludes timeout path → other.Excludes timeout path

theorem exclude_excludes (path : List String) : exclude.Excludes timeout path :=
  .inl rfl

theorem not_keep_excludes (path : List String) : ¬ keep.Excludes timeout path := by
  simp [Excludes]

theorem within_excludes_iff :
    (within scope).Excludes timeout path ↔ (within scope).below timeout path = .exclude := by
  simp [Excludes]

theorem not_within_excludes_nil : ¬ (within scope).Excludes timeout [] := by
  simp [Excludes]

/-- What a scope excludes at a path is what its rule for the first name excludes below it. -/
theorem within_excludes_cons :
    (within scope).Excludes timeout (name :: path) ↔
      ((within scope).verdict timeout name).Excludes timeout path := by
  rw [within_excludes_iff]
  by_cases hname : (within scope).verdict timeout name = .exclude
  · simp [Excludes, below_of_excluded, hname]
  · simp [Excludes, below_of_kept, hname]

namespace NoStricter

theorem refl (rule : Rule) : NoStricter timeout rule rule :=
  fun _ h => h

theorem keep_left (other : Rule) : NoStricter timeout keep other :=
  fun path h => (not_keep_excludes path h).elim

theorem exclude_right (rule : Rule) : NoStricter timeout rule exclude :=
  fun path _ => exclude_excludes path

/-- Nothing but an exclusion excludes as much as an exclusion. -/
theorem eq_exclude (h : NoStricter timeout exclude other) : other = exclude := by
  have hhere := h [] (exclude_excludes [])
  simpa [Excludes] using hhere

/-- Scopes are compared name by name. -/
theorem within_iff {inner outer : Scope} :
    NoStricter timeout (within inner) (within outer) ↔
      ∀ name, NoStricter timeout ((within inner).verdict timeout name)
        ((within outer).verdict timeout name) := by
  constructor
  · intro h name path hexcludes
    have hpath := h (name :: path) (within_excludes_cons.2 hexcludes)
    exact within_excludes_cons.1 hpath
  · intro h path hexcludes
    cases path with
    | nil =>
        exact (not_within_excludes_nil hexcludes).elim
    | cons name path =>
        rw [within_excludes_cons] at hexcludes ⊢
        exact h name path hexcludes

end NoStricter

end Rule

namespace Scope

open Rule (NoStricter)

variable {rule found other : Rule} {matching : String → Bool}

/-! ## A key that is there already -/

/-- Both scopes have the same keys in the same places, and the rules of the second one exclude all
that those of the first one do. -/
inductive Stricter (timeout : Timeout) : Scope → Scope → Prop
  | nil : Stricter timeout nil nil
  | cons {key : String} {rule stricterRule : Rule} {rest stricterRest : Scope}
      (hrule : NoStricter timeout rule stricterRule) (hrest : Stricter timeout rest stricterRest) :
      Stricter timeout (cons key rule rest) (cons key stricterRule stricterRest)

theorem Stricter.refl (scope : Scope) : Stricter timeout scope scope := by
  induction scope using consInduction with
  | nil => exact .nil
  | cons key rule rest _ ih => exact .cons (.refl rule) ih

theorem stricter_put (hfound : scope.find? key = some found)
    (hstricter : NoStricter timeout found rule) : Stricter timeout scope (scope.put key rule) := by
  induction scope using consInduction with
  | nil =>
      cases hfound
  | cons k old rest _ ih =>
      rw [find?_cons] at hfound
      rw [put_cons]
      split at hfound
      · next hk =>
          cases hfound
          subst hk
          rw [if_pos rfl]
          exact .cons hstricter (.refl rest)
      · next hk =>
          rw [if_neg hk]
          exact .cons (.refl old) (ih hfound)

/-- Stricter rules under the same keys come to a stricter rule. -/
theorem Stricter.decideWhere {stricter : Scope} (h : Stricter timeout scope stricter)
    (hfound : NoStricter timeout found other) :
    NoStricter timeout (decideWhere matching found scope.entries)
      (decideWhere matching other stricter.entries) := by
  induction h generalizing found other with
  | nil =>
      exact hfound
  | @cons key rule stricterRule rest stricterRest hrule _ ih =>
      simp only [entries_cons, Scope.decideWhere]
      split
      · by_cases hexclude : rule = .exclude
        · -- only an exclusion can stand where an exclusion has stood
          subst hexclude
          rw [if_pos rfl, if_pos hrule.eq_exclude]
          exact NoStricter.refl _
        · rw [if_neg hexclude]
          split
          · exact NoStricter.exclude_right _
          · exact ih hrule
      · exact ih hfound

theorem noStricter_verdict_put (hfound : scope.find? key = some found)
    (hstricter : NoStricter timeout found rule) (name : String) :
    NoStricter timeout ((Rule.within scope).verdict timeout name)
      ((Rule.within (scope.put key rule)).verdict timeout name) := by
  simp only [Rule.verdict, Rule.ruleWhere, ruleWhere, find?_put]
  -- the key decides about itself; other names have their own key or are left to those with stars
  split
  · next hkey =>
      subst hkey
      simpa [hfound] using hstricter
  · cases scope.find? name with
    | some decided => exact NoStricter.refl decided
    | none => exact (stricter_put hfound hstricter).decideWhere (NoStricter.refl .keep)

/-! ## A new key -/

theorem decideWhere_append (hfound : found ≠ .exclude) (entries more : List (String × Rule)) :
    decideWhere matching found (entries ++ more) =
      if decideWhere matching found entries = .exclude then .exclude
      else decideWhere matching (decideWhere matching found entries) more := by
  induction entries generalizing found with
  | nil =>
      simp [decideWhere, hfound]
  | cons entry entries ih =>
      rcases entry with ⟨key, rule⟩
      simp only [List.cons_append, decideWhere]
      split
      · split
        · simp
        · next hrule => exact ih hrule
      · exact ih hfound

theorem entries_put_of_new (hnew : scope.find? key = none) :
    (scope.put key rule).entries = scope.entries ++ [(key, rule)] := by
  induction scope using consInduction with
  | nil =>
      exact entries_cons key rule .nil
  | cons k old rest _ ih =>
      rw [find?_cons] at hnew
      split at hnew
      · cases hnew
      · next hk =>
          rw [put_cons, if_neg hk, entries_cons, entries_cons, ih hnew, List.cons_append]

/-- A key that a scope does not have would decide about a name: it is the name, or it has stars and
is found in a name that has no key of its own and is not excluded. -/
def TakesOver (timeout : Timeout) (key name : String) (scope : Scope) : Prop :=
  name = key ∨
    Wildcard.isPattern key = true ∧ timeout.finds name key = true ∧ scope.find? name = none ∧
      (Rule.within scope).verdict timeout name ≠ .exclude

/-- A new key comes last among those with stars. -/
theorem verdict_put_of_new (hnew : scope.find? key = none) (hname : name ≠ key)
    (hnone : scope.find? name = none) :
    (Rule.within (scope.put key rule)).verdict timeout name =
      if (Rule.within scope).verdict timeout name = .exclude then .exclude
      else if Wildcard.isPattern key = true ∧ timeout.finds name key = true then rule
      else (Rule.within scope).verdict timeout name := by
  have hfind : (scope.put key rule).find? name = none := by
    rw [find?_put, if_neg (Ne.symm hname), hnone]
  have hkeep : Rule.keep ≠ .exclude := by simp
  have happend : ∀ matching, decideWhere matching .keep (scope.entries ++ [(key, rule)]) =
      if decideWhere matching .keep scope.entries = .exclude then .exclude
      else decideWhere matching (decideWhere matching .keep scope.entries) [(key, rule)] := by
    intro matching
    exact decideWhere_append hkeep scope.entries [(key, rule)]
  simp only [Rule.verdict, Rule.ruleWhere, ruleWhere, hfind, hnone, Option.getD_none,
    entries_put_of_new hnew, happend]
  congr 1
  by_cases hkey : Wildcard.isPattern key = true ∧ timeout.finds name key = true
  · -- nothing comes behind the new key, so its rule stands
    have hrule : (if rule = .exclude then .exclude else rule) = rule := by
      split
      · next hexclude => exact hexclude.symm
      · rfl
    simpa [decideWhere, hkey] using hrule
  · simp [decideWhere, hkey]

theorem verdict_put_of_takesOver (hnew : scope.find? key = none)
    (htakes : scope.TakesOver timeout key name) :
    (Rule.within (scope.put key rule)).verdict timeout name = rule := by
  by_cases hname : name = key
  · subst hname
    simp [Rule.verdict, Rule.ruleWhere, ruleWhere, find?_put]
  · rcases htakes with hkey | ⟨hpattern, hfinds, hnone, hkept⟩
    · exact absurd hkey hname
    · rw [verdict_put_of_new hnew hname hnone, if_neg hkept, if_pos ⟨hpattern, hfinds⟩]

theorem verdict_put_of_not_takesOver (hnew : scope.find? key = none)
    (htakes : ¬ scope.TakesOver timeout key name) :
    (Rule.within (scope.put key rule)).verdict timeout name =
      (Rule.within scope).verdict timeout name := by
  have hname : name ≠ key := fun hkey => htakes (.inl hkey)
  cases hfound : scope.find? name with
  | some decided =>
      simp [Rule.verdict, Rule.ruleWhere, ruleWhere, find?_put, hfound, Ne.symm hname]
  | none =>
      rw [verdict_put_of_new hnew hname hfound]
      split
      · next hexclude => exact hexclude.symm
      · next hkept =>
          refine if_neg ?_
          rintro ⟨hpattern, hfinds⟩
          exact htakes (.inr ⟨hpattern, hfinds, hfound, hkept⟩)

/-- A new key does no harm if its rule is no less strict than those it replaces. -/
theorem noStricter_put_of_new (hnew : scope.find? key = none)
    (hlost : ∀ name, scope.TakesOver timeout key name →
      NoStricter timeout ((Rule.within scope).verdict timeout name) rule) (name : String) :
    NoStricter timeout ((Rule.within scope).verdict timeout name)
      ((Rule.within (scope.put key rule)).verdict timeout name) := by
  by_cases htakes : scope.TakesOver timeout key name
  · rw [verdict_put_of_takesOver hnew htakes]
    exact hlost name htakes
  · rw [verdict_put_of_not_takesOver hnew htakes]
    exact NoStricter.refl _

/-! ## A path of keys -/

/-- The first key that a path of keys makes on its way, if it makes one, excludes below each name
that it takes over whatever was excluded there before. The end of the path is no such key, since
it only excludes. -/
def LosesNothing (timeout : Timeout) : List String → Scope → Prop
  | [], _ => True
  | [_], _ => True
  | key :: next :: path, scope =>
      match scope.find? key with
      | some (.within inner) => inner.LosesNothing timeout (next :: path)
      | some _ => True
      | none =>
          ∀ name, scope.TakesOver timeout key name →
            NoStricter timeout ((Rule.within scope).verdict timeout name)
              (.within (nil.excludeAt (next :: path)))

theorem verdict_of_find? (hfound : scope.find? name = some found) :
    (Rule.within scope).verdict timeout name = found := by
  simp [Rule.verdict, Rule.ruleWhere, ruleWhere, hfound]

/-- Excluding the end of a path brings nothing back exactly if its first new key loses nothing. -/
theorem noStricter_excludeAt_iff :
    NoStricter timeout (.within scope) (.within (scope.excludeAt path)) ↔
      scope.LosesNothing timeout path := by
  induction path generalizing scope with
  | nil =>
      exact iff_of_true (.refl _) trivial
  | cons key path ih =>
      cases path with
      | nil =>
          -- the end of a path is excluded, and nothing is stricter than that
          refine iff_of_true (NoStricter.within_iff.2 ?_) trivial
          cases hfound : scope.find? key with
          | some found => exact noStricter_verdict_put hfound (.exclude_right found)
          | none => exact noStricter_put_of_new hfound fun _ _ => .exclude_right _
      | cons next path =>
          rw [LosesNothing, excludeAt]
          cases hfound : scope.find? key with
          | none =>
              -- here the new key is made, and what it takes over is what the condition speaks of
              rw [NoStricter.within_iff]
              constructor
              · intro h name htakes
                have hname := h name
                rwa [verdict_put_of_takesOver hfound htakes] at hname
              · exact noStricter_put_of_new hfound
          | some found =>
              cases found with
              | keep =>
                  refine iff_of_true (NoStricter.within_iff.2 ?_) trivial
                  exact noStricter_verdict_put hfound (.keep_left _)
              | exclude =>
                  -- nothing is left to do below an excluded key
                  exact iff_of_true (.refl _) trivial
              | within inner =>
                  -- the key itself is a name whose rule is the scope below the key
                  have hinner : NoStricter timeout (.within inner)
                      (.within (inner.excludeAt (next :: path))) ↔
                        inner.LosesNothing timeout (next :: path) := ih
                  refine Iff.trans ?_ hinner
                  rw [NoStricter.within_iff]
                  constructor
                  · intro h
                    have hkey := h key
                    rwa [verdict_of_find? hfound,
                      verdict_of_find? (by rw [find?_put, if_pos rfl])] at hkey
                  · exact noStricter_verdict_put hfound

/-! ## Keys without stars -/

/-- No key has stars, neither in the scope nor in one below it. -/
def Plain : Scope → Prop
  | nil => True
  | keep key rest => Wildcard.isPattern key = false ∧ rest.Plain
  | exclude key rest => Wildcard.isPattern key = false ∧ rest.Plain
  | narrow key inner rest => Wildcard.isPattern key = false ∧ inner.Plain ∧ rest.Plain

theorem plain_cons {rest : Scope} :
    (cons key rule rest).Plain ↔
      Wildcard.isPattern key = false ∧ (∀ inner, rule = .within inner → inner.Plain) ∧
        rest.Plain := by
  cases rule <;> simp [cons, Plain]

theorem plain_iff_everywhere :
    scope.Plain ↔ scope.Everywhere fun key _ => Wildcard.isPattern key = false := by
  induction scope with
  | nil => exact Iff.rfl
  | keep key rest ih => simp [Plain, Everywhere, ih]
  | exclude key rest ih => simp [Plain, Everywhere, ih]
  | narrow key inner rest ihinner ih => simp [Plain, Everywhere, ihinner, ih]

theorem Plain.find? (h : scope.Plain) {inner : Scope}
    (hfound : scope.find? key = some (.within inner)) : inner.Plain := by
  have hkeys := plain_iff_everywhere.1 h
  exact plain_iff_everywhere.2 ((hkeys.find? hfound).2 inner rfl)

theorem Plain.excludeAt (h : scope.Plain) (hpath : ∀ key ∈ path, Wildcard.isPattern key = false) :
    (scope.excludeAt path).Plain := by
  refine plain_iff_everywhere.2 (Everywhere.excludeAt (plain_iff_everywhere.1 h) ?_ ?_)
  · intro key hend
    exact hpath key (List.mem_of_getLast? hend)
  · intro key hmem _ _
    exact hpath key (List.dropLast_subset path hmem)

/-- Without stars, a name without a key of its own is kept. -/
theorem Plain.verdict (h : scope.Plain) (hnone : scope.find? name = none) :
    (Rule.within scope).verdict timeout name = .keep := by
  have hdecide : Scope.decideWhere (timeout.finds name) .keep scope.entries = .keep := by
    clear hnone
    induction scope using consInduction with
    | nil =>
        rfl
    | cons k old rest _ ih =>
        rcases plain_cons.1 h with ⟨hk, _, hrest⟩
        simpa [entries_cons, Scope.decideWhere, hk] using ih hrest
  simp [Rule.verdict, Rule.ruleWhere, ruleWhere, hnone, hdecide]

/-- Where no key has stars, a new key takes over nothing but names that were kept. -/
theorem Plain.losesNothing (h : scope.Plain) (path : List String) :
    scope.LosesNothing timeout path := by
  induction path generalizing scope with
  | nil =>
      trivial
  | cons key path ih =>
      cases path with
      | nil =>
          trivial
      | cons next path =>
          rw [LosesNothing]
          split
          · next inner hfound => exact ih (h.find? hfound)
          · trivial
          · next hnew =>
              intro name htakes
              -- either way the name had no key of its own, and there are no keys with stars
              have hnone : scope.find? name = none := by
                rcases htakes with rfl | ⟨_, _, hnone, _⟩
                · exact hnew
                · exact hnone
              rw [h.verdict hnone]
              exact NoStricter.keep_left _

end Scope

/-! ## A further pattern -/

namespace Pattern

/-- A further pattern excludes all that the patterns before it do, below each name for which it
makes a new key decide. -/
def LosesNothing (timeout : Timeout) (patterns : List String) (pattern : String) : Prop :=
  (Pattern.scope patterns).LosesNothing timeout (Pattern.path pattern)

theorem noStricter_scope_iff {patterns : List String} {pattern : String} :
    Rule.NoStricter timeout (.within (Pattern.scope patterns))
        (.within (Pattern.scope (patterns ++ [pattern]))) ↔
      LosesNothing timeout patterns pattern := by
  have happend : Pattern.scope (patterns ++ [pattern]) = addTo (Pattern.scope patterns) pattern :=
    scope_append patterns [pattern]
  rw [happend, addTo]
  split
  · next hempty =>
      -- the empty pattern is the path of one empty name, and a single name loses nothing
      subst hempty
      exact iff_of_true (.refl _) trivial
  · exact Scope.noStricter_excludeAt_iff

theorem plain_scope {patterns : List String}
    (h : ∀ pattern ∈ patterns, ∀ key ∈ Pattern.path pattern, Wildcard.isPattern key = false) :
    (Pattern.scope patterns).Plain := by
  refine scope_preserves (motive := Scope.Plain) trivial ?_
  intro pattern hmem scope hscope
  exact hscope.excludeAt (h pattern hmem)

end Pattern

end Lookahead
