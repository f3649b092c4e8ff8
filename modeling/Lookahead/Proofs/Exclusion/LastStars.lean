import Lookahead.Proofs.Exclusion.Growth
import Lookahead.Proofs.Exclusion.Shortest

/-!
# Exclusion.LastStars — patterns with stars in their last segments only

The keys with stars are tried in order, since a later scope takes the place of an earlier one. If
stars stand only at the ends of patterns there are no such scopes: every key with a star excludes.
A name without a key of its own is then left out if any of them is found in it, and the order of the
keys is of no concern any more.

* `Rule.ExcludesSame` — two rules exclude the same paths;
* `Pattern.StarsLast`, `Scope.StarsExclude` — stars at the ends of patterns, and what comes of them;
* `Scope.StarsExclude.verdict` — the search as a question about the set of keys;
* `Pattern.excludesSame_scope` — the same patterns in any order exclude the same.
-/

namespace Lookahead

variable {timeout : Timeout} {name key : String} {path : List String} {scope : Scope}

/-! ## Rules that exclude the same -/

namespace Rule

variable {rule other : Rule}

/-- A rule that is no exclusion excludes below a name what its rule for the name does. -/
theorem excludes_cons (h : rule ≠ .exclude) :
    rule.Excludes timeout (name :: path) ↔ (rule.verdict timeout name).Excludes timeout path := by
  cases rule with
  | keep => exact iff_of_false (not_keep_excludes _) (not_keep_excludes _)
  | exclude => exact absurd rfl h
  | within scope => exact within_excludes_cons

/-- Two rules exclude the same paths. -/
def ExcludesSame (timeout : Timeout) (rule other : Rule) : Prop :=
  ∀ path, rule.Excludes timeout path ↔ other.Excludes timeout path

namespace ExcludesSame

theorem refl (rule : Rule) : ExcludesSame timeout rule rule :=
  fun _ => Iff.rfl

/-- The empty path tells which rules exclude. -/
theorem eq_exclude_iff (h : ExcludesSame timeout rule other) :
    rule = .exclude ↔ other = .exclude := by
  simpa [Excludes] using h []

/-- What rules exclude below a name is again the same. -/
theorem verdict (h : ExcludesSame timeout rule other) (name : String) :
    ExcludesSame timeout (rule.verdict timeout name) (other.verdict timeout name) := by
  intro path
  by_cases hexclude : rule = .exclude
  · -- nothing is looked up below an exclusion, whichever of the two it is
    have hother : other = .exclude := h.eq_exclude_iff.1 hexclude
    simp [hexclude, hother]
  · have hother : other ≠ .exclude := mt h.eq_exclude_iff.2 hexclude
    simpa only [excludes_cons hexclude, excludes_cons hother] using h (name :: path)

theorem of_verdicts {left right : Scope}
    (h : ∀ name, ExcludesSame timeout ((within left).verdict timeout name)
      ((within right).verdict timeout name)) :
    ExcludesSame timeout (within left) (within right) := by
  intro path
  cases path with
  | nil => exact iff_of_false not_within_excludes_nil not_within_excludes_nil
  | cons name path => simpa only [within_excludes_cons] using h name path

end ExcludesSame

end Rule

/-! ## Keys that exclude -/

namespace Scope

/-- Every key with a star excludes, at every level. -/
def StarsExclude (scope : Scope) : Prop :=
  scope.Everywhere fun key rule => Wildcard.isPattern key = true → rule = .exclude

namespace StarsExclude

theorem inner (h : scope.StarsExclude) {inner : Scope}
    (hfound : scope.find? key = some (.within inner)) : inner.StarsExclude :=
  (h.find? hfound).2 inner rfl

theorem excludeAt (h : scope.StarsExclude)
    (hway : ∀ key ∈ path.dropLast, Wildcard.isPattern key = false) :
    (scope.excludeAt path).StarsExclude := by
  refine Everywhere.excludeAt h (fun _ _ _ => rfl) ?_
  intro key hmem inner _ hpattern
  simp [hway key hmem] at hpattern

/-- The search comes to an exclusion if there is a key that matches, wherever it stands. -/
theorem decideWhere (h : scope.StarsExclude) (matching : String → Bool) (found : Rule) :
    decideWhere matching found scope.entries =
      if scope.keys.any (fun key => Wildcard.isPattern key && matching key) then .exclude
      else found := by
  induction scope using consInduction with
  | nil =>
      rfl
  | cons key rule rest _ ih =>
      rcases everywhere_cons.1 h with ⟨hkey, -, hrest⟩
      simp only [entries_cons, keys_cons, Scope.decideWhere, List.any_cons, ih hrest]
      by_cases hmatch : (Wildcard.isPattern key && matching key) = true
      · have hrule : rule = .exclude := hkey (Bool.and_eq_true_iff.1 hmatch).1
        simp [hmatch, hrule]
      · simp [hmatch]

theorem verdict (h : scope.StarsExclude) (hnone : scope.find? name = none) :
    (Rule.within scope).verdict timeout name =
      if scope.keys.any (fun key => Wildcard.isPattern key && timeout.finds name key) then .exclude
      else .keep := by
  simp only [Rule.verdict, Rule.ruleWhere, ruleWhere, hnone, Option.getD_none, h.decideWhere]

/-- Scopes with the same keys exclude the same, in whatever order they have them. -/
theorem excludesSame {left right : Scope} (hl : left.StarsExclude) (hr : right.StarsExclude)
    (h : (Rule.within left).SameMap (.within right)) :
    Rule.ExcludesSame timeout (.within left) (.within right) := by
  induction left using belowInduction generalizing right with
  | step left ih =>
      cases h with
      | within hkeys hrules =>
          apply Rule.ExcludesSame.of_verdicts
          intro name
          have hthere : (left.find? name).isSome ↔ (right.find? name).isSome := by
            simpa only [find?_isSome_iff] using hkeys name
          cases hleft : left.find? name with
          | none =>
              -- no key is the name, so those with stars decide, and they are the same
              have hright : right.find? name = none := by
                simpa [hleft] using hthere
              have hany :
                  left.keys.any (fun key => Wildcard.isPattern key && timeout.finds name key) =
                  right.keys.any fun key => Wildcard.isPattern key && timeout.finds name key := by
                apply Bool.eq_iff_iff.2
                simp only [List.any_eq_true, hkeys]
              simpa only [hl.verdict hleft, hr.verdict hright, hany] using .refl _
          | some rule =>
              have hsome : (right.find? name).isSome := by
                simpa [hleft] using hthere
              rcases Option.isSome_iff_exists.1 hsome with ⟨other, hright⟩
              simp only [verdict_of_find? hleft, verdict_of_find? hright]
              cases hrules name rule other hleft hright with
              | keep => exact .refl _
              | exclude => exact .refl _
              | within hkeys hrules =>
                  exact ih name _ hleft (hl.inner hleft) (hr.inner hright) (.within hkeys hrules)

end StarsExclude

end Scope

/-! ## Patterns -/

namespace Pattern

variable {patterns others : List String}

/-- No segment of a pattern has stars but the last one. -/
def StarsLast (pattern : String) : Prop :=
  ∀ key ∈ (Pattern.path pattern).dropLast, Wildcard.isPattern key = false

instance : DecidablePred StarsLast :=
  fun pattern => inferInstanceAs (Decidable (∀ key ∈ (Pattern.path pattern).dropLast, _))

theorem starsExclude_scope (h : ∀ pattern ∈ patterns, StarsLast pattern) :
    (Pattern.scope patterns).StarsExclude := by
  refine scope_preserves (motive := Scope.StarsExclude) trivial ?_
  intro pattern hmem scope hscope
  exact hscope.excludeAt (h pattern hmem)

/-- The same patterns in another order, or more often, exclude the same. -/
theorem excludesSame_scope (hlast : ∀ pattern ∈ patterns, StarsLast pattern)
    (hmem : ∀ pattern, pattern ∈ others ↔ pattern ∈ patterns) :
    Rule.ExcludesSame timeout (.within (Pattern.scope others))
      (.within (Pattern.scope patterns)) := by
  have hothers : ∀ pattern ∈ others, StarsLast pattern :=
    fun pattern h => hlast pattern ((hmem pattern).1 h)
  exact (starsExclude_scope hothers).excludesSame (starsExclude_scope hlast) (sameMap_scope hmem)

end Pattern

end Lookahead
