import Lookahead.Proofs.Exclusion.Exact

/-!
# Exclusion.Expiry — patterns that cannot be tried in time

If the time is over before any match is found, keys with stars match nothing. What is left of a rule
then are its keys without stars, at every level. These come first whenever they speak of a name, so
they say the same however long matches may take, and a match that times out can only keep a field.

* `Timeout.Expires` — no search finds anything;
* `Rule.starless` — a rule without its keys with stars;
* `Rule.verdict_starless` — it says of a name without stars what the rule says when time is over;
* `Rule.below_of_expires` — what is excluded when time is over is excluded in any case.
-/

namespace Lookahead

variable {timeout : Timeout} {name : String} {path : List String} {scope : Scope} {rule : Rule}

namespace Timeout

/-- Whatever a search would find, the time is over before. -/
def Expires (timeout : Timeout) : Prop :=
  ∀ name pattern, timeout.search name pattern ≠ .found

/-- The standard engine finds nothing within a limit that is too short. -/
theorem expires_standard {setting : Setting}
    (h : Engine.tooShort (limit ⟨setting, .standard⟩) = true) : Expires ⟨setting, .standard⟩ :=
  fun _ _ => Engine.standard_search_ne_found h

theorem Expires.finds (h : timeout.Expires) (name pattern : String) :
    timeout.finds name pattern = false := by
  simp [Timeout.finds, h name pattern]

end Timeout

/-! ## Keys without stars -/

/-- The keys without stars, at every level. -/
def Scope.starless : Scope → Scope
  | nil => nil
  | keep key rest => if Wildcard.isPattern key then rest.starless else keep key rest.starless
  | exclude key rest => if Wildcard.isPattern key then rest.starless else exclude key rest.starless
  | narrow key inner rest =>
      if Wildcard.isPattern key then rest.starless else narrow key inner.starless rest.starless

/-- The rule without keys with stars. -/
def Rule.starless : Rule → Rule
  | within scope => within scope.starless
  | rule => rule

theorem Rule.starless_eq_exclude_iff : rule.starless = .exclude ↔ rule = .exclude := by
  cases rule <;> simp [starless]

namespace Scope

theorem starless_cons (key : String) (rule : Rule) (rest : Scope) :
    (cons key rule rest).starless =
      if Wildcard.isPattern key then rest.starless else cons key rule.starless rest.starless := by
  cases rule <;> rfl

theorem plain_starless (scope : Scope) : scope.starless.Plain := by
  induction scope with
  | nil =>
      trivial
  | keep key rest ih =>
      by_cases hkey : Wildcard.isPattern key
      · simpa [starless, hkey] using ih
      · simpa [starless, hkey, Plain] using ih
  | exclude key rest ih =>
      by_cases hkey : Wildcard.isPattern key
      · simpa [starless, hkey] using ih
      · simpa [starless, hkey, Plain] using ih
  | narrow key inner rest ihinner ih =>
      by_cases hkey : Wildcard.isPattern key
      · simpa [starless, hkey] using ih
      · simpa [starless, hkey, Plain] using ⟨ihinner, ih⟩

/-- A name without stars keeps its key. -/
theorem find?_starless (hname : Wildcard.isPattern name = false) (scope : Scope) :
    scope.starless.find? name = (scope.find? name).map Rule.starless := by
  induction scope using consInduction with
  | nil =>
      rfl
  | cons key rule rest _ ih =>
      simp only [starless_cons, find?_cons]
      by_cases hkey : key = name
      · -- the key has no stars because the name has none
        subst hkey
        simp [hname, find?_cons]
      · by_cases hstars : Wildcard.isPattern key
        · simpa [hkey, hstars] using ih
        · simpa [hkey, hstars, find?_cons] using ih

/-- When time is over, a name without a key of its own is kept. -/
theorem verdict_of_expires (hexpires : timeout.Expires) (hnone : scope.find? name = none) :
    (Rule.within scope).verdict timeout name = .keep := by
  have hdecide : ∀ entries, decideWhere (timeout.finds name) .keep entries = .keep := by
    intro entries
    induction entries with
    | nil => rfl
    | cons entry entries ih => simpa [decideWhere, hexpires.finds] using ih
  simp [Rule.verdict, Rule.ruleWhere, ruleWhere, hnone, hdecide]

end Scope

/-! ## Rules when time is over -/

namespace Rule

/-- What a rule says of a name when time is over is what its keys without stars say, within any
limit. -/
theorem verdict_starless (hexpires : timeout.Expires)
    (hname : Wildcard.isPattern name = false) (other : Timeout) (rule : Rule) :
    rule.starless.verdict other name = (rule.verdict timeout name).starless := by
  cases rule with
  | keep => rfl
  | exclude => rfl
  | within scope =>
      -- a key of the name itself decides on both sides; without one nothing matches on either
      have hfind := Scope.find?_starless hname scope
      cases hfound : scope.find? name with
      | none =>
          have hover : (within scope).verdict timeout name = .keep :=
            Scope.verdict_of_expires hexpires hfound
          have hnone : scope.starless.find? name = none := by simp [hfind, hfound]
          have hstarless : (within scope.starless).verdict other name = .keep :=
            scope.plain_starless.verdict hnone
          simpa only [starless, hover] using hstarless
      | some inner =>
          have hkey : (within scope).verdict timeout name = inner := Scope.verdict_of_find? hfound
          have hsome : scope.starless.find? name = some inner.starless := by simp [hfind, hfound]
          have hstarless : (within scope.starless).verdict other name = inner.starless :=
            Scope.verdict_of_find? hsome
          simpa only [starless, hkey] using hstarless

/-- What is excluded when time is over is excluded however long matches may take: it is barred by
keys that are the names themselves. -/
theorem below_of_expires (hexpires : timeout.Expires)
    (h : (within scope).below timeout path = .exclude) (other : Timeout) :
    (within scope).below other path = .exclude := by
  have hbars : (within scope).Bars path :=
    Scope.bars_of_excludes (fun _ => True) (fun _ _ => trivial)
      (fun _ hnone => Scope.verdict_of_expires hexpires hnone) trivial (within_excludes_iff.2 h)
  exact within_excludes_iff.1 hbars.excludes

end Rule

end Lookahead
