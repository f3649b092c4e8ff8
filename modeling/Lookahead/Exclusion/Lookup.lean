import Lookahead.Exclusion.Scope
import Lookahead.Run
import Lookahead.Text.Wildcard
import Lookahead.Timeout

/-!
# Lookup — the rule that a scope has for a field

A key that is the name of the field decides. Only without one are the keys with stars tried, in
order: the first matching key that excludes ends the search, otherwise the last matching key
decides. A field that no key speaks of is kept.

* `Timeout.attempt` — one match of a pattern, within the limit on time;
* `Scope.lookup` — the rule, with the notices of all matches tried on the way;
* `Scope.ruleWhere` — the same rule, given which patterns match.
-/

namespace Lookahead

/-! ## Matches -/

namespace Timeout

/-- How the search for a pattern in a name ends. -/
def search (timeout : Timeout) (name pattern : String) : Search :=
  timeout.engine.search timeout.limit (timeout.engine.expression pattern) name.toList

/-- Whether a pattern is found in a name in time. -/
def finds (timeout : Timeout) (name pattern : String) : Bool :=
  timeout.search name pattern = .found

/-- What one match reports. -/
def attemptNotices (timeout : Timeout) (name pattern : String) : List Notice :=
  timeout.notices ++
    if timeout.search name pattern = .timedOut then [.matchTimedOut pattern name] else []

/-- Tries a pattern on a name. A match that takes too long counts as none. -/
def attempt (timeout : Timeout) (name pattern : String) : Run Bool :=
  ⟨timeout.attemptNotices name pattern, .ok (timeout.finds name pattern)⟩

theorem attempt_outcome (timeout : Timeout) (name pattern : String) :
    (timeout.attempt name pattern).outcome = .ok (timeout.finds name pattern) := rfl

end Timeout

/-! ## Rules -/

namespace Scope

/-- Tries the keys with stars; `found` is the rule of the last one that matched. -/
def search (timeout : Timeout) (name : String) (found : Rule) :
    List (String × Rule) → Run Rule
  | [] => pure found
  | (key, rule) :: more =>
      if Wildcard.isPattern key then do
        if ← timeout.attempt name key then
          if rule = .exclude then return rule
          else search timeout name rule more
        else search timeout name found more
      else search timeout name found more

/-- The rule for a field. -/
def lookup (timeout : Timeout) (name : String) (scope : Scope) : Run Rule :=
  match scope.find? name with
  | some rule => pure rule
  | none => search timeout name .keep scope.entries

/-! ## The rule without the search -/

/-- The rule that decides among keys with stars, given which of them match. -/
def decideWhere (matching : String → Bool) (found : Rule) : List (String × Rule) → Rule
  | [] => found
  | (key, rule) :: more =>
      if Wildcard.isPattern key && matching key then
        if rule = .exclude then .exclude else decideWhere matching rule more
      else decideWhere matching found more

/-- The rule for a field, given which patterns match its name. -/
def ruleWhere (matching : String → Bool) (name : String) (scope : Scope) : Rule :=
  (scope.find? name).getD (decideWhere matching .keep scope.entries)

theorem search_outcome (timeout : Timeout) (name : String) (found : Rule)
    (entries : List (String × Rule)) :
    (search timeout name found entries).outcome =
      .ok (decideWhere (timeout.finds name) found entries) := by
  induction entries generalizing found with
  | nil =>
      rfl
  | cons entry more ih =>
      obtain ⟨key, rule⟩ := entry
      by_cases hkey : Wildcard.isPattern key
      · rw [search, if_pos hkey, Run.outcome_bind_of_ok (Timeout.attempt_outcome ..)]
        by_cases hmatch : timeout.finds name key
        · by_cases hrule : rule = .exclude
          · simp [decideWhere, hkey, hmatch, hrule]
          · simp [decideWhere, hkey, hmatch, hrule, ih rule]
        · simp [decideWhere, hkey, hmatch, ih found]
      · simp [search, decideWhere, hkey, ih]

/-- Looking up always has an answer. -/
theorem lookup_outcome (timeout : Timeout) (name : String) (scope : Scope) :
    (scope.lookup timeout name).outcome = .ok (scope.ruleWhere (timeout.finds name) name) := by
  cases h : scope.find? name with
  | some rule => simp [lookup, ruleWhere, h]
  | none => simp [lookup, ruleWhere, h, search_outcome]

end Scope

namespace Rule

/-- The rule for a field below one with this rule. Only a scope has anything to say about it; an
excluded field is not gone into, and what is below it is not asked about. -/
def lookup (timeout : Timeout) (name : String) : Rule → Run Rule
  | within scope => scope.lookup timeout name
  | _ => pure keep

def ruleWhere (matching : String → Bool) (name : String) : Rule → Rule
  | within scope => scope.ruleWhere matching name
  | _ => keep

theorem lookup_outcome (timeout : Timeout) (name : String) (rule : Rule) :
    (rule.lookup timeout name).outcome = .ok (rule.ruleWhere (timeout.finds name) name) := by
  cases rule with
  | keep => rfl
  | exclude => rfl
  | within scope => exact scope.lookup_outcome timeout name

end Rule

end Lookahead
