import Lookahead.Exclusion.Lookup

/-!
# Descent — rules along a path of names

A rule speaks of the fields below a field, so going down a path looks up one name after the
other, each in the rule the name before it led to.

* `Rule.verdict` — the rule one lookup comes to;
* `Rule.below` — the rule at the end of a path. An exclusion on the way is final: nothing is
  looked up below an excluded field.
-/

namespace Lookahead
namespace Rule

/-- The rule that looking a name up comes to. -/
def verdict (timeout : Timeout) (name : String) (rule : Rule) : Rule :=
  rule.ruleWhere (timeout.finds name) name

theorem outcome_lookup (timeout : Timeout) (name : String) (rule : Rule) :
    (rule.lookup timeout name).outcome = .ok (rule.verdict timeout name) :=
  rule.lookup_outcome timeout name

/-- The rule at the end of a path of names, `exclude` if a name on the way is excluded. -/
def below (timeout : Timeout) : List String → Rule → Rule
  | [], rule => rule
  | name :: path, rule =>
      match rule.verdict timeout name with
      | .exclude => .exclude
      | inner => inner.below timeout path

/-! ## Along a path -/

variable {timeout : Timeout} {name : String} {path : List String} {rule : Rule}

@[simp]
theorem below_nil : rule.below timeout [] = rule := rfl

theorem below_of_excluded (h : rule.verdict timeout name = .exclude) :
    rule.below timeout (name :: path) = .exclude := by
  simp [below, h]

theorem below_of_kept (h : rule.verdict timeout name ≠ .exclude) :
    rule.below timeout (name :: path) = (rule.verdict timeout name).below timeout path := by
  rw [below]
  split
  · next hexcluded => exact absurd hexcluded h
  · rfl

/-- A path that is kept is kept at its first name and below it. -/
theorem below_cons_ne_exclude_iff :
    rule.below timeout (name :: path) ≠ .exclude ↔
      rule.verdict timeout name ≠ .exclude ∧
        (rule.verdict timeout name).below timeout path ≠ .exclude := by
  by_cases h : rule.verdict timeout name = .exclude
  · simp [below_of_excluded h, h]
  · simp [below_of_kept h, h]

@[simp]
theorem verdict_keep : keep.verdict timeout name = keep := rfl

@[simp]
theorem below_keep (path : List String) : keep.below timeout path = keep := by
  induction path with
  | nil =>
      rfl
  | cons name path ih =>
      rw [below_of_kept (by simp), verdict_keep, ih]

end Rule
end Lookahead
