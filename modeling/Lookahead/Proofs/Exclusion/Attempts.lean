import Lookahead.Proofs.Exclusion.Expiry

/-!
# Exclusion.Attempts — the matches that looking a name up takes

A name that is a key is found without any match. For any other name the keys with stars are tried in
order, up to the first one that matches and excludes. What a lookup reports is what these matches
report, one after the other.

* `Rule.tried` — the keys that are tried on a name;
* `Rule.notices_lookup` — the notices of a lookup are those of its matches;
* `Timeout.errors_attemptNotices` — the error of a match is that it timed out.
-/

namespace Lookahead

variable {timeout : Timeout}

/-! ## Keys that are tried -/

namespace Scope

/-- The keys with stars, up to the first that matches and excludes. -/
def tried (matching : String → Bool) : List (String × Rule) → List String
  | [] => []
  | (key, rule) :: more =>
      if Wildcard.isPattern key then
        key :: if matching key ∧ rule = .exclude then [] else tried matching more
      else tried matching more

/-- The entries whose keys have stars, in their order. -/
def starred (entries : List (String × Rule)) : List (String × Rule) :=
  entries.filter fun entry => Wildcard.isPattern entry.1

/-- Of the keys with stars all are tried up to the first that matches and excludes, and that one
too. -/
theorem tried_eq_take (matching : String → Bool) (entries : List (String × Rule)) :
    tried matching entries =
      ((starred entries).take ((starred entries).findIdx (fun entry =>
        matching entry.1 && entry.2 = .exclude) + 1)).map Prod.fst := by
  induction entries with
  | nil =>
      rfl
  | cons entry entries ih =>
      rcases entry with ⟨key, rule⟩
      by_cases hkey : Wildcard.isPattern key
      · have hstarred : starred ((key, rule) :: entries) = (key, rule) :: starred entries := by
          simp only [starred, hkey, List.filter_cons_of_pos]
        have hends : (matching key = true ∧ rule = .exclude) ↔
            (matching key && decide (rule = .exclude)) = true := by
          simp
        rw [hstarred, List.findIdx_cons]
        cases hfirst : matching key && decide (rule = .exclude) with
        | true => simp [tried, hkey, hends, hfirst]
        | false => simp [tried, hkey, hends, hfirst, ih]
      · have hstarred : starred ((key, rule) :: entries) = starred entries := by
          simp [starred, hkey]
        simp [tried, hkey, hstarred, ih]

theorem notices_search (timeout : Timeout) (name : String) (found : Rule)
    (entries : List (String × Rule)) :
    (search timeout name found entries).notices =
      (tried (timeout.finds name) entries).flatMap (timeout.attemptNotices name) := by
  induction entries generalizing found with
  | nil =>
      rfl
  | cons entry more ih =>
      obtain ⟨key, rule⟩ := entry
      by_cases hkey : Wildcard.isPattern key
      · have hattempt := timeout.attempt_outcome name key
        have hfirst : (timeout.attempt name key).notices = timeout.attemptNotices name key := rfl
        simp only [search, hkey, if_true, Run.notices_bind_of_ok hattempt, hfirst, tried,
          List.flatMap_cons]
        by_cases hmatch : timeout.finds name key
        · -- a match that does not exclude is remembered, and the search goes on
          by_cases hrule : rule = .exclude
          · simp [hmatch, hrule]
          · simp [hmatch, hrule, ih rule]
        · simp [hmatch, ih found]
      · simp [search, tried, hkey, ih found]

end Scope

namespace Rule

/-- The keys that are tried on a name below a field with this rule. -/
def tried (timeout : Timeout) (name : String) : Rule → List String
  | within scope =>
      if (scope.find? name).isSome then [] else Scope.tried (timeout.finds name) scope.entries
  | _ => []

theorem notices_lookup (timeout : Timeout) (name : String) (rule : Rule) :
    (rule.lookup timeout name).notices =
      (rule.tried timeout name).flatMap (timeout.attemptNotices name) := by
  cases rule with
  | keep => rfl
  | exclude => rfl
  | within scope =>
      cases hfound : scope.find? name with
      | some rule => simp [lookup, Scope.lookup, tried, hfound]
      | none => simp [lookup, Scope.lookup, tried, hfound, Scope.notices_search]

end Rule

/-! ## Errors -/

namespace Timeout

/-- Of what a match reports only that it timed out is an error. -/
theorem errors_attemptNotices (timeout : Timeout) (name pattern : String) :
    (timeout.attemptNotices name pattern).filter (fun notice => notice.level = .error) =
      if timeout.search name pattern = .timedOut then [.matchTimedOut pattern name] else [] := by
  have hread : timeout.notices.filter (fun notice => notice.level = .error) = [] := by
    unfold notices
    split <;> simp [Notice.level]
  rw [attemptNotices, List.filter_append, hread, List.nil_append]
  split <;> simp [Notice.level]

end Timeout

end Lookahead
