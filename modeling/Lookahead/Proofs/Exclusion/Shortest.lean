import Lookahead.Proofs.Exclusion.Exact

/-!
# Exclusion.Shortest — a scope is the set of its shortest patterns

Seen from its keys, the scope of some patterns says no more than which paths of keys end in an
exclusion. These are the paths of the patterns, without those that go on behind another one. All
other keys only lead there, so two lists with the same patterns have the same scope up to the order
of keys, and it does not matter how a pattern says that everything below a path is meant.

* `Rule.get?_eq_exclude_iff` — exclusions stand where a path is barred for the first time;
* `Rule.SameMap` — rules that are equal up to the order of keys;
* `Pattern.path_append_star` — what a star behind a pattern does to its path;
* `scope_is_shortest_patterns` — the scope of patterns, key by key.
-/

namespace Lookahead

variable {rule : Rule} {scope left right : Scope} {key : String} {path front : List String}

namespace Rule

/-! ## Barred paths and exclusions -/

/-- A path is barred if it comes to an exclusion somewhere on its way. -/
theorem bars_iff_get? :
    rule.Bars path ↔ ∃ front, front <+: path ∧ rule.get? front = some .exclude := by
  constructor
  · intro h
    induction h with
    | excluded path =>
        exact ⟨[], List.nil_prefix, rfl⟩
    | @key scope name rule path hfound _ ih =>
        rcases ih with ⟨front, hfront, hexclude⟩
        refine ⟨name :: front, List.cons_prefix_cons.2 ⟨rfl, hfront⟩, ?_⟩
        simpa [hfound] using hexclude
  · rintro ⟨front, ⟨rest, rfl⟩, hexclude⟩
    induction front generalizing rule with
    | nil =>
        have hrule : rule = .exclude := by simpa using hexclude
        subst hrule
        exact .excluded _
    | cons key front ih =>
        cases rule with
        | keep => cases hexclude
        | exclude => cases hexclude
        | within scope =>
            rcases Option.bind_eq_some_iff.1 hexclude with ⟨inner, hfound, hinner⟩
            exact .key hfound (ih hinner)

/-- An exclusion stands at the end of a path that is barred, but nowhere before its end. -/
theorem get?_eq_exclude_iff :
    rule.get? path = some .exclude ↔
      rule.Bars path ∧ ∀ front, front <+: path → rule.Bars front → front = path := by
  constructor
  · intro h
    refine ⟨bars_iff_get?.2 ⟨path, List.prefix_refl path, h⟩, ?_⟩
    intro front hfront hbars
    rcases bars_iff_get?.1 hbars with ⟨start, hstart, hexclude⟩
    rcases hstart.trans hfront with ⟨rest, rfl⟩
    -- the exclusion on the way to `front` is the one at the end, since nothing stands behind it
    by_cases hrest : rest = []
    · subst hrest
      have hlength : (start ++ []).length ≤ front.length := by
        simpa using hstart.length_le
      exact hfront.eq_of_length_le hlength
    · have hnone : rule.get? (start ++ rest) = none := get?_append_of_exclude hexclude hrest
      simp [hnone] at h
  · rintro ⟨hbars, hfirst⟩
    rcases bars_iff_get?.1 hbars with ⟨front, hfront, hexclude⟩
    have hend : front = path :=
      hfirst front hfront (bars_iff_get?.2 ⟨front, List.prefix_refl front, hexclude⟩)
    simpa only [hend] using hexclude

/-! ## Equal up to the order of keys -/

/-- Two rules are the same map: they are of one kind, and scopes have the same keys, each of them
with rules that are the same map. -/
inductive SameMap : Rule → Rule → Prop
  | keep : SameMap .keep .keep
  | exclude : SameMap .exclude .exclude
  | within {left right : Scope} (hkeys : ∀ key, key ∈ left.keys ↔ key ∈ right.keys)
      (hrules : ∀ key rule other, left.find? key = some rule → right.find? key = some other →
        SameMap rule other) :
      SameMap (.within left) (.within right)

end Rule

namespace Scope

/-! ## Scopes as sets of paths -/

/-- What holds of a scope if it holds of all scopes that its keys lead to holds of every scope. -/
@[elab_as_elim]
theorem belowInduction {motive : Scope → Prop}
    (step : ∀ scope, (∀ key inner, scope.find? key = some (.within inner) → motive inner) →
      motive scope) (scope : Scope) : motive scope := by
  have hbelow : ∀ key inner, scope.find? key = some (.within inner) → motive inner := by
    induction scope using consInduction with
    | nil =>
        intro key inner hfound
        cases hfound
    | cons k rule rest ihinner ih =>
        intro key inner hfound
        by_cases hk : k = key
        · have hrule : rule = .within inner := by simpa [find?_cons, hk] using hfound
          exact step inner (ihinner inner hrule)
        · exact ih key inner (by simpa [find?_cons, hk] using hfound)
  exact step scope hbelow

theorem Filled.ne_nil (h : scope.Filled) {inner : Scope}
    (hfound : scope.find? key = some (.within inner)) : inner ≠ .nil := by
  rintro rfl
  exact (h.find? hfound).1.2 rfl

theorem Filled.inner (h : scope.Filled) {inner : Scope}
    (hfound : scope.find? key = some (.within inner)) : inner.Filled :=
  (h.find? hfound).2 inner rfl

/-- In a scope whose keys were not made in vain, each key leads to an exclusion. -/
theorem Filled.exists_exclude (h : scope.Filled) (hfound : scope.find? key = some rule) :
    ∃ path, (Rule.within scope).get? (key :: path) = some .exclude := by
  induction scope using belowInduction generalizing key rule with
  | step scope ih =>
      cases rule with
      | keep =>
          exact absurd rfl (h.find? hfound).1.1
      | exclude =>
          exact ⟨[], by simp [hfound]⟩
      | within inner =>
          -- the first key below goes on to one
          have hfirst : ∃ next below, inner.find? next = some below := by
            cases inner with
            | nil => exact absurd rfl (h.ne_nil hfound)
            | keep next rest => exact ⟨next, .keep, by simp [Scope.find?]⟩
            | exclude next rest => exact ⟨next, .exclude, by simp [Scope.find?]⟩
            | narrow next below rest => exact ⟨next, .within below, by simp [Scope.find?]⟩
          rcases hfirst with ⟨next, below, hnext⟩
          rcases ih key inner hfound (h.inner hfound) hnext with ⟨path, hpath⟩
          exact ⟨next :: path, by simpa [hfound] using hpath⟩

theorem Filled.mem_keys_iff (h : scope.Filled) :
    key ∈ scope.keys ↔ ∃ path, (Rule.within scope).get? (key :: path) = some .exclude := by
  constructor
  · intro hmem
    rcases Option.isSome_iff_exists.1 (find?_isSome_iff.2 hmem) with ⟨rule, hfound⟩
    exact h.exists_exclude hfound
  · rintro ⟨path, hpath⟩
    rcases Option.bind_eq_some_iff.1 hpath with ⟨rule, hfound, _⟩
    exact find?_isSome_iff.1 (by simp [hfound])

/-- Scopes without keys made in vain are the same map if the same paths end in exclusions. -/
theorem Filled.sameMap (hl : left.Filled) (hr : right.Filled)
    (h : ∀ path, (Rule.within left).get? path = some .exclude ↔
      (Rule.within right).get? path = some .exclude) :
    (Rule.within left).SameMap (.within right) := by
  induction left using belowInduction generalizing right with
  | step left ih =>
      refine .within ?_ ?_
      · intro key
        rw [hl.mem_keys_iff, hr.mem_keys_iff]
        exact exists_congr fun path => h (key :: path)
      · intro key rule other hleft hright
        have hbelow : ∀ path, rule.get? path = some .exclude ↔ other.get? path = some .exclude := by
          intro path
          simpa [hleft, hright] using h (key :: path)
        -- the empty path tells which of the two rules exclude
        have hhere : rule = .exclude ↔ other = .exclude := by
          simpa using hbelow []
        cases rule with
        | keep => exact absurd rfl (hl.find? hleft).1.1
        | exclude =>
            have hother : other = .exclude := hhere.1 rfl
            subst hother
            exact .exclude
        | within inner =>
            cases other with
            | keep => exact absurd rfl (hr.find? hright).1.1
            | exclude => exact absurd (hhere.2 rfl) (by simp)
            | within otherInner =>
                exact ih key inner hleft (hl.inner hleft) (hr.inner hright) hbelow

end Scope

namespace Pattern

variable {patterns others : List String} {pattern : String}

/-! ## The paths of patterns -/

/-- The paths of keys that patterns exclude the ends of. The empty pattern has none. -/
def paths (patterns : List String) : List (List String) :=
  (patterns.filter fun pattern => pattern ≠ "").map Pattern.path

theorem mem_paths_iff :
    path ∈ paths patterns ↔ ∃ pattern ∈ patterns, pattern ≠ "" ∧ Pattern.path pattern = path := by
  simp [paths, and_assoc]

theorem bars_scope_iff_paths :
    (Rule.within (Pattern.scope patterns)).Bars path ↔
      ∃ other ∈ paths patterns, other <+: path := by
  refine bars_scope_iff.trans ?_
  constructor
  · rintro ⟨pattern, hmem, hne, hbegins⟩
    exact ⟨_, mem_paths_iff.2 ⟨pattern, hmem, hne, rfl⟩, hbegins⟩
  · rintro ⟨other, hmem, hbegins⟩
    rcases mem_paths_iff.1 hmem with ⟨pattern, hpattern, hne, rfl⟩
    exact ⟨pattern, hpattern, hne, hbegins⟩

/-- The exclusions in the scope of patterns are the shortest of their paths. -/
theorem get?_scope_eq_exclude_iff :
    (Rule.within (Pattern.scope patterns)).get? path = some .exclude ↔
      path ∈ paths patterns ∧ ∀ other ∈ paths patterns, other <+: path → other = path := by
  simp only [Rule.get?_eq_exclude_iff, bars_scope_iff_paths]
  constructor
  · rintro ⟨⟨shortest, hmem, hbegins⟩, hfirst⟩
    have hall : ∀ other ∈ paths patterns, other <+: path → other = path := by
      intro other hother hprefix
      exact hfirst other hprefix ⟨other, hother, List.prefix_refl other⟩
    have hend : shortest = path := hall shortest hmem hbegins
    exact ⟨hend ▸ hmem, hall⟩
  · rintro ⟨hmem, hall⟩
    refine ⟨⟨path, hmem, List.prefix_refl path⟩, ?_⟩
    rintro front hfront ⟨other, hother, hbegins⟩
    -- a pattern that bars a part of the path is all of it
    have hend : other = path := hall other hother (hbegins.trans hfront)
    subst hend
    exact hfront.eq_of_length_le hbegins.length_le

/-- The same patterns in another order, or more often, have the same scope but for the order of
keys. -/
theorem sameMap_scope (h : ∀ pattern, pattern ∈ others ↔ pattern ∈ patterns) :
    (Rule.within (Pattern.scope others)).SameMap (.within (Pattern.scope patterns)) := by
  refine (filled_scope others).sameMap (filled_scope patterns) ?_
  intro path
  simp only [get?_scope_eq_exclude_iff, mem_paths_iff, h]

/-! ## A star behind a pattern -/

/-- A star behind a pattern is left out of its path. -/
theorem path_append_star (pattern : String) :
    Pattern.path (pattern ++ ".*") = Dotted.segments pattern := by
  have hstar : Dotted.segments "*" = ["*"] := by
    decide
  have hpoint : pattern ++ ".*" = pattern ++ "." ++ "*" := by
    simp [String.append_assoc]
  have hsegments : Dotted.segments (pattern ++ ".*") = Dotted.segments pattern ++ ["*"] := by
    simp only [hpoint, Dotted.segments_append_point, hstar]
  have hlength : 0 < (Dotted.segments pattern).length :=
    List.length_pos_iff.2 (Dotted.segments_ne_nil pattern)
  simp [Pattern.path, hsegments, hlength]

/-- All segments of a pattern are its keys, unless it ends in a star behind a point. -/
theorem path_of_no_star (hstar : ∀ start, pattern ≠ start ++ ".*") :
    Pattern.path pattern = Dotted.segments pattern := by
  refine if_neg ?_
  rintro ⟨hlength, hlast⟩
  rcases List.getLast?_eq_some_iff.1 hlast with ⟨init, hsegments⟩
  have hinit : init ≠ [] := by
    rintro rfl
    simp [hsegments] at hlength
  apply hstar (".".intercalate init)
  calc
    pattern = ".".intercalate (init ++ ["*"]) := by
          simpa only [hsegments] using (Dotted.intercalate_segments pattern).symm
    _ = ".".intercalate init ++ "." ++ ".".intercalate ["*"] :=
          String.intercalate_append_of_ne_nil hinit (by simp)
    _ = ".".intercalate init ++ ".*" := by simp [String.append_assoc]

/-- A star behind a pattern adds nothing to what the pattern means already. -/
theorem addTo_append_star (hne : pattern ≠ "") (hstar : ∀ start, pattern ≠ start ++ ".*")
    (scope : Scope) : addTo scope (pattern ++ ".*") = addTo scope pattern := by
  simp [addTo, hne, path_append_star, path_of_no_star hstar]

theorem scope_append_star (hne : pattern ≠ "") (hstar : ∀ start, pattern ≠ start ++ ".*")
    (front back : List String) :
    Pattern.scope (front ++ (pattern ++ ".*") :: back) =
      Pattern.scope (front ++ pattern :: back) := by
  simp only [scope_append, List.foldl_cons, addTo_append_star hne hstar]

end Pattern

/-- The scope of patterns excludes at the paths that patterns have, those left out that go on behind
another one, and at no others. Its keys are distinct at every level, a key that does not exclude
leads to a scope that has keys, and nothing stands behind an exclusion. So the order of patterns and
repetitions among them do not matter but for the order of keys, and a star behind a pattern, which
had none, does not matter at all. -/
theorem scope_is_shortest_patterns (patterns : List String) :
    (Pattern.scope patterns).Distinct ∧
      (∀ path, (Rule.within (Pattern.scope patterns)).get? path = some .exclude ↔
        path ∈ Pattern.paths patterns ∧
          ∀ other ∈ Pattern.paths patterns, other <+: path → other = path) ∧
      (∀ path rule, path ≠ [] → (Rule.within (Pattern.scope patterns)).get? path = some rule →
        rule = .exclude ∨ ∃ inner, rule = .within inner ∧ inner ≠ .nil) ∧
      (∀ front path, (Rule.within (Pattern.scope patterns)).get? front = some .exclude →
        path ≠ [] → (Rule.within (Pattern.scope patterns)).get? (front ++ path) = none) ∧
      (∀ others, (∀ pattern, pattern ∈ others ↔ pattern ∈ patterns) →
        (Rule.within (Pattern.scope others)).SameMap (.within (Pattern.scope patterns))) ∧
      ∀ front pattern back, patterns = front ++ pattern :: back → pattern ≠ "" →
        (∀ start, pattern ≠ start ++ ".*") →
          Pattern.scope (front ++ (pattern ++ ".*") :: back) = Pattern.scope patterns := by
  refine ⟨Pattern.distinct_scope patterns, fun _ => Pattern.get?_scope_eq_exclude_iff, ?_, ?_, ?_,
    ?_⟩
  · intro path rule hpath hget
    exact (Pattern.filled_scope patterns).exclude_or_within hpath hget
  · intro front path hexclude hpath
    exact Rule.get?_append_of_exclude hexclude hpath
  · intro others hmem
    exact Pattern.sameMap_scope hmem
  · rintro front pattern back rfl hne hstar
    exact Pattern.scope_append_star hne hstar front back

/-- `b.c` takes the place of the scope that `b.c.d` made, and `a.x` comes too late for one. -/
theorem sample_shortest_patterns :
    Pattern.scope ["b.c.d", "a", "b.c", "a.x", "b.e"] =
        .narrow "b" (.exclude "c" (.exclude "e" .nil)) (.exclude "a" .nil) ∧
      (["b", "c"] ∈ Pattern.paths ["b.c.d", "a", "b.c", "a.x", "b.e"] ∧
        ∀ other ∈ Pattern.paths ["b.c.d", "a", "b.c", "a.x", "b.e"],
          other <+: ["b", "c"] → other = ["b", "c"]) ∧
      (Rule.within (Pattern.scope ["b.e", "a", "a.x", "b.c", "b.c.d", "a"])).SameMap
        (.within (Pattern.scope ["b.c.d", "a", "b.c", "a.x", "b.e"])) ∧
      Pattern.scope ["b.c.d", "a", "b.c.*", "a.x", "b.e"] =
        Pattern.scope ["b.c.d", "a", "b.c", "a.x", "b.e"] := by
  rcases scope_is_shortest_patterns ["b.c.d", "a", "b.c", "a.x", "b.e"] with
    ⟨_, hexclude, _, _, hsame, hstar⟩
  have hscope : Pattern.scope ["b.c.d", "a", "b.c", "a.x", "b.e"] =
      .narrow "b" (.exclude "c" (.exclude "e" .nil)) (.exclude "a" .nil) := by
    decide
  refine ⟨hscope, (hexclude ["b", "c"]).1 ?_, hsame _ ?_, ?_⟩
  · simp only [hscope]
    decide
  · have hsubset : ∀ pattern ∈ ["b.e", "a", "a.x", "b.c", "b.c.d", "a"],
        pattern ∈ ["b.c.d", "a", "b.c", "a.x", "b.e"] := by
      decide
    have hback : ∀ pattern ∈ ["b.c.d", "a", "b.c", "a.x", "b.e"],
        pattern ∈ ["b.e", "a", "a.x", "b.c", "b.c.d", "a"] := by
      decide
    exact fun pattern => ⟨hsubset pattern, hback pattern⟩
  · refine hstar ["b.c.d", "a"] "b.c" ["a.x", "b.e"] rfl (by decide) ?_
    intro start hstart
    -- the last character of `b.c` is no star
    have hlast := congrArg (fun text : String => text.toList.getLast?) hstart
    simp [String.toList_append] at hlast

end Lookahead
