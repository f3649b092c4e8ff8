import Lookahead.Proofs.Walk.Exclusion

/-!
# Walk.Narrowing — patterns that open no scope

A further pattern can bring fields back, but only through a new key that stands for a scope: such a
key takes names over from keys with stars. Where all keys on the way of a pattern lead to scopes
already, no key is made but the last one, and that one excludes. Then the pattern can only leave out
more, whatever stars there are.

* `Scope.OpensNothing` — a path of keys makes no scope on its way;
* `Scope.OpensNothing.losesNothing` — so excluding its end brings nothing back;
* `FieldTree.places_sublist_of_noStricter` — stricter rules leave fewer places, in the same order;
* `only_narrows_of_opensNothing` — a walk with such a pattern and without it.
-/

namespace Lookahead

variable {timeout : Timeout} {key : String} {path : List String} {scope inner : Scope}

namespace Scope

/-! ## Paths that open no scope -/

/-- Every proper part of the path, from its first key on, leads to a scope, or some part of it comes
to an exclusion. -/
def OpensNothing (path : List String) (scope : Scope) : Prop :=
  (∀ front, front <+: path → front ≠ path →
      ∃ inner, (Rule.within scope).get? front = some (.within inner)) ∨
    ∃ front, front <+: path ∧ (Rule.within scope).get? front = some .exclude

namespace OpensNothing

/-- A single key has nothing on its way but the scope that it is set in. -/
theorem single (key : String) (scope : Scope) : scope.OpensNothing [key] := by
  refine .inl ?_
  intro front hfront hne
  cases front with
  | nil => exact ⟨scope, by simp⟩
  | cons first rest =>
      rcases List.cons_prefix_cons.1 hfront with ⟨rfl, hrest⟩
      exact absurd (by simp [List.prefix_nil.1 hrest]) hne

/-- Behind a key that leads to a scope, a path opens what it opens in that scope. -/
theorem cons_iff (hfound : scope.find? key = some (.within inner)) :
    scope.OpensNothing (key :: path) ↔ inner.OpensNothing path := by
  constructor
  · rintro (hway | ⟨front, hfront, hexclude⟩)
    · refine .inl ?_
      intro front hfront hne
      have hscope :=
        hway (key :: front) (List.cons_prefix_cons.2 ⟨rfl, hfront⟩) (by simpa using hne)
      simpa [hfound] using hscope
    · cases front with
      | nil => simp at hexclude
      | cons first front =>
          rcases List.cons_prefix_cons.1 hfront with ⟨rfl, hrest⟩
          exact .inr ⟨front, hrest, by simpa [hfound] using hexclude⟩
  · rintro (hway | ⟨front, hfront, hexclude⟩)
    · refine .inl ?_
      intro front hfront hne
      cases front with
      | nil => exact ⟨scope, by simp⟩
      | cons first front =>
          rcases List.cons_prefix_cons.1 hfront with ⟨rfl, hrest⟩
          simpa [hfound] using hway front hrest (by simpa using hne)
    · have hprefix : key :: front <+: key :: path := List.cons_prefix_cons.2 ⟨rfl, hfront⟩
      exact .inr ⟨key :: front, hprefix, by simpa [hfound] using hexclude⟩

/-- The first key is there already, unless it is the only one. -/
theorem find?_ne_none {next : String} (h : scope.OpensNothing (key :: next :: path)) :
    scope.find? key ≠ none := by
  intro hnone
  rcases h with hway | ⟨front, hfront, hexclude⟩
  · have hfirst := hway [key] (by simp [List.cons_prefix_cons]) (by simp)
    simp [hnone] at hfirst
  · cases front with
    | nil => simp at hexclude
    | cons first front =>
        rcases List.cons_prefix_cons.1 hfront with ⟨rfl, _⟩
        simp [hnone] at hexclude

/-- What makes no key but one that excludes takes no name over. -/
theorem losesNothing (h : scope.OpensNothing path) : scope.LosesNothing timeout path := by
  induction path generalizing scope with
  | nil =>
      trivial
  | cons key path ih =>
      cases path with
      | nil =>
          trivial
      | cons next path =>
          rw [LosesNothing]
          split
          · next inner hfound => exact ih ((cons_iff hfound).1 h)
          · trivial
          · next hnone => exact absurd hnone h.find?_ne_none

end OpensNothing

end Scope

/-- The path of a pattern makes no scope in the scope of other patterns. -/
def Pattern.OpensNothing (patterns : List String) (pattern : String) : Prop :=
  (Pattern.scope patterns).OpensNothing (Pattern.path pattern)

/-! ## Fewer places -/

theorem FieldTree.places_sublist_of_noStricter {stricter : Scope}
    (h : Rule.NoStricter timeout (.within scope) (.within stricter)) (tree : FieldTree) :
    (tree.prune timeout (.within stricter)).places.Sublist
      (tree.prune timeout (.within scope)).places := by
  -- what the stricter scope keeps is kept by the other one too, so it is left of that one's places
  have hkept : ∀ place : Place,
      ((Rule.within stricter).below timeout place.path ≠ .exclude ∧
        (Rule.within scope).below timeout place.path ≠ .exclude) ↔
          (Rule.within stricter).below timeout place.path ≠ .exclude := by
    intro place
    refine and_iff_left_of_imp ?_
    intro hstricter hscope
    exact hstricter
      (Rule.within_excludes_iff.1 (h place.path (Rule.within_excludes_iff.2 hscope)))
  have hplaces : (tree.prune timeout (.within stricter)).places =
      (tree.prune timeout (.within scope)).places.filter fun place =>
        (Rule.within stricter).below timeout place.path ≠ .exclude := by
    simp only [places_prune, List.filter_filter, ← Bool.decide_and, hkept]
  simpa only [hplaces] using List.filter_sublist

/-! ## Walks with a further pattern -/

variable {context : Context} {limit : Nat} {selections : List Selection} {tree : FieldTree}

/-- A further pattern that opens no scope, as no pattern with a single key does, only leaves out
more: the places of the walk's tree with it are some of those without it, in the same order, and the
paths to them end in entries of the same kind. -/
theorem only_narrows_of_opensNothing (patterns : List String) (pattern : String)
    (h : (collect context limit .keep selections).outcome = .ok tree) :
    (∀ key, Pattern.path pattern = [key] → Pattern.OpensNothing patterns pattern) ∧
      (Pattern.OpensNothing patterns pattern → ∃ before after,
        (collect context limit (.within (Pattern.scope patterns)) selections).outcome =
          .ok before ∧
        (collect context limit (.within (Pattern.scope (patterns ++ [pattern])))
          selections).outcome = .ok after ∧
        after.places.Sublist before.places ∧
        ∀ path entry, after.get? path = some entry →
          ∃ other, before.get? path = some other ∧ other.isBranch = entry.isBranch) := by
  constructor
  · intro key hkey
    simpa only [Pattern.OpensNothing, hkey] using Scope.OpensNothing.single key _
  · intro hopens
    have hbefore := collect_prune (.within (Pattern.scope patterns)) h
    have hafter := collect_prune (.within (Pattern.scope (patterns ++ [pattern]))) h
    have hstricter : Rule.NoStricter context.timeout (.within (Pattern.scope patterns))
        (.within (Pattern.scope (patterns ++ [pattern]))) :=
      Pattern.noStricter_scope_iff.2 hopens.losesNothing
    have hplaces := FieldTree.places_sublist_of_noStricter hstricter tree
    refine ⟨_, _, hbefore, hafter, hplaces, ?_⟩
    intro path entry hentry
    exact FieldTree.get?_of_mem_places (collect_distinct hbefore)
      (hplaces.subset (FieldTree.mem_places_of_get? hentry))

/-- `*a.b` excludes what `*a.b.x` made a scope for, and `*d` is a single key. Each leaves less of
the sample query. -/
theorem sample_narrowing :
    (Pattern.OpensNothing ["*a.b.x"] "*a.b" ∧ ∃ before after,
      (collect sampleContext 4 (.within (Pattern.scope ["*a.b.x"])) sampleSelections).outcome =
        .ok before ∧
      (collect sampleContext 4 (.within (Pattern.scope ["*a.b.x", "*a.b"]))
        sampleSelections).outcome = .ok after ∧
      after.places.Sublist before.places) ∧
    ∃ before after,
      (collect sampleContext 4 (.within (Pattern.scope ["*a.b.x"])) sampleSelections).outcome =
        .ok before ∧
      (collect sampleContext 4 (.within (Pattern.scope ["*a.b.x", "*d"]))
        sampleSelections).outcome = .ok after ∧
      after.places.Sublist before.places := by
  have hwalk : (collect sampleContext 4 .keep sampleSelections).outcome =
      .ok (.branch "a" (.branch "b" (.leaf "x" .nil) .nil) (.leaf "d" .nil)) := rfl
  have hway : (Pattern.scope ["*a.b.x"]).find? "*a" =
      some (.within (.narrow "b" (.exclude "x" .nil) .nil)) := by
    decide
  have hkeys : Pattern.path "*a.b" = ["*a", "b"] := by
    decide
  have hlonger : Pattern.OpensNothing ["*a.b.x"] "*a.b" := by
    simpa only [Pattern.OpensNothing, hkeys] using
      (Scope.OpensNothing.cons_iff hway).2 (.single "b" _)
  have hsingle : Pattern.OpensNothing ["*a.b.x"] "*d" :=
    (only_narrows_of_opensNothing ["*a.b.x"] "*d" hwalk).1 "*d" (by decide)
  rcases (only_narrows_of_opensNothing ["*a.b.x"] "*a.b" hwalk).2 hlonger with
    ⟨before, after, hbefore, hafter, hplaces, _⟩
  rcases (only_narrows_of_opensNothing ["*a.b.x"] "*d" hwalk).2 hsingle with
    ⟨first, second, hfirst, hsecond, hfewer, _⟩
  exact ⟨⟨hlonger, before, after, hbefore, hafter, hplaces⟩, first, second, hfirst, hsecond, hfewer⟩

end Lookahead
