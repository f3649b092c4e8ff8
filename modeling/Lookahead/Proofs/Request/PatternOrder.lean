import Lookahead.Proofs.Exclusion.LastStars
import Lookahead.Proofs.Request.Branch
import Lookahead.Proofs.Request.Labels

/-!
# Request.PatternOrder — patterns in any order

A walk asks its rule only whether names are excluded and which rules hold below them. So walks under
rules that exclude the same come to the same tree or to the same failure, although they may try
different patterns on the way. Patterns with stars in their last segments only may therefore be
written in any order, and as often as one likes.

* `collect_of_excludesSame` — walks under rules that exclude the same;
* `requestedTree_of_reordered_patterns` — requests with the same patterns in another order.
-/

namespace Lookahead

/-! ## Walks under rules that exclude the same -/

namespace Selection

variable {context : Context} {walk : Rule → List Selection → Run FieldTree} {rule other : Rule}

/-- A selection adds the same tree, or fails in the same way, if the walks below it do so. -/
theorem outcome_contribution_of_excludesSame (h : rule.ExcludesSame context.timeout other)
    (hwalk : ∀ inner changed below, inner.ExcludesSame context.timeout changed →
      (walk inner below).outcome = (walk changed below).outcome)
    (selection : Selection) :
    (selection.contribution context walk rule).outcome =
      (selection.contribution context walk other).outcome := by
  symm
  apply outcome_contribution_congr rfl rfl
  · intro name
    exact (h.verdict name).eq_exclude_iff.symm
  · intro name below
    exact (hwalk _ _ below (h.verdict name)).symm
  · intro below
    exact (hwalk rule other below h).symm

end Selection

/-- Walks under rules that exclude the same end in the same way. -/
theorem collect_of_excludesSame {context : Context} {rule other : Rule} (limit : Nat)
    (h : rule.ExcludesSame context.timeout other) (selections : List Selection) :
    (collect context limit rule selections).outcome =
      (collect context limit other selections).outcome := by
  induction limit generalizing rule other selections with
  | zero =>
      rfl
  | succ limit ih =>
      simp only [collect_succ]
      apply FieldTree.outcome_gather_congr
      apply Selection.outcome_contribution_of_excludesSame h
      intro inner changed below hsame
      exact ih hsame below

/-! ## Requests -/

/-- Where the patterns of a request have stars in their last segments only, neither their order nor
how often they are written matters: a request that differs in nothing else has the same tree, in the
same order, or fails in the same way. -/
theorem requestedTree_of_reordered_patterns {settings : Settings} {info : ResolverInfo}
    {options otherOptions otherSkip : Value} {parsed : Options} {patterns others : List String}
    (hparsed : Options.ofValue options = .ok parsed)
    (hpatterns : Pattern.ofValue parsed.skip = .ok patterns)
    (hotherParsed : Options.ofValue otherOptions = .ok { parsed with skip := otherSkip })
    (hothers : Pattern.ofValue otherSkip = .ok others)
    (hlast : ∀ pattern ∈ patterns, Pattern.StarsLast pattern)
    (hmem : ∀ pattern, pattern ∈ others ↔ pattern ∈ patterns) :
    (info.requestedTree settings otherOptions).outcome =
      (info.requestedTree settings options).outcome := by
  by_cases hnodes : info.resolvedNodes = []
  · simp only [ResolverInfo.outcome_requestedTree_of_no_node hnodes]
  · have hcontext : info.contextOf settings { parsed with skip := otherSkip } =
        info.contextOf settings parsed := rfl
    have hrule : (Rule.within (Pattern.scope others)).ExcludesSame
        (info.contextOf settings parsed).timeout (.within (Pattern.scope patterns)) :=
      Pattern.excludesSame_scope hlast hmem
    have hwalk := collect_of_excludesSame settings.nestingLimit hrule
      (selectionsBelow info.resolvedNodes)
    simp only [ResolverInfo.outcome_requestedTree hnodes hparsed hpatterns,
      ResolverInfo.outcome_requestedTree hnodes hotherParsed hothers, hcontext, hwalk]

/-- In the second list the keys stand in another order, at the root and below `a`, and one pattern
is written twice. -/
theorem sample_reordered_patterns :
    (∀ pattern ∈ ["a.b.x*", "e*", "*d", "a.*y"], Pattern.StarsLast pattern) ∧
      (sampleInfo.requestedTree {}
        (ResolverInfo.skipping ["a.b.x*", "e*", "*d", "a.*y"])).outcome =
          .ok (.branch "a" (.branch "b" .nil .nil) .nil) ∧
      (sampleInfo.requestedTree {}
        (ResolverInfo.skipping ["*d", "a.*y", "e*", "*d", "a.b.x*"])).outcome =
          .ok (.branch "a" (.branch "b" .nil .nil) .nil) := by
  have hlast : ∀ pattern ∈ ["a.b.x*", "e*", "*d", "a.*y"], Pattern.StarsLast pattern := by
    decide
  have hmem : ∀ pattern, pattern ∈ ["*d", "a.*y", "e*", "*d", "a.b.x*"] ↔
      pattern ∈ ["a.b.x*", "e*", "*d", "a.*y"] := by
    have hforth : ∀ pattern ∈ ["*d", "a.*y", "e*", "*d", "a.b.x*"],
        pattern ∈ ["a.b.x*", "e*", "*d", "a.*y"] := by
      decide
    have hback : ∀ pattern ∈ ["a.b.x*", "e*", "*d", "a.*y"],
        pattern ∈ ["*d", "a.*y", "e*", "*d", "a.b.x*"] := by
      decide
    exact fun pattern => ⟨hforth pattern, hback pattern⟩
  have htree : (sampleInfo.requestedTree {}
      (ResolverInfo.skipping ["a.b.x*", "e*", "*d", "a.*y"])).outcome =
        .ok (.branch "a" (.branch "b" .nil .nil) .nil) := rfl
  refine ⟨hlast, htree, ?_⟩
  exact (requestedTree_of_reordered_patterns rfl rfl rfl rfl hlast hmem).trans htree

/-- Stars in other segments make scopes, of which the last one that matches is used. -/
example :
    (Rule.within (Pattern.scope ["a*.x", "*b.y"])).below .unset ["ab", "x"] ≠
      (Rule.within (Pattern.scope ["*b.y", "a*.x"])).below .unset ["ab", "x"] := by
  decide

end Lookahead
