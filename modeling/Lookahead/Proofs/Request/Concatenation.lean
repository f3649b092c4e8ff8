import Lookahead.Proofs.Request.Answered
import Lookahead.Proofs.Request.Branch

/-!
# Request.Concatenation — selections walked together

Selections may be walked in parts. The walk through two lists in a row does what the two walks do
one after the other: it gives the notices of the first and then those of the second, it unites
their trees, and it ends with the first failure there is. A request, which walks each of its nodes
by itself and unites whole trees, is therefore one walk through all of their selections.

* `collect_append_of_ok`, `collect_append_of_error_left`, `collect_append_of_error_right` — how the
  walk through two lists ends;
* `collect_append_isOk_iff` — when it ends well;
* `ResolverInfo.requestedTree_eq_walk` — a request as one walk, with its notices and failures;
* `walk_of_concatenation` — both together.
-/

namespace Lookahead

/-! ## Two lists in a row -/

variable {context : Context} {limit : Nat} {rule : Rule} {front back : List Selection}
  {left right : FieldTree} {failure : Failure}

theorem collect_append_of_ok (hleft : (collect context limit rule front).outcome = .ok left)
    (hright : (collect context limit rule back).outcome = .ok right) :
    collect context limit rule (front ++ back) =
      ⟨(collect context limit rule front).notices ++ (collect context limit rule back).notices,
        .ok (left.union right)⟩ := by
  have hrest : (do
      let found ← collect context limit rule back
      return left.union found : Run FieldTree) =
        ⟨(collect context limit rule back).notices, .ok (left.union right)⟩ := by
    simp [Run.bind_of_ok hright]
  rw [collect_append, Run.bind_of_ok hleft, hrest]

/-- After a failure nothing more is walked. -/
theorem collect_append_of_error_left
    (hleft : (collect context limit rule front).outcome = .error failure) :
    collect context limit rule (front ++ back) = collect context limit rule front := by
  rw [collect_append, Run.bind_of_error hleft]
  exact Run.ext rfl hleft.symm

theorem collect_append_of_error_right
    (hleft : (collect context limit rule front).outcome = .ok left)
    (hright : (collect context limit rule back).outcome = .error failure) :
    collect context limit rule (front ++ back) =
      ⟨(collect context limit rule front).notices ++ (collect context limit rule back).notices,
        .error failure⟩ := by
  rw [collect_append, Run.bind_of_ok hleft, Run.bind_of_error hright]

theorem collect_append_isOk_iff :
    (∃ tree, (collect context limit rule (front ++ back)).outcome = .ok tree) ↔
      (∃ left, (collect context limit rule front).outcome = .ok left) ∧
        ∃ right, (collect context limit rule back).outcome = .ok right := by
  constructor
  · intro h
    rcases h with ⟨tree, htree⟩
    have hfront : front ⊆ front ++ back := List.subset_append_left front back
    have hback : back ⊆ front ++ back := List.subset_append_right front back
    exact ⟨collect_isOk_of_subset hfront htree, collect_isOk_of_subset hback htree⟩
  · intro h
    rcases h with ⟨⟨left, hleft⟩, right, hright⟩
    exact ⟨left.union right, by rw [collect_append_of_ok hleft hright]⟩

/-! ## One walk for all nodes -/

/-- A path that makes sense leads from the empty tree to the empty tree. -/
theorem Options.Sound.branchAt_nil {parsed : Options} (h : parsed.Sound) :
    FieldTree.nil.branchAt parsed.path = .ok .nil := by
  unfold FieldTree.branchAt
  rcases h.path with hnull | ⟨path, htext⟩
  · simp [hnull, Value.truthy]
  · rw [htext]
    split
    · next hpath =>
        have hne : path ≠ "" := by simpa [Value.truthy] using hpath
        have hsegments := Dotted.segments_ne_nil path
        simp [FieldTree.subtree_of_ne hne, hsegments]
    · rfl

/-- A request is one walk through the selections of all of its nodes, of which there may be none,
with the choice of a branch behind it. -/
theorem ResolverInfo.requestedTree_eq_walk {settings : Settings} {info : ResolverInfo}
    {options : Value} {parsed : Options} {patterns : List String}
    (hlimit : 0 < settings.nestingLimit) (hsound : parsed.Sound)
    (hparsed : Options.ofValue options = .ok parsed)
    (hpatterns : Pattern.ofValue parsed.skip = .ok patterns) :
    info.requestedTree settings options = (do
      Run.report info.notices
      let tree ← collect (info.contextOf settings parsed) settings.nestingLimit
        (.within (Pattern.scope patterns)) (selectionsBelow info.resolvedNodes)
      Run.ofExcept (tree.branchAt parsed.path)) := by
  unfold requestedTree
  congr 1
  funext _
  by_cases hnodes : info.resolvedNodes = []
  · -- there is nothing to walk, so the tree is empty, and so is every branch of it
    obtain ⟨limit, hsucc⟩ : ∃ limit, settings.nestingLimit = limit + 1 :=
      ⟨settings.nestingLimit - 1, by omega⟩
    have hwalk : collect (info.contextOf settings parsed) (limit + 1)
        (.within (Pattern.scope patterns)) (selectionsBelow []) = pure .nil := rfl
    rw [hnodes, hsucc, hwalk, pure_bind, hsound.branchAt_nil]
    rfl
  · have hone := collectNodes_eq_collect (info.contextOf settings parsed) settings.nestingLimit
      (.within (Pattern.scope patterns)) hnodes
    have hread : Run.ofExcept (Options.ofValue options) = pure parsed := by
      rw [hparsed]
      rfl
    have hcompiled : Run.ofExcept (Pattern.ofValue parsed.skip) = pure patterns := by
      rw [hpatterns]
      rfl
    rw [if_neg (by simpa using hnodes), hread, pure_bind, hcompiled, pure_bind, ← hone]
    rfl

/-- The walk through two lists in a row ends well exactly if the walks through both do. Its tree is
then the union of their trees and its notices are theirs, in this order; otherwise it fails as the
first of the two that fails, and keeps the notices given until then. So under accepted options a
request, with its notices and its failures, is one walk through the selections of all of its nodes,
from whose tree the wanted branch is taken. -/
theorem walk_of_concatenation :
    (∀ (context : Context) (limit : Nat) (rule : Rule) (front back : List Selection),
      ((∃ tree, (collect context limit rule (front ++ back)).outcome = .ok tree) ↔
        (∃ left, (collect context limit rule front).outcome = .ok left) ∧
          ∃ right, (collect context limit rule back).outcome = .ok right) ∧
      (∀ left right, (collect context limit rule front).outcome = .ok left →
        (collect context limit rule back).outcome = .ok right →
          collect context limit rule (front ++ back) =
            ⟨(collect context limit rule front).notices ++
              (collect context limit rule back).notices, .ok (left.union right)⟩) ∧
      (∀ failure, (collect context limit rule front).outcome = .error failure →
        collect context limit rule (front ++ back) = collect context limit rule front) ∧
      ∀ left failure, (collect context limit rule front).outcome = .ok left →
        (collect context limit rule back).outcome = .error failure →
          collect context limit rule (front ++ back) =
            ⟨(collect context limit rule front).notices ++
              (collect context limit rule back).notices, .error failure⟩) ∧
    ∀ (settings : Settings) (info : ResolverInfo) (options : Value), Options.Accepted options →
      0 < settings.nestingLimit →
        ∃ parsed patterns, Options.ofValue options = .ok parsed ∧
          Pattern.ofValue parsed.skip = .ok patterns ∧
          (∀ tree : FieldTree, ∃ branch, tree.branchAt parsed.path = .ok branch) ∧
          info.requestedTree settings options = (do
            Run.report info.notices
            let tree ← collect (info.contextOf settings parsed) settings.nestingLimit
              (.within (Pattern.scope patterns)) (selectionsBelow info.resolvedNodes)
            Run.ofExcept (tree.branchAt parsed.path)) := by
  refine ⟨?_, ?_⟩
  · intro context limit rule front back
    refine ⟨collect_append_isOk_iff, ?_, ?_, ?_⟩
    · intro left right hleft hright
      exact collect_append_of_ok hleft hright
    · intro failure hleft
      exact collect_append_of_error_left hleft
    · intro left failure hleft hright
      exact collect_append_of_error_right hleft hright
  · intro settings info options haccepted hlimit
    rcases haccepted.exists_parsed with ⟨parsed, hparsed⟩
    have hsound := haccepted.sound hparsed
    rcases hsound.exists_patterns with ⟨patterns, hpatterns⟩
    refine ⟨parsed, patterns, hparsed, hpatterns, hsound.exists_branch, ?_⟩
    exact ResolverInfo.requestedTree_eq_walk hlimit hsound hparsed hpatterns

/-! ### A field asked for twice -/

/-- The selections `{ id, ...Extra }`, whose fragment is not defined. -/
def briefSelections : List Selection :=
  [.field (some "id") .missing .missing, .spread (some "Extra") .missing]

/-- The selections `{ name { first }, id }`. -/
def namedSelections : List Selection :=
  [.field (some "name") .missing (.listed [.field (some "first") .missing .missing]),
    .field (some "id") .missing .missing]

/-- The query `{ user { id, ...Extra }, user { name { first }, id } }`. -/
def userInfo : ResolverInfo where
  fieldName := .text "user"
  fieldNodes := .listed
    [.field (some "user") .missing (.listed briefSelections),
      .field (some "user") .missing (.listed namedSelections)]
  legacyNodes := .missing
  fragments := .table []
  variableValues := .null

/-- Both ways of asking come together in one tree, and the fragment is reported once. A selection
without a name behind them ends the walk, but what was reported before stays. -/
theorem sample_walk_of_concatenation :
    collect (userInfo.defaultContext {}) 3 .keep (briefSelections ++ namedSelections) =
        ⟨[.undefinedFragment "Extra"],
          .ok (.leaf "id" (.branch "name" (.leaf "first" .nil) .nil))⟩ ∧
      collect (userInfo.defaultContext {}) 3 .keep
          (briefSelections ++ [.field none .missing .missing]) =
        ⟨[.undefinedFragment "Extra"], .error .namelessSelection⟩ ∧
      (userInfo.requestedTree {} .null).outcome =
        .ok (.leaf "id" (.branch "name" (.leaf "first" .nil) .nil)) := by
  have hbrief : (collect (userInfo.defaultContext {}) 3 .keep briefSelections).outcome =
      .ok (.leaf "id" .nil) := rfl
  have hnamed : (collect (userInfo.defaultContext {}) 3 .keep namedSelections).outcome =
      .ok (.branch "name" (.leaf "first" .nil) (.leaf "id" .nil)) := rfl
  have hnameless : (collect (userInfo.defaultContext {}) 3 .keep
      [.field none .missing .missing]).outcome = .error .namelessSelection := rfl
  have hwalks := walk_of_concatenation.1 (userInfo.defaultContext {}) 3 .keep briefSelections
  refine ⟨?_, ?_, ?_⟩
  · exact (hwalks namedSelections).2.1 _ _ hbrief hnamed
  · exact (hwalks _).2.2.2 _ _ hbrief hnameless
  · rcases walk_of_concatenation.2 {} userInfo .null .absent (by decide) with
      ⟨parsed, patterns, hparsed, hpatterns, -, hrequest⟩
    cases hparsed
    cases hpatterns
    rw [hrequest]
    rfl

end Lookahead
