import Lookahead.Proofs.Request.Branch
import Lookahead.Proofs.Walk.Reordering

/-!
# Request.Reordering — requests do not depend on the order of a query

A request whose nodes, fragments and selections are reordered has the same fields, whatever its
options are. Their order may change, and nothing else.

* `ResolverInfo.ReorderedTo` — a request after any such changes;
* `FieldTree.Rearranged.branchAt` — the wanted branch of a rearranged tree;
* `requestedTree_of_reordered` — both requests have the same fields.
-/

namespace Lookahead

/-! ## Nodes -/

namespace Matched

variable {nodes others : List Selection}

theorem filter {wanted : Selection → Bool}
    (hwanted : ∀ node other : Selection, node.Alike other → wanted other = wanted node)
    (h : Matched nodes others) : Matched (nodes.filter wanted) (others.filter wanted) where
  forth := by
    intro node hmem
    rcases List.mem_filter.1 hmem with ⟨hnode, hkept⟩
    rcases h.forth node hnode with ⟨other, hother, halike⟩
    exact ⟨other, List.mem_filter.2 ⟨hother, (hwanted node other halike).trans hkept⟩, halike⟩
  back := by
    intro other hmem
    rcases List.mem_filter.1 hmem with ⟨hother, hkept⟩
    rcases h.back other hother with ⟨node, hnode, halike⟩
    exact ⟨node, List.mem_filter.2 ⟨hnode, (hwanted node other halike).symm.trans hkept⟩, halike⟩

theorem below (h : Matched nodes others) :
    Matched (selectionsBelow nodes) (selectionsBelow others) where
  forth := by
    intro selection hmem
    rcases List.mem_flatMap.1 hmem with ⟨node, hnode, hselection⟩
    rcases h.forth node hnode with ⟨other, hother, halike⟩
    rcases halike.selections.matched.forth selection hselection with ⟨changed, hchanged, hsame⟩
    exact ⟨changed, List.mem_flatMap.2 ⟨other, hother, hchanged⟩, hsame⟩
  back := by
    intro changed hmem
    rcases List.mem_flatMap.1 hmem with ⟨other, hother, hchanged⟩
    rcases h.back other hother with ⟨node, hnode, halike⟩
    rcases halike.selections.matched.back changed hchanged with ⟨selection, hselection, hsame⟩
    exact ⟨selection, List.mem_flatMap.2 ⟨node, hnode, hselection⟩, hsame⟩

end Matched

/-- What is reordered below a node does not decide whether the node is of use. -/
theorem Selection.Alike.resolves_eq {node other : Selection} (h : node.Alike other)
    (fieldName : Value) : other.resolves fieldName = node.resolves fieldName := by
  cases h with
  | @field name _ selectionSet changed hbelow =>
      have hempty : changed.toList.isEmpty = selectionSet.toList.isEmpty := by
        apply Bool.eq_iff_iff.2
        simpa using hbelow.eq_nil_iff.symm
      cases name with
      | none => rfl
      | some name => simp only [resolves, hempty]
  | inlineFragment _ => rfl
  | spread => rfl
  | other => rfl
  | value => rfl

/-! ## Branches -/

theorem FieldTree.Rearranged.branchAt {left right branch : FieldTree} {path : Value}
    (hl : left.Distinct) (h : left.Rearranged right) (hbranch : left.branchAt path = .ok branch) :
    ∃ found, right.branchAt path = .ok found ∧ branch.Rearranged found := by
  unfold FieldTree.branchAt at hbranch ⊢
  split at hbranch
  · next htruthy =>
      simp only [htruthy, if_true]
      split at hbranch
      · next dotted =>
          cases hbranch
          refine ⟨right.subtree dotted, rfl, ?_⟩
          unfold FieldTree.subtree
          split
          · exact h
          · exact h.descend hl _
      · cases hbranch
  · next hfalsy =>
      cases hbranch
      simp only [hfalsy]
      exact ⟨right, rfl, h⟩

/-! ## Requests -/

/-- A request that differs in the order of its nodes and selections, at any depth and in fragments
too, and in how often they are written. -/
structure ResolverInfo.ReorderedTo (info other : ResolverInfo) : Prop where
  sameField : other.fieldName = info.fieldName
  sameVariables : other.variableValues = info.variableValues
  nodes : Reordered info.nodes other.nodes
  fragments : info.fragments.orEmpty.ReorderedTo other.fragments.orEmpty

namespace ResolverInfo.ReorderedTo

variable {settings : Settings} {info other : ResolverInfo}

theorem resolvedNodes (h : info.ReorderedTo other) :
    Matched info.resolvedNodes other.resolvedNodes := by
  simp only [ResolverInfo.resolvedNodes, h.sameField]
  apply h.nodes.matched.filter
  intro node changed halike
  exact halike.resolves_eq info.fieldName

theorem contextOf_eq (h : info.ReorderedTo other) (options : Options) :
    other.contextOf settings options =
      (info.contextOf settings options).withFragments other.fragments.orEmpty := by
  simp only [contextOf, context, Context.withFragments, h.sameVariables]

end ResolverInfo.ReorderedTo

/-- Requests that differ only in the order of nodes and selections, or in how often these are
written, have the same fields: if one of them has a tree, the other one has one with the same names
and kinds at every level, which may stand in another order. -/
theorem requestedTree_of_reordered {settings : Settings} {info other : ResolverInfo}
    {options : Value} {tree : FieldTree} (h : info.ReorderedTo other)
    (htree : (info.requestedTree settings options).outcome = .ok tree) :
    ∃ found, (other.requestedTree settings options).outcome = .ok found ∧
      tree.Rearranged found := by
  have hnodes := h.resolvedNodes
  by_cases hnone : info.resolvedNodes = []
  · have hother : other.resolvedNodes = [] := hnodes.eq_nil_iff.1 hnone
    rw [ResolverInfo.outcome_requestedTree_of_no_node hnone] at htree
    cases htree
    exact ⟨.nil, ResolverInfo.outcome_requestedTree_of_no_node hother, .nil⟩
  · have hother : other.resolvedNodes ≠ [] := mt hnodes.eq_nil_iff.2 hnone
    rcases ResolverInfo.exists_read_of_ok hnone htree with ⟨parsed, patterns, hparsed, hpatterns⟩
    rcases ResolverInfo.exists_walk_of_ok hnone hparsed hpatterns htree with
      ⟨whole, hwhole, hbranch⟩
    have hwalk : (collect (info.contextOf settings parsed) settings.nestingLimit
        (.within (Pattern.scope patterns)) (selectionsBelow info.resolvedNodes)).SameFields
          (collect (other.contextOf settings parsed) settings.nestingLimit
            (.within (Pattern.scope patterns)) (selectionsBelow other.resolvedNodes)) := by
      rw [h.contextOf_eq]
      exact collect_matched h.fragments _ _ hnodes.below
    rcases hwalk whole hwhole with ⟨total, htotal, hrearranged⟩
    rcases hrearranged.branchAt (collect_distinct hwhole) hbranch with ⟨found, hfound, hsame⟩
    refine ⟨found, ?_, hsame⟩
    rw [ResolverInfo.outcome_requestedTree hother hparsed hpatterns, htotal]
    exact hfound

/-- The fragment `F` of the sample query, written as `{ d, a { b { x } } }`. -/
def shuffledFragment : Fragment :=
  .definition (.listed sampleFragment.selections.reverse)

/-- The sample query, written as `{ ...F, a, ...F, a { c @skip(if: $v), c @skip(if: $v) } }`. -/
def shuffledSelections : List Selection :=
  [.spread (some "F") .missing,
    .field (some "a") .missing .missing,
    .spread (some "F") .missing,
    .field (some "a") .missing (.listed (List.replicate 2 (.field (some "c")
      (.listed [.named "skip" (.listed [.ofVariable "v"])]) .missing)))]

/-- Two nodes ask for the query. -/
def shuffledInfo : ResolverInfo where
  fieldName := .text "root"
  fieldNodes := .listed
    (List.replicate 2 (.field (some "root") .missing (.listed shuffledSelections)))
  legacyNodes := .missing
  fragments := .table [("F", some shuffledFragment)]
  variableValues := sampleContext.variableValues

theorem reordered_sampleSelections : Reordered sampleSelections shuffledSelections := by
  refine .trans (.again ?_) (.cons _ (.cons _ (.cons _ (.field (.again ?_)))))
  · simp [sampleSelections]
  · exact List.mem_singleton_self _

theorem reorderedTo_shuffledInfo : sampleInfo.ReorderedTo shuffledInfo where
  sameField := rfl
  sameVariables := rfl
  nodes := by
    have hnode : Reordered [.field (some "root") .missing (.listed sampleSelections)]
        [.field (some "root") .missing (.listed shuffledSelections)] :=
      .field reordered_sampleSelections
    exact .trans hnode (.again (List.mem_singleton_self _))
  fragments := by
    intro name
    by_cases hname : "F" = name
    · subst hname
      exact .inr ⟨sampleFragment, shuffledFragment, rfl, rfl, .of_perm (List.reverse_perm _).symm⟩
    · -- neither table has another name
      left
      simp [sampleInfo, sampleContext, shuffledInfo, FragmentTable.orEmpty, FragmentTable.lookup,
        FragmentTable.find, hname]

/-- The shuffled query has `d` first. -/
theorem sample_reordered :
    (sampleInfo.requestedTree {} .null).outcome = .ok sampleTree ∧
      (shuffledInfo.requestedTree {} .null).outcome =
        .ok (.leaf "d" (.branch "a" (.branch "b" (.leaf "x" .nil) .nil) .nil)) ∧
      sampleTree.Rearranged (.leaf "d" (.branch "a" (.branch "b" (.leaf "x" .nil) .nil) .nil)) := by
  have htree : (sampleInfo.requestedTree {} .null).outcome = .ok sampleTree := rfl
  have hshuffled : (shuffledInfo.requestedTree {} .null).outcome =
      .ok (.leaf "d" (.branch "a" (.branch "b" (.leaf "x" .nil) .nil) .nil)) := rfl
  rcases requestedTree_of_reordered reorderedTo_shuffledInfo htree with
    ⟨found, hfound, hrearranged⟩
  cases hshuffled.symm.trans hfound
  exact ⟨htree, hshuffled, hrearranged⟩

end Lookahead
