import Lookahead.Proofs.Exclusion.Keys
import Lookahead.Proofs.FieldTree.Listing
import Lookahead.Proofs.FieldTree.Registers
import Lookahead.Proofs.Request.Branch

/-!
# Request.Names — distinct names wherever trees and scopes come from

Trees and scopes are looked into by name, and they are gone through entry by entry. Both come to the
same as long as no name occurs twice among neighbours. No operation ever makes a second entry of a
name: neither uniting nor absorbing trees, nor a walk, nor a request, nor a pattern that is added to
a scope.

* `FieldTree.LookupAgrees`, `Scope.LookupAgrees` — looking up and going through agree at every
  level;
* `names_stay_distinct` — all trees and scopes that are made are such.
-/

namespace Lookahead

/-! ## Looking up and going through -/

/-- At every level no name occurs twice, and going through the entries comes by an entry exactly if
it is found under its name. -/
def FieldTree.LookupAgrees (tree : FieldTree) : Prop :=
  ∀ path, (tree.descend path).names.Nodup ∧
    ∀ name entry, (name, entry) ∈ (tree.descend path).entries ↔
      (tree.descend path).find? name = some entry

/-- In every scope that a path of keys leads to no key occurs twice, and going through the keys
comes by a rule exactly if it is found under its key. -/
def Scope.LookupAgrees (scope : Scope) : Prop :=
  ∀ path inner, (Rule.within scope).get? path = some (.within inner) →
    inner.keys.Nodup ∧
      ∀ key rule, (key, rule) ∈ inner.entries ↔ inner.find? key = some rule

theorem FieldTree.Distinct.lookupAgrees {tree : FieldTree} (h : tree.Distinct) :
    tree.LookupAgrees := by
  intro path
  have hbelow := h.descend path
  exact ⟨hbelow.nodup_names, fun _ _ => hbelow.mem_entries_iff⟩

theorem Scope.Distinct.lookupAgrees {scope : Scope} (h : scope.Distinct) :
    scope.LookupAgrees := by
  intro path inner hget
  have hinner := h.of_get? hget
  exact ⟨hinner.nodup_keys, fun _ _ => hinner.mem_entries_iff⟩

/-! ## Where trees and scopes come from -/

/-- Registers that hold trees with distinct names go on doing so, whatever steps are made with
trees of that kind. Every tree of a walk or of a request has distinct names at every level, and so
has the scope of any patterns. Wherever names are distinct, looking up and going through agree. -/
theorem names_stay_distinct :
    (∀ (registers : FieldTree.Registers) (steps : List FieldTree.Step),
      registers.Distinct → (∀ step ∈ steps, step.Distinct) →
        ∀ later ∈ FieldTree.Step.history registers steps, later.Distinct) ∧
    (∀ (context : Context) (limit : Nat) (rule : Rule) (selections : List Selection)
        (tree : FieldTree),
      (collect context limit rule selections).outcome = .ok tree → tree.Distinct) ∧
    (∀ (settings : Settings) (info : ResolverInfo) (options : Value) (tree : FieldTree),
      (info.requestedTree settings options).outcome = .ok tree → tree.Distinct) ∧
    (∀ patterns : List String, (Pattern.scope patterns).Distinct) ∧
    (∀ tree : FieldTree, tree.Distinct → tree.LookupAgrees) ∧
    ∀ scope : Scope, scope.Distinct → scope.LookupAgrees := by
  refine ⟨?_, ?_, ?_, Pattern.distinct_scope, ?_, ?_⟩
  · intro registers steps hregisters hsteps
    exact FieldTree.Step.distinct_of_mem_history hregisters hsteps
  · intro context limit rule selections tree h
    exact collect_distinct h
  · intro settings info options tree h
    exact ResolverInfo.distinct_requestedTree h
  · intro tree h
    exact h.lookupAgrees
  · intro scope h
    exact h.lookupAgrees

/-- The registers of the sample steps hold distinct names. In the tree of the sample walk, in that
of the sample request and in the scope of two patterns lookups agree with what stands there. -/
theorem sample_names_stay_distinct :
    (∀ later ∈ FieldTree.Step.history [] FieldTree.Step.sampleSteps, later.Distinct) ∧
      (FieldTree.branch "a" (.branch "b" .nil .nil) .nil).LookupAgrees ∧
      sampleTree.LookupAgrees ∧
      (Pattern.scope ["a.b", "*.b"]).LookupAgrees := by
  rcases names_stay_distinct with ⟨hsteps, hwalk, hrequest, hscope, htree, hlookup⟩
  have hcollected : (collect sampleContext 4 sampleRule sampleSelections).outcome =
      .ok (.branch "a" (.branch "b" .nil .nil) .nil) := rfl
  have hrequested : (sampleInfo.requestedTree {} .null).outcome = .ok sampleTree := rfl
  have hset : ∀ step ∈ FieldTree.Step.sampleSteps, step.Distinct := by
    simp [FieldTree.Step.sampleSteps, FieldTree.Step.sampleTarget, FieldTree.Step.sampleSource,
      FieldTree.Step.Distinct, FieldTree.Distinct, FieldTree.names]
  refine ⟨hsteps [] _ FieldTree.Registers.distinct_nil hset, ?_, ?_, hlookup _ (hscope _)⟩
  · exact htree _ (hwalk _ _ _ _ _ hcollected)
  · exact htree _ (hrequest _ _ _ _ hrequested)

end Lookahead
