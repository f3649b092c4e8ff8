import Lookahead.FieldTree.Registers
import Lookahead.Proofs.FieldTree.Distinct

/-!
# FieldTree.Registers — merging in place and merging into a new tree

Trees are merged in two ways: united into a new tree, or by letting one of them absorb the other.
On trees with distinct names both come to the same tree, and registers that hold such trees go on
holding such trees. So it makes no difference, however long a sequence of steps is, which of the
two ways its merges are carried out in.

* `Registers.Distinct` — all that can be read has distinct names; every step keeps this;
* `Step.resultBy`, `Step.historyBy` — steps whose merges are all carried out in one way;
* `Step.historyBy_eq` — any way of merging that unites has the same registers after every step.
-/

namespace Lookahead
namespace FieldTree

variable {registers : Registers} {tree : FieldTree} {name : String}

/-! ## Distinct names in registers -/

namespace Registers

/-- Every register holds a tree with distinct names. -/
def Distinct (registers : Registers) : Prop :=
  ∀ name, (registers.read name).Distinct

theorem distinct_nil : Distinct [] :=
  fun _ => trivial

theorem Distinct.write (h : registers.Distinct) (htree : tree.Distinct) (name : String) :
    (registers.write name tree).Distinct := by
  intro other
  simp only [read_write]
  split
  · exact htree
  · exact h other

end Registers

theorem Distinct.subtree (h : tree.Distinct) (path : String) : (tree.subtree path).Distinct := by
  unfold FieldTree.subtree
  split
  · exact h
  · exact h.descend (Dotted.segments path)

theorem Distinct.absorb {source : FieldTree} (h : tree.Distinct) (hsource : source.Distinct) :
    (tree.absorb source).Distinct := by
  simpa only [absorb_eq_union hsource] using h.union hsource

namespace Step

variable {step : Step} {steps : List Step} {merge : FieldTree → FieldTree → FieldTree}

/-- The tree that a step brings along, if it does, has distinct names. -/
def Distinct : Step → Prop
  | set _ tree => tree.Distinct
  | _ => True

theorem Distinct.result (hstep : step.Distinct) (h : registers.Distinct) :
    (step.result registers).Distinct := by
  cases step with
  | set target tree => exact hstep
  | union target left right => exact (h left).union (h right)
  | absorb target source => exact (h target).absorb (h source)
  | branch target source path => exact (h source).subtree path

/-- A step leaves distinct names in all registers. -/
theorem Distinct.apply (hstep : step.Distinct) (h : registers.Distinct) :
    (step.apply registers).Distinct :=
  h.write (hstep.result h) step.target

/-- After each of any number of steps all registers hold distinct names. -/
theorem distinct_of_mem_history (h : registers.Distinct) (hsteps : ∀ step ∈ steps, step.Distinct) :
    ∀ later ∈ history registers steps, later.Distinct := by
  induction steps generalizing registers with
  | nil =>
      intro later hmem
      cases hmem
  | cons step steps ih =>
      rcases List.forall_mem_cons.1 hsteps with ⟨hstep, hrest⟩
      have hnext : (step.apply registers).Distinct := hstep.apply h
      exact List.forall_mem_cons.2 ⟨hnext, ih hnext hrest⟩

/-! ## One way of merging -/

/-- The tree that a step writes if every merge is carried out by `merge`, whether it makes a new
tree or works on the one that is in the register. -/
def resultBy (merge : FieldTree → FieldTree → FieldTree) (registers : Registers) :
    Step → FieldTree
  | set _ tree => tree
  | union _ left right => merge (registers.read left) (registers.read right)
  | absorb target source => merge (registers.read target) (registers.read source)
  | branch _ source path => (registers.read source).subtree path

/-- The registers after each step, if every merge is carried out by `merge`. -/
def historyBy (merge : FieldTree → FieldTree → FieldTree) (registers : Registers) :
    List Step → List Registers
  | [] => []
  | step :: steps =>
      let next := registers.write step.target (step.resultBy merge registers)
      next :: historyBy merge next steps

/-- Carried out on trees with distinct names, a merge comes to the union. -/
def Unites (merge : FieldTree → FieldTree → FieldTree) : Prop :=
  ∀ left right : FieldTree, right.Distinct → merge left right = left.union right

theorem unites_union : Unites FieldTree.union :=
  fun _ _ _ => rfl

theorem unites_absorb : Unites FieldTree.absorb :=
  fun left _ hright => absorb_eq_union hright left

theorem Unites.resultBy_eq (hmerge : Unites merge) (h : registers.Distinct) (step : Step) :
    step.resultBy merge registers = step.result registers := by
  cases step with
  | set target tree => rfl
  | union target left right => exact hmerge _ _ (h right)
  | absorb target source =>
      calc
        merge (registers.read target) (registers.read source)
            = (registers.read target).union (registers.read source) := hmerge _ _ (h source)
        _ = (registers.read target).absorb (registers.read source) :=
              (absorb_eq_union (h source) _).symm
  | branch target source path => rfl

theorem historyBy_eq (hmerge : Unites merge) (h : registers.Distinct)
    (hsteps : ∀ step ∈ steps, step.Distinct) :
    historyBy merge registers steps = history registers steps := by
  induction steps generalizing registers with
  | nil =>
      rfl
  | cons step steps ih =>
      rcases List.forall_mem_cons.1 hsteps with ⟨hstep, hrest⟩
      -- the two ways agree on one step, and leave registers on which they agree again
      have hresult : step.resultBy merge registers = step.result registers :=
        hmerge.resultBy_eq h step
      have hnext : (step.apply registers).Distinct := hstep.apply h
      have hhistory : historyBy merge (step.apply registers) steps =
          history (step.apply registers) steps := ih hnext hrest
      simp only [historyBy, history, hresult]
      exact congrArg (step.apply registers :: ·) hhistory

/-- A tree that absorbs another one becomes their union, with the same order at every level. So a
sequence of steps has the same registers after every step if all its merges in place are replaced
by merges into a new tree, and if all those are replaced by merges in place. -/
theorem merges_agree (target : FieldTree) {source : FieldTree} (hsource : source.Distinct)
    (hregisters : registers.Distinct) (hsteps : ∀ step ∈ steps, step.Distinct) :
    target.absorb source = target.union source ∧
      historyBy FieldTree.union registers steps = history registers steps ∧
      historyBy FieldTree.absorb registers steps = history registers steps :=
  ⟨absorb_eq_union hsource target, historyBy_eq unites_union hregisters hsteps,
    historyBy_eq unites_absorb hregisters hsteps⟩

def sampleTarget : FieldTree :=
  .leaf "a" (.branch "b" (.leaf "c" .nil) .nil)

def sampleSource : FieldTree :=
  .branch "b" (.leaf "d" .nil) (.branch "a" .nil .nil)

/-- `r` takes in `s`, then both are united the other way round, and a branch is read. -/
def sampleSteps : List Step :=
  [.set "r" sampleTarget,
    .set "s" sampleSource,
    .absorb "r" "s",
    .union "t" "s" "r",
    .branch "s" "t" "b"]

theorem sample_merges_agree :
    (sampleSource.Distinct ∧
      sampleTarget.absorb sampleSource = sampleTarget.union sampleSource) ∧
    (historyBy FieldTree.union [] sampleSteps = history [] sampleSteps ∧
      historyBy FieldTree.absorb [] sampleSteps = history [] sampleSteps) ∧
    (history [] sampleSteps).getLast? =
      some [("r", .branch "a" .nil (.branch "b" (.leaf "c" (.leaf "d" .nil)) .nil)),
        ("s", .leaf "d" (.leaf "c" .nil)),
        ("t", .branch "b" (.leaf "d" (.leaf "c" .nil)) (.branch "a" .nil .nil))] := by
  have hsteps : ∀ step ∈ sampleSteps, step.Distinct := by
    simp [sampleSteps, sampleTarget, sampleSource, Step.Distinct, FieldTree.Distinct, names]
  have hsource : sampleSource.Distinct := by
    simp [sampleSource, FieldTree.Distinct, names]
  rcases merges_agree sampleTarget hsource Registers.distinct_nil hsteps with
    ⟨hmerge, hunion, habsorb⟩
  exact ⟨⟨hsource, hmerge⟩, ⟨hunion, habsorb⟩, by decide⟩

end Step

end FieldTree
end Lookahead
