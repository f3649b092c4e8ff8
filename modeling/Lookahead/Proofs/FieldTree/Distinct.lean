import Lookahead.FieldTree.Absorb
import Lookahead.Proofs.FieldTree.Union

/-!
# Distinct names — what the union keeps, and where absorbing is uniting

Trees whose names are distinct among neighbours stay so when they are united. For such trees it
does not matter whether entries are taken in one by one, at the places where their names already
stand, or the two trees are united as a whole:

* `FieldTree.Distinct.union` — the union of two trees with distinct names;
* `FieldTree.absorb_eq_union` — a tree that absorbs another one becomes their union.
-/

namespace Lookahead
namespace FieldTree

variable {name : String} {entry : Entry} {tree left right rest : FieldTree}

/-! ## Distinct entries -/

/-- No name occurs twice among neighbours below an entry. -/
def Entry.Distinct : Entry → Prop
  | .leaf => True
  | .branch children => children.Distinct

theorem distinct_cons :
    (cons name entry rest).Distinct ↔ name ∉ rest.names ∧ entry.Distinct ∧ rest.Distinct := by
  cases entry <;> simp [cons, Distinct, Entry.Distinct]

theorem Distinct.nodup_names (h : tree.Distinct) : tree.names.Nodup := by
  induction tree using consInduction with
  | nil =>
      exact List.nodup_nil
  | cons n first rest _ ih =>
      rcases distinct_cons.1 h with ⟨hnew, _, hrest⟩
      simpa using ⟨hnew, ih hrest⟩

theorem Distinct.find? (h : tree.Distinct) (hfound : tree.find? name = some entry) :
    entry.Distinct := by
  induction tree using consInduction with
  | nil =>
      cases hfound
  | cons n first rest _ ih =>
      rcases distinct_cons.1 h with ⟨_, hfirst, hrest⟩
      rw [find?_cons] at hfound
      split at hfound
      · cases hfound
        exact hfirst
      · exact ih hrest hfound

theorem Distinct.erase (h : tree.Distinct) (name : String) : (tree.erase name).Distinct := by
  induction tree using consInduction with
  | nil =>
      trivial
  | cons n first rest _ ih =>
      rcases distinct_cons.1 h with ⟨hnew, hfirst, hrest⟩
      rw [erase_cons]
      split
      · exact ih hrest
      · refine distinct_cons.2 ⟨?_, hfirst, ih hrest⟩
        rw [names_erase]
        exact fun hmem => hnew (List.mem_filter.1 hmem).1

theorem Distinct.descend (h : tree.Distinct) (path : List String) :
    (tree.descend path).Distinct := by
  induction path generalizing tree with
  | nil =>
      exact h
  | cons name path ih =>
      rw [descend_cons]
      cases hfound : tree.find? name with
      | none =>
          exact ih trivial
      | some entry =>
          have hentry := h.find? hfound
          cases entry with
          | leaf => exact ih trivial
          | branch children => exact ih hentry

/-! ## Uniting -/

private theorem Entry.Distinct.meet {other : Option Entry} (h : entry.Distinct)
    (hother : ∀ found, other = some found → found.Distinct)
    (hbelow : ∀ children, entry = .branch children → children.Distinct →
      ∀ right : FieldTree, right.Distinct → (children.union right).Distinct) :
    (entry.meet other).Distinct := by
  rcases other with _ | _ | right
  · cases entry <;> exact h
  · cases entry <;> exact h
  · have hright : right.Distinct := hother _ rfl
    cases entry with
    | leaf => exact hright
    | branch children => exact hbelow children rfl h right hright

theorem Distinct.union (hl : left.Distinct) (hr : right.Distinct) :
    (left.union right).Distinct := by
  induction left using consInduction generalizing right with
  | nil =>
      rwa [nil_union]
  | cons n first rest ihbelow ih =>
      rcases distinct_cons.1 hl with ⟨hnew, hfirst, hrest⟩
      rw [union_cons]
      refine distinct_cons.2 ⟨?_, ?_, ih hrest (hr.erase n)⟩
      · -- the name was taken out of the right tree and never was in the rest of the left one
        rw [← find?_eq_none_iff] at hnew ⊢
        rw [find?_union, hnew, find?_erase, if_pos rfl, joined_none_left]
      · refine Entry.Distinct.meet hfirst (fun _ hfound => hr.find? hfound) ?_
        intro children hentry hchildren other hother
        exact ihbelow children hentry hchildren hother

/-! ## Absorbing -/

/-- Asking for a name is uniting with a leaf. -/
theorem touch_eq_union (name : String) (tree : FieldTree) :
    tree.touch name = tree.union (cons name .leaf nil) := by
  induction tree using consInduction with
  | nil =>
      rfl
  | cons n first rest _ ih =>
      rw [touch_cons, union_cons, find?_cons, erase_cons, ih]
      by_cases h : n = name
      · simp [h, erase]
      · have hne : name ≠ n := fun e => h e.symm
        simp [h, hne, find?, erase]

/-- Asking for the fields below a name is uniting with a branch, if branches meet by uniting. -/
theorem graft_eq_union (name : String) (added : FieldTree) (meet : FieldTree → FieldTree)
    (hmeet : ∀ current, meet current = current.union added) (tree : FieldTree) :
    graft name added meet tree = tree.union (cons name (.branch added) nil) := by
  induction tree using consInduction with
  | nil =>
      rfl
  | cons n first rest _ ih =>
      rw [graft_cons, union_cons, find?_cons, erase_cons, ih]
      by_cases h : n = name
      · have hmet :
            Entry.branch (grafted added meet (some first)) = first.meet (some (.branch added)) := by
          cases first <;> simp [grafted, Entry.meet, hmeet]
        simp [h, hmet, erase]
      · have hne : name ≠ n := fun e => h e.symm
        simp [h, hne, find?, erase]

/-- The first entry of a tree may be united before the remaining ones. -/
theorem union_single_union (entry : Entry) (hnew : name ∉ rest.names) (target : FieldTree) :
    (target.union (cons name entry nil)).union rest = target.union (cons name entry rest) := by
  have hsingle : (cons name entry nil).union rest = cons name entry rest := by
    rw [union_cons, find?_eq_none_iff.2 hnew, erase_of_not_mem hnew, nil_union]
    cases entry <;> rfl
  rw [union_assoc, hsingle]

theorem absorb_eq_union {source : FieldTree} (h : source.Distinct) (target : FieldTree) :
    target.absorb source = target.union source := by
  induction source generalizing target with
  | nil =>
      simp
  | leaf name rest ih =>
      rcases h with ⟨hnew, hrest⟩
      calc
        target.absorb (leaf name rest)
            = (target.touch name).union rest := ih hrest _
        _ = (target.union (cons name .leaf nil)).union rest := by rw [touch_eq_union]
        _ = target.union (leaf name rest) := union_single_union .leaf hnew target
  | branch name children rest ihc ih =>
      rcases h with ⟨hnew, hchildren, hrest⟩
      have hmeet : ∀ current : FieldTree, current.absorb children = current.union children :=
        ihc hchildren
      calc
        target.absorb (branch name children rest)
            = (graft name children (fun current => current.absorb children) target).union rest :=
              ih hrest _
        _ = (target.union (cons name (.branch children) nil)).union rest := by
              rw [graft_eq_union name children _ hmeet]
        _ = target.union (branch name children rest) :=
              union_single_union (.branch children) hnew target

end FieldTree
end Lookahead
