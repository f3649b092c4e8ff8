import Lookahead.Proofs.FieldTree.Places
import Lookahead.Proofs.FieldTree.Distinct

/-!
# FieldTree.Rearranged — the same fields in another order

Two trees ask for the same fields if one becomes the other when neighbours change places, at any
level. With distinct names this is the same as having equal kinds at all paths, so it can be shown
path by path, without saying which neighbours are to be swapped.

* `FieldTree.Rearranged` — equal up to the order of neighbours;
* `FieldTree.kindAt` — what stands at the end of a path: nothing, a leaf or a branch;
* `FieldTree.rearranged_cons_erase` — an entry may be moved to the front;
* `FieldTree.rearranged_iff` — for distinct names, equal kinds are all that matters;
* `FieldTree.Rearranged.descend` — what is below a path is rearranged as well.
-/

namespace Lookahead
namespace FieldTree

/-- Neighbours may stand in another order, here and below every branch. -/
inductive Rearranged : FieldTree → FieldTree → Prop
  | nil : Rearranged nil nil
  | leaf (name : String) {rest others : FieldTree} :
      Rearranged rest others → Rearranged (leaf name rest) (leaf name others)
  | branch (name : String) {children below rest others : FieldTree} :
      Rearranged children below → Rearranged rest others →
      Rearranged (branch name children rest) (branch name below others)
  | swap (name next : String) (entry following : Entry) (rest : FieldTree) :
      Rearranged (cons name entry (cons next following rest))
        (cons next following (cons name entry rest))
  | trans {left middle right : FieldTree} :
      Rearranged left middle → Rearranged middle right → Rearranged left right

/-- The kind of the entry at the end of a path, if there is one. -/
def kindAt (path : List String) (tree : FieldTree) : Option Bool :=
  (tree.get? path).map Entry.isBranch

variable {name : String} {entry other : Entry} {tree left right rest others : FieldTree}
  {path : List String}

/-! ## Kinds -/

@[simp]
theorem kindAt_nil_path (tree : FieldTree) : tree.kindAt [] = none := rfl

@[simp]
theorem nil_kindAt (path : List String) : nil.kindAt path = none := by
  simp [kindAt]

theorem kindAt_singleton (name : String) (tree : FieldTree) :
    tree.kindAt [name] = (tree.find? name).map Entry.isBranch := rfl

theorem kindAt_cons (name : String) (h : path ≠ []) (tree : FieldTree) :
    tree.kindAt (name :: path) = (childrenOf (tree.find? name)).kindAt path := by
  rw [kindAt, get?_cons name h, kindAt]

/-- The kinds below a name depend on nothing but the entry under it. -/
theorem kindAt_of_find?_eq (h : left.find? name = right.find? name) (path : List String) :
    left.kindAt (name :: path) = right.kindAt (name :: path) := by
  by_cases hend : path = []
  · rw [hend, kindAt_singleton, kindAt_singleton, h]
  · rw [kindAt_cons name hend, kindAt_cons name hend, h]

theorem kindAt_of_not_mem (h : name ∉ tree.names) (path : List String) :
    tree.kindAt (name :: path) = none := by
  have hfind : tree.find? name = nil.find? name := find?_eq_none_iff.2 h
  rw [kindAt_of_find?_eq hfind, nil_kindAt]

theorem kindAt_erase_self (name : String) (path : List String) (tree : FieldTree) :
    (tree.erase name).kindAt (name :: path) = none := by
  have hgone : name ∉ (tree.erase name).names := by simp [names_erase]
  exact kindAt_of_not_mem hgone path

theorem kindAt_erase_of_ne {first : String} (h : name ≠ first) (path : List String)
    (tree : FieldTree) :
    (tree.erase name).kindAt (first :: path) = tree.kindAt (first :: path) := by
  have hfind : (tree.erase name).find? first = tree.find? first := by
    simp [find?_erase, Ne.symm h]
  exact kindAt_of_find?_eq hfind path

theorem kindAt_append {below : List String} (hpath : path ≠ []) (hbelow : below ≠ [])
    (tree : FieldTree) :
    tree.kindAt (path ++ below) = (childrenOf (tree.get? path)).kindAt below := by
  induction path generalizing tree with
  | nil =>
      exact absurd rfl hpath
  | cons name path ih =>
      rw [List.cons_append, kindAt_cons name (by simp [hbelow])]
      by_cases hend : path = []
      · rw [hend, List.nil_append, get?_singleton]
      · rw [ih hend, get?_cons name hend]

/-- Trees that agree on the first entry and on the rest have equal kinds. -/
theorem kindAt_cons_congr (hkind : entry.isBranch = other.isBranch)
    (hbelow : ∀ path, (childrenOf (some entry)).kindAt path = (childrenOf (some other)).kindAt path)
    (hrest : ∀ path, rest.kindAt path = others.kindAt path) (path : List String) :
    (cons name entry rest).kindAt path = (cons name other others).kindAt path := by
  cases path with
  | nil =>
      rfl
  | cons first path =>
      by_cases hname : name = first
      · by_cases hend : path = []
        · simp [hend, kindAt_singleton, hname, hkind]
        · simp [kindAt_cons first hend, hname, hbelow]
      · calc
          (cons name entry rest).kindAt (first :: path)
              = rest.kindAt (first :: path) := kindAt_of_find?_eq (by simp [hname]) path
          _ = others.kindAt (first :: path) := hrest _
          _ = (cons name other others).kindAt (first :: path) :=
                kindAt_of_find?_eq (by simp [hname]) path

/-! ## Moving entries -/

namespace Rearranged

theorem refl (tree : FieldTree) : tree.Rearranged tree := by
  induction tree with
  | nil =>
      exact .nil
  | leaf name rest ih =>
      exact .leaf name ih
  | branch name children rest ihbelow ih =>
      exact .branch name ihbelow ih

theorem symm (h : left.Rearranged right) : right.Rearranged left := by
  induction h with
  | nil =>
      exact .nil
  | leaf name _ ih =>
      exact .leaf name ih
  | branch name _ _ ihbelow ih =>
      exact .branch name ihbelow ih
  | swap name next entry following rest =>
      exact .swap next name following entry rest
  | trans _ _ ihleft ihright =>
      exact .trans ihright ihleft

/-- Entries of one kind may be rearranged below them. -/
theorem cons (name : String) (hkind : entry.isBranch = other.isBranch)
    (hbelow : (childrenOf (some entry)).Rearranged (childrenOf (some other)))
    (hrest : rest.Rearranged others) :
    (FieldTree.cons name entry rest).Rearranged (FieldTree.cons name other others) := by
  cases entry with
  | leaf =>
      cases other with
      | leaf => exact .leaf name hrest
      | branch => cases hkind
  | branch children =>
      cases other with
      | leaf => cases hkind
      | branch below => exact .branch name hbelow hrest

theorem names_perm (h : left.Rearranged right) : left.names.Perm right.names := by
  induction h with
  | nil =>
      exact .refl _
  | leaf name _ ih =>
      exact ih.cons name
  | branch name _ _ _ ih =>
      exact ih.cons name
  | swap name next entry following rest =>
      simpa using List.Perm.swap next name rest.names
  | trans _ _ ihleft ihright =>
      exact ihleft.trans ihright

theorem distinct (h : left.Rearranged right) (hl : left.Distinct) : right.Distinct := by
  induction h with
  | nil =>
      exact hl
  | leaf name hrest ih =>
      rcases hl with ⟨hnew, hdistinct⟩
      exact ⟨mt hrest.names_perm.mem_iff.2 hnew, ih hdistinct⟩
  | branch name _ hrest ihbelow ih =>
      rcases hl with ⟨hnew, hchildren, hdistinct⟩
      exact ⟨mt hrest.names_perm.mem_iff.2 hnew, ihbelow hchildren, ih hdistinct⟩
  | swap name next entry following rest =>
      -- each of the two names is new to the other entry and to the rest, in either order
      simp only [distinct_cons, names_cons, List.mem_cons, not_or] at hl ⊢
      rcases hl with ⟨⟨hne, hname⟩, hentry, hnext, hfollowing, hrest⟩
      exact ⟨⟨fun h => hne h.symm, hnext⟩, hfollowing, hname, hentry, hrest⟩
  | trans _ _ ihleft ihright =>
      exact ihright (ihleft hl)

end Rearranged

theorem rearranged_cons_erase (hd : tree.Distinct) (hfound : tree.find? name = some entry) :
    tree.Rearranged (cons name entry (tree.erase name)) := by
  induction tree using consInduction with
  | nil =>
      cases hfound
  | cons n first rest _ ih =>
      rcases distinct_cons.1 hd with ⟨hnew, -, hrest⟩
      rw [find?_cons] at hfound
      rw [erase_cons]
      by_cases hn : n = name
      · subst hn
        rw [if_pos rfl] at hfound ⊢
        cases hfound
        rw [erase_of_not_mem hnew]
        exact .refl _
      · -- first to the front of the rest, then past the entry that stands before it
        rw [if_neg hn] at hfound ⊢
        exact .trans (.cons n rfl (.refl _) (ih hrest hfound)) (.swap n name first entry _)

/-! ## Rearranged trees have equal kinds, and the other way round -/

theorem Rearranged.kindAt_eq (h : left.Rearranged right) (hl : left.Distinct)
    (path : List String) : left.kindAt path = right.kindAt path := by
  induction h generalizing path with
  | nil =>
      rfl
  | leaf name _ ih =>
      rcases hl with ⟨-, hrest⟩
      exact @kindAt_cons_congr name .leaf .leaf _ _ rfl (fun _ => rfl) (ih hrest) path
  | @branch name children below _ _ _ _ ihbelow ih =>
      rcases hl with ⟨-, hchildren, hrest⟩
      have hkinds : ∀ path, children.kindAt path = below.kindAt path := ihbelow hchildren
      exact @kindAt_cons_congr name (.branch children) (.branch below) _ _ rfl hkinds (ih hrest)
        path
  | swap name next entry following rest =>
      rcases distinct_cons.1 hl with ⟨hnew, -, -⟩
      have hne : name ≠ next := by
        rintro rfl
        exact hnew (by simp)
      cases path with
      | nil =>
          rfl
      | cons first path =>
          -- two neighbours have two names, so it does not matter which one is asked first
          refine kindAt_of_find?_eq ?_ path
          by_cases hname : name = first
          · subst hname
            simp [hne.symm]
          · simp [hname]
  | trans hleft _ ihleft ihright =>
      exact (ihleft hl path).trans (ihright (hleft.distinct hl) path)

theorem rearranged_of_kindAt_eq (hl : left.Distinct) (hr : right.Distinct)
    (h : ∀ path, left.kindAt path = right.kindAt path) : left.Rearranged right := by
  -- the left tree says in which order the entries of the right one are taken out
  induction left using consInduction generalizing right with
  | nil =>
      cases right with
      | nil =>
          exact .nil
      | leaf name rest =>
          have hfirst := h [name]
          simp [kindAt_singleton, find?] at hfirst
      | branch name children rest =>
          have hfirst := h [name]
          simp [kindAt_singleton, find?] at hfirst
  | cons n entry rest ihbelow ih =>
      rcases distinct_cons.1 hl with ⟨hnew, hentry, hrest⟩
      -- the entry of the right tree under the first name of the left one
      have hfirst := h [n]
      rw [kindAt_singleton, kindAt_singleton, find?_cons, if_pos rfl] at hfirst
      rcases Option.map_eq_some_iff.1 hfirst.symm with ⟨other, hother, hkind⟩
      -- what is below the two entries has equal kinds at the paths that go on behind the name
      have hbelow : (childrenOf (some entry)).Rearranged (childrenOf (some other)) := by
        cases entry with
        | leaf =>
            cases other with
            | leaf => exact .nil
            | branch => cases hkind
        | branch children =>
            refine ihbelow children rfl hentry ?_ ?_
            · cases other with
              | leaf => trivial
              | branch => exact hr.find? hother
            · intro path
              by_cases hend : path = []
              · rw [hend, kindAt_nil_path, kindAt_nil_path]
              · have hpath := h (n :: path)
                rw [kindAt_cons n hend, kindAt_cons n hend, hother, find?_cons, if_pos rfl] at hpath
                exact hpath
      -- and all other paths are those of the rest and of the right tree without the name
      have hothers : rest.Rearranged (right.erase n) := by
        refine ih hrest (hr.erase n) ?_
        intro path
        cases path with
        | nil =>
            rfl
        | cons first path =>
            by_cases hname : n = first
            · subst hname
              rw [kindAt_of_not_mem hnew, kindAt_erase_self]
            · calc
                rest.kindAt (first :: path)
                    = (cons n entry rest).kindAt (first :: path) :=
                      kindAt_of_find?_eq (by simp [hname]) path
                _ = right.kindAt (first :: path) := h _
                _ = (right.erase n).kindAt (first :: path) :=
                      (kindAt_erase_of_ne hname path right).symm
      exact .trans (.cons n hkind.symm hbelow hothers) (rearranged_cons_erase hr hother).symm

/-- Trees with distinct names are equal up to the order of neighbours exactly if they have equal
kinds at all paths. -/
theorem rearranged_iff (hl : left.Distinct) (hr : right.Distinct) :
    left.Rearranged right ↔ ∀ path, left.kindAt path = right.kindAt path := by
  constructor
  · intro h
    exact h.kindAt_eq hl
  · intro h
    exact rearranged_of_kindAt_eq hl hr h

/-- What is below a path is rearranged with the tree. -/
theorem Rearranged.descend (hl : left.Distinct) (h : left.Rearranged right) (path : List String) :
    (left.descend path).Rearranged (right.descend path) := by
  by_cases hpath : path = []
  · subst hpath
    exact h
  · have hr : right.Distinct := h.distinct hl
    apply rearranged_of_kindAt_eq (hl.descend path) (hr.descend path)
    intro below
    by_cases hbelow : below = []
    · simp [hbelow]
    · calc
        (left.descend path).kindAt below
            = left.kindAt (path ++ below) := by
              simp only [descend_eq_childrenOf hpath, kindAt_append hpath hbelow]
        _ = right.kindAt (path ++ below) := h.kindAt_eq hl _
        _ = (right.descend path).kindAt below := by
              simp only [descend_eq_childrenOf hpath, kindAt_append hpath hbelow]

end FieldTree
end Lookahead
