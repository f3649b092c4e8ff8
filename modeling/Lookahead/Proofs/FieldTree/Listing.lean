import Lookahead.FieldTree.Listing
import Lookahead.Proofs.FieldTree.Distinct

/-!
# FieldTree.Listing — what is listed, by paths

Whatever order the queue leads to, it lists one item for each path of names that leads to an entry:
the names joined by points, and whether the entry is a branch.

* `FieldTree.Lists` — an item stands for a path below a tree;
* `FieldTree.mem_listQueue_iff` — a queue lists what its trees do;
* `FieldTree.mem_listing_iff` — the items of a tree with distinct names.
-/

namespace Lookahead
namespace FieldTree

variable {name parent : String} {entry : Entry} {tree : FieldTree} {item : Item}

/-- The dotted path that a path of names stands at below `parent`. -/
def dotted (parent : String) (path : List String) : String :=
  path.foldl Dotted.extend parent

/-- An item stands for a path of names that leads to an entry of a tree. -/
def Lists (parent : String) (tree : FieldTree) (item : Item) : Prop :=
  ∃ path entry, tree.get? path = some entry ∧ item = ⟨dotted parent path, entry.isBranch⟩

/-! ## Entries and what is below them -/

/-- With distinct names, the entries are what is found under the names. -/
theorem Distinct.mem_entries_iff (h : tree.Distinct) :
    (name, entry) ∈ tree.entries ↔ tree.find? name = some entry := by
  induction tree using consInduction with
  | nil =>
      simp [entries, FieldTree.find?]
  | cons n first rest _ ih =>
      rcases distinct_cons.1 h with ⟨hnew, _, hrest⟩
      rw [entries_cons, List.mem_cons, ih hrest, find?_cons]
      split
      · next hn =>
          subst hn
          have hnone : rest.find? n = none := find?_eq_none_iff.2 hnew
          simp [hnone, eq_comm]
      · next hn =>
          simp [Ne.symm hn]

/-- The trees below the branches of a tree, by their entries. -/
theorem mem_offspring_iff {below : String} {children : FieldTree} :
    (below, children) ∈ tree.offspring parent ↔
      ∃ name, (name, Entry.branch children) ∈ tree.entries ∧
        below = Dotted.extend parent name := by
  induction tree with
  | nil =>
      simp [offspring, entries]
  | leaf n rest ih =>
      simp [offspring, entries, ih]
  | branch n first rest _ ih =>
      rw [offspring, entries, List.mem_cons, ih]
      constructor
      · rintro (⟨rfl, rfl⟩ | ⟨name, hmem, hbelow⟩)
        · exact ⟨n, List.mem_cons_self, rfl⟩
        · exact ⟨name, List.mem_cons_of_mem _ hmem, hbelow⟩
      · rintro ⟨name, hmem, hbelow⟩
        rcases List.mem_cons.1 hmem with heq | hmem
        · cases heq
          exact .inl (by rw [hbelow])
        · exact .inr ⟨name, hmem, hbelow⟩

theorem Distinct.of_mem_offspring (h : tree.Distinct) {waiting : String × FieldTree}
    (hmem : waiting ∈ tree.offspring parent) : waiting.2.Distinct := by
  rcases mem_offspring_iff.1 hmem with ⟨name, hentry, -⟩
  have hfound := h.mem_entries_iff.1 hentry
  exact h.find? hfound

/-- A path is a single name, or a name with a path below its branch. -/
theorem Distinct.lists_iff (h : tree.Distinct) :
    Lists parent tree item ↔
      item ∈ tree.items parent ∨
        ∃ below children, (below, children) ∈ tree.offspring parent ∧
          Lists below children item := by
  constructor
  · rintro ⟨path, entry, hget, rfl⟩
    -- the empty path leads nowhere, a single name to an item, a longer path below a branch
    rcases path with _ | ⟨name, _ | ⟨next, path⟩⟩
    · cases hget
    · refine .inl (List.mem_map.2 ⟨(name, entry), ?_, rfl⟩)
      exact h.mem_entries_iff.2 hget
    · rw [get?_cons name (by simp)] at hget
      cases hfound : tree.find? name with
      | none =>
          simp [hfound, childrenOf] at hget
      | some first =>
          cases first with
          | leaf =>
              simp [hfound, childrenOf] at hget
          | branch children =>
              rw [hfound] at hget
              refine .inr ⟨Dotted.extend parent name, children, ?_, next :: path, entry, hget, rfl⟩
              exact mem_offspring_iff.2 ⟨name, h.mem_entries_iff.2 hfound, rfl⟩
  · rintro (hitem | ⟨below, children, hmem, path, entry, hget, rfl⟩)
    · rcases List.mem_map.1 hitem with ⟨⟨name, entry⟩, hmem, rfl⟩
      exact ⟨[name], entry, h.mem_entries_iff.1 hmem, rfl⟩
    · rcases mem_offspring_iff.1 hmem with ⟨name, hentry, rfl⟩
      have hpath : path ≠ [] := path_ne_nil_of_get? hget
      refine ⟨name :: path, entry, ?_, rfl⟩
      rw [get?_cons name hpath, h.mem_entries_iff.1 hentry]
      exact hget

/-! ## The queue -/

/-- A queue lists what its trees list, each below its own path. -/
theorem mem_listQueue_iff {queue : List (String × FieldTree)}
    (h : ∀ waiting ∈ queue, waiting.2.Distinct) :
    item ∈ listQueue queue ↔ ∃ waiting ∈ queue, Lists waiting.1 waiting.2 item := by
  induction queue using listQueue.induct with
  | case1 =>
      simp [listQueue]
  | case2 parent tree queue ih =>
      have htree : tree.Distinct := h (parent, tree) List.mem_cons_self
      have hrest : ∀ waiting ∈ queue ++ tree.offspring parent, waiting.2.Distinct := by
        intro waiting hmem
        rcases List.mem_append.1 hmem with hmem | hmem
        · exact h waiting (List.mem_cons_of_mem _ hmem)
        · exact htree.of_mem_offspring hmem
      rw [listQueue, List.mem_append, ih hrest]
      -- the branches of the first tree move to the end of the queue, but they stay listed
      constructor
      · rintro (hitem | ⟨waiting, hmem, hlists⟩)
        · exact ⟨_, List.mem_cons_self, htree.lists_iff.2 (.inl hitem)⟩
        · rcases List.mem_append.1 hmem with hmem | hmem
          · exact ⟨waiting, List.mem_cons_of_mem _ hmem, hlists⟩
          · exact ⟨_, List.mem_cons_self, htree.lists_iff.2 (.inr ⟨_, _, hmem, hlists⟩)⟩
      · rintro ⟨waiting, hmem, hlists⟩
        rcases List.mem_cons.1 hmem with rfl | hmem
        · rcases htree.lists_iff.1 hlists with hitem | ⟨below, children, hmem, hlists⟩
          · exact .inl hitem
          · exact .inr ⟨_, List.mem_append_right _ hmem, hlists⟩
        · exact .inr ⟨waiting, List.mem_append_left _ hmem, hlists⟩

/-- The items of a tree are the paths that lead to its entries. -/
theorem mem_listing_iff (h : tree.Distinct) : item ∈ tree.listing ↔ Lists "" tree item := by
  rw [listing, mem_listQueue_iff (by simpa using h)]
  simp

end FieldTree
end Lookahead
