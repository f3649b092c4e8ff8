import Mathlib.Data.List.Nodup
import Lookahead.Proofs.FieldTree.Joined

/-!
# FieldTree.Levels — what is listed, in which order

The places of a tree are sorted into levels by the lengths of their paths, and in each level they
keep the order they have in the tree. Listing a tree lists its levels one after the other: while
the queue is worked off, it holds what is left of one level and what has been met of the next.

* `FieldTree.level`, `FieldTree.levelOrder` — the places of one depth, and of all depths in turn;
* `FieldTree.listQueue_append` — the front of a queue is listed before what is below it;
* `FieldTree.listing_eq_levelOrder` — a listing goes through the places in level order;
* `FieldTree.mem_levelOrder_iff`, `FieldTree.nodup_levelOrder` — every place is met, and only once.
-/

namespace Lookahead
namespace FieldTree

/-! ## Levels -/

/-- The places whose paths have a given length, in the order of the tree. -/
def level (depth : Nat) (tree : FieldTree) : List Place :=
  tree.places.filter fun place => place.path.length = depth

/-- The number of levels. -/
def height : FieldTree → Nat
  | nil => 0
  | leaf _ rest => max 1 rest.height
  | branch _ children rest => max (children.height + 1) rest.height

/-- All places, the shorter paths before the longer ones. -/
def levelOrder (tree : FieldTree) : List Place :=
  (List.range tree.height).flatMap fun depth => tree.level (depth + 1)

variable {name parent : String} {entry : Entry} {tree rest : FieldTree} {place : Place}

theorem height_cons :
    (cons name entry rest).height = max ((childrenOf (some entry)).height + 1) rest.height := by
  cases entry <;> simp [cons, height, childrenOf]

theorem eq_nil_of_height (h : tree.height = 0) : tree = nil := by
  cases tree with
  | nil =>
      rfl
  | leaf name rest =>
      simp [height] at h
  | branch name children rest =>
      simp [height] at h

theorem length_le_height (hmem : place ∈ tree.places) : place.path.length ≤ tree.height := by
  -- a place is the first entry, or one level below it, or behind it on the same level
  induction tree using consInduction generalizing place with
  | nil =>
      cases hmem
  | cons name entry rest ihbelow ih =>
      rw [height_cons]
      rcases mem_places_cons_iff.1 hmem with rfl | ⟨inner, hinner, rfl⟩ | hrest
      · have hone : 1 ≤ (childrenOf (some entry)).height + 1 := Nat.le_add_left 1 _
        exact Nat.le_trans hone (Nat.le_max_left _ _)
      · have hbelow : inner.path.length ≤ (childrenOf (some entry)).height := by
          cases entry with
          | leaf => cases hinner
          | branch children => exact ihbelow children rfl hinner
        exact Nat.le_trans (Nat.succ_le_succ hbelow) (Nat.le_max_left _ _)
      · exact Nat.le_trans (ih hrest) (Nat.le_max_right _ _)

theorem mem_level_iff {depth : Nat} :
    place ∈ tree.level depth ↔ place ∈ tree.places ∧ place.path.length = depth := by
  simp [level]

@[simp]
theorem level_zero (tree : FieldTree) : tree.level 0 = [] := by
  refine List.filter_eq_nil_iff.2 ?_
  intro place hmem
  simpa using path_ne_nil_of_mem_places hmem

/-- The places of a level below a branch are one name further down. -/
theorem filter_length_map_below (name : String) (depth : Nat) (tree : FieldTree) :
    (tree.places.map (Place.below name)).filter (fun place => place.path.length = depth + 1) =
      (tree.level depth).map (Place.below name) := by
  simp [level, List.filter_map, Function.comp_def, Place.below]

theorem level_one_cons :
    (cons name entry rest).level 1 = ⟨[name], entry.isBranch⟩ :: rest.level 1 := by
  have hbelow := filter_length_map_below name 0 (childrenOf (some entry))
  rw [level_zero, List.map_nil, Nat.zero_add] at hbelow
  simp [level, places_cons, List.filter_append, hbelow]

theorem level_succ_cons (depth : Nat) :
    (cons name entry rest).level (depth + 2) =
      ((childrenOf (some entry)).level (depth + 1)).map (Place.below name) ++
        rest.level (depth + 2) := by
  have hbelow := filter_length_map_below name (depth + 1) (childrenOf (some entry))
  rw [level, places_cons, List.cons_append, List.filter_cons_of_neg (by simp), List.filter_append,
    hbelow]
  rfl

/-! ## The items of a level -/

/-- What is listed for a place below `parent`. -/
def Place.item (parent : String) (place : Place) : Item :=
  ⟨dotted parent place.path, place.isBranch⟩

theorem items_cons :
    (cons name entry rest).items parent =
      ⟨Dotted.extend parent name, entry.isBranch⟩ :: rest.items parent := by
  simp [items, entries_cons]

theorem offspring_cons :
    (cons name entry rest).offspring parent =
      match entry with
      | .leaf => rest.offspring parent
      | .branch children => (Dotted.extend parent name, children) :: rest.offspring parent := by
  cases entry <;> rfl

theorem items_eq_level (parent : String) (tree : FieldTree) :
    tree.items parent = (tree.level 1).map (Place.item parent) := by
  induction tree using consInduction with
  | nil =>
      rfl
  | cons name entry rest _ ih =>
      rw [items_cons, level_one_cons, List.map_cons, ih]
      rfl

/-- The next level of a tree is what its offspring have at their own level. -/
theorem level_offspring (parent : String) (depth : Nat) (tree : FieldTree) :
    (tree.offspring parent).flatMap
        (fun waiting => (waiting.2.level (depth + 1)).map (Place.item waiting.1)) =
      (tree.level (depth + 2)).map (Place.item parent) := by
  induction tree using consInduction with
  | nil =>
      rfl
  | cons name entry rest _ ih =>
      rw [level_succ_cons, List.map_append, ← ih, offspring_cons]
      cases entry with
      | leaf =>
          rfl
      | branch children =>
          rw [List.flatMap_cons, List.map_map]
          rfl

theorem height_of_mem_offspring {waiting : String × FieldTree}
    (hmem : waiting ∈ tree.offspring parent) : waiting.2.height < tree.height := by
  induction tree using consInduction with
  | nil =>
      cases hmem
  | cons name entry rest _ ih =>
      rw [height_cons]
      rw [offspring_cons] at hmem
      cases entry with
      | leaf =>
          exact Nat.lt_of_lt_of_le (ih hmem) (Nat.le_max_right _ _)
      | branch children =>
          rcases List.mem_cons.1 hmem with rfl | hmem
          · exact Nat.lt_of_succ_le (Nat.le_max_left _ _)
          · exact Nat.lt_of_lt_of_le (ih hmem) (Nat.le_max_right _ _)

/-! ## The queue -/

/-- What stands at the front of a queue is listed first. What is below it goes behind the rest. -/
theorem listQueue_append (front later : List (String × FieldTree)) :
    listQueue (front ++ later) =
      front.flatMap (fun waiting => waiting.2.items waiting.1) ++
        listQueue (later ++ front.flatMap fun waiting => waiting.2.offspring waiting.1) := by
  induction front generalizing later with
  | nil =>
      simp
  | cons waiting front ih =>
      rcases waiting with ⟨parent, tree⟩
      rw [List.cons_append, listQueue, List.append_assoc, ih]
      simp only [List.flatMap_cons, List.append_assoc]

/-- One round through a queue lists its trees and leaves those below them. -/
theorem listQueue_eq_round (queue : List (String × FieldTree)) :
    listQueue queue =
      queue.flatMap (fun waiting => waiting.2.items waiting.1) ++
        listQueue (queue.flatMap fun waiting => waiting.2.offspring waiting.1) := by
  simpa using listQueue_append queue []

/-- A queue is listed level by level, all of its trees in step. -/
theorem listQueue_eq_levels {height : Nat} {queue : List (String × FieldTree)}
    (hheight : ∀ waiting ∈ queue, waiting.2.height ≤ height) :
    listQueue queue = (List.range height).flatMap fun depth =>
      queue.flatMap fun waiting => (waiting.2.level (depth + 1)).map (Place.item waiting.1) := by
  -- the induction is on the rounds: each one lists a level and makes all waiting trees lower by one
  induction height generalizing queue with
  | zero =>
      -- only empty trees are left, which list nothing and leave nothing behind
      have hnil : ∀ waiting ∈ queue, waiting.2 = nil := by
        intro waiting hmem
        exact eq_nil_of_height (Nat.le_zero.1 (hheight waiting hmem))
      have hitems : queue.flatMap (fun waiting => waiting.2.items waiting.1) = [] := by
        refine List.flatMap_eq_nil_iff.2 ?_
        intro waiting hmem
        simp [hnil waiting hmem, items, entries]
      have hoffspring : queue.flatMap (fun waiting => waiting.2.offspring waiting.1) = [] := by
        refine List.flatMap_eq_nil_iff.2 ?_
        intro waiting hmem
        simp [hnil waiting hmem, offspring]
      rw [listQueue_eq_round, hitems, hoffspring]
      simp [listQueue]
  | succ height ih =>
      have hbelow : ∀ waiting ∈ queue.flatMap (fun waiting => waiting.2.offspring waiting.1),
          waiting.2.height ≤ height := by
        intro waiting hmem
        rcases List.mem_flatMap.1 hmem with ⟨above, habove, hoffspring⟩
        have hlower := height_of_mem_offspring hoffspring
        have hupper := hheight above habove
        omega
      calc
        listQueue queue
            = queue.flatMap (fun waiting => waiting.2.items waiting.1) ++
                listQueue (queue.flatMap fun waiting => waiting.2.offspring waiting.1) :=
              listQueue_eq_round queue
        _ = queue.flatMap (fun waiting => (waiting.2.level 1).map (Place.item waiting.1)) ++
              (List.range height).flatMap fun depth => queue.flatMap fun waiting =>
                (waiting.2.level (depth + 2)).map (Place.item waiting.1) := by
              simp only [ih hbelow, List.flatMap_assoc, level_offspring, items_eq_level]
        _ = (List.range (height + 1)).flatMap fun depth => queue.flatMap fun waiting =>
              (waiting.2.level (depth + 1)).map (Place.item waiting.1) := by
              rw [List.range_succ_eq_map, List.flatMap_cons, List.flatMap_map]

/-- A tree is listed in level order. -/
theorem listing_eq_levelOrder (tree : FieldTree) :
    tree.listing = tree.levelOrder.map (Place.item "") := by
  have hheight : ∀ waiting ∈ [("", tree)], waiting.2.height ≤ tree.height := by
    simp
  rw [listing, listQueue_eq_levels hheight, levelOrder, List.map_flatMap]
  simp

/-! ## All places, each once -/

theorem mem_levelOrder_iff : place ∈ tree.levelOrder ↔ place ∈ tree.places := by
  constructor
  · intro hmem
    rcases List.mem_flatMap.1 hmem with ⟨depth, -, hlevel⟩
    exact (mem_level_iff.1 hlevel).1
  · intro hmem
    have hheight := length_le_height hmem
    have hlength := List.length_pos_iff.2 (path_ne_nil_of_mem_places hmem)
    refine List.mem_flatMap.2 ⟨place.path.length - 1, ?_, ?_⟩
    · rw [List.mem_range]
      omega
    · exact mem_level_iff.2 ⟨hmem, by omega⟩

theorem Distinct.nodup_places (h : tree.Distinct) : tree.places.Nodup := by
  induction tree using consInduction with
  | nil =>
      exact List.nodup_nil
  | cons name entry rest ihbelow ih =>
      rcases distinct_cons.1 h with ⟨hnew, hentry, hrest⟩
      -- no place of the rest begins with the name
      have hother : ∀ place ∈ rest.places, ∀ path, place.path ≠ name :: path := by
        intro place hmem path hpath
        rcases exists_name_of_mem_places hmem with ⟨first, below, hfirst, hname⟩
        rw [hpath] at hfirst
        cases hfirst
        exact hnew hname
      have hinjective : Function.Injective (Place.below name) := by
        intro left right hsame
        cases left
        cases right
        simpa [Place.below] using hsame
      have hbelow : ((childrenOf (some entry)).places.map (Place.below name)).Nodup := by
        refine List.Nodup.map hinjective ?_
        cases entry with
        | leaf => exact List.nodup_nil
        | branch children => exact ihbelow children rfl hentry
      rw [places_cons, List.cons_append, List.nodup_cons]
      constructor
      · intro hmem
        rcases List.mem_append.1 hmem with hmem | hmem
        · rcases List.mem_map.1 hmem with ⟨inner, hinner, hself⟩
          have hempty : inner.path = [] := by
            simpa [Place.below] using congrArg Place.path hself
          exact path_ne_nil_of_mem_places hinner hempty
        · exact hother _ hmem [] rfl
      · refine List.Nodup.append hbelow (ih hrest) ?_
        intro place hmem hinRest
        rcases List.mem_map.1 hmem with ⟨inner, -, rfl⟩
        exact hother _ hinRest inner.path rfl

theorem Distinct.nodup_levelOrder (h : tree.Distinct) : tree.levelOrder.Nodup := by
  refine List.nodup_flatMap.2 ⟨?_, ?_⟩
  · intro depth _
    exact h.nodup_places.filter _
  · -- a place has one length, so no place is on two levels
    refine List.nodup_range.pairwise_of_forall_ne ?_
    intro depth _ other _ hne place hmem hother
    have hdepth := (mem_level_iff.1 hmem).2
    have hotherDepth := (mem_level_iff.1 hother).2
    omega

end FieldTree
end Lookahead
