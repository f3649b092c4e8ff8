import Mathlib.Data.List.Basic
import Lookahead.Proofs.FieldTree.Levels

/-!
# FieldTree.Subtree — the places below a path

The places of the tree at the end of a path are those of the whole tree that go on behind the path,
seen from its end. They stand in the same order there, in the order of the tree as well as level by
level, and their written paths begin with the written path and a point.

* `Place.within?` — a place seen from the end of a path;
* `FieldTree.filterMap_places`, `FieldTree.filterMap_levelOrder` — the places of a subtree;
* `Dotted.rest?` — what is left of a written path behind another one;
* `Dotted.rest?_intercalate` — cutting off the text is cutting off the names.
-/

namespace Lookahead

namespace FieldTree

/-- A place behind a path, seen from the end of the path. -/
def Place.within? (path : List String) (place : Place) : Option Place :=
  match path.isPrefixOf? place.path with
  | some (name :: rest) => some ⟨name :: rest, place.isBranch⟩
  | _ => none

variable {name : String} {path : List String} {tree : FieldTree} {place inner : Place}

theorem Place.within?_eq_some_iff :
    place.within? path = some inner ↔
      place.path = path ++ inner.path ∧ inner.path ≠ [] ∧ place.isBranch = inner.isBranch := by
  unfold within?
  cases hrest : path.isPrefixOf? place.path with
  | none =>
      have hnone : ∀ rest, place.path ≠ path ++ rest := by
        intro rest heq
        simp [List.isPrefixOf?_eq_some_iff_append_eq.2 heq.symm] at hrest
      simp [hnone]
  | some rest =>
      have hpath := List.isPrefixOf?_eq_some_iff_append_eq.1 hrest
      rcases inner with ⟨innerPath, kind⟩
      cases rest with
      | nil =>
          have hend : place.path = path ++ innerPath → innerPath = [] := by
            intro h
            simpa [h] using hpath
          simpa using fun h hne => absurd (hend h) hne
      | cons name rest =>
          simp only [← hpath, Option.some.injEq, Place.mk.injEq, List.append_cancel_left_eq]
          constructor
          · rintro ⟨rfl, hkind⟩
            exact ⟨rfl, by simp, hkind⟩
          · rintro ⟨hinner, -, hkind⟩
            exact ⟨hinner, hkind⟩

/-- Where a place goes on behind a path of several names, it goes on behind the first one. -/
theorem Place.within?_cons (name : String) (path : List String) (place : Place) :
    place.within? (name :: path) = (place.within? [name]).bind (Place.within? path) := by
  apply Option.ext
  intro inner
  simp only [Option.bind_eq_some_iff, within?_eq_some_iff]
  constructor
  · rintro ⟨hpath, hinner, hkind⟩
    exact ⟨⟨path ++ inner.path, place.isBranch⟩, ⟨by simpa using hpath, by simp [hinner], rfl⟩, rfl,
      hinner, hkind⟩
  · rintro ⟨middle, ⟨hpath, -, hmiddle⟩, hrest, hinner, hkind⟩
    exact ⟨by simp [hpath, hrest], hinner, hmiddle.trans hkind⟩

theorem Place.within?_below (name : String) (hinner : inner.path ≠ []) :
    (inner.below name).within? [name] = some inner :=
  within?_eq_some_iff.2 ⟨rfl, hinner, rfl⟩

theorem Place.within?_eq_none_of_head (h : ∀ rest, place.path = name :: rest → rest = []) :
    place.within? [name] = none := by
  refine Option.eq_none_iff_forall_ne_some.2 ?_
  intro inner hinner
  rcases within?_eq_some_iff.1 hinner with ⟨hpath, hne, -⟩
  exact hne (h _ hpath)

/-! ## Places of a subtree -/

/-- No place goes on behind a name that the tree does not have. -/
theorem filterMap_places_of_not_mem (h : name ∉ tree.names) :
    tree.places.filterMap (Place.within? [name]) = [] := by
  refine List.filterMap_eq_nil_iff.2 ?_
  intro place hmem
  rcases exists_name_of_mem_places hmem with ⟨first, below, hpath, hfirst⟩
  refine Place.within?_eq_none_of_head ?_
  intro rest hrest
  have hname : first = name := by
    simp [hpath] at hrest
    exact hrest.1
  exact absurd (hname ▸ hfirst) h

/-- The places behind a name are those of the tree below its entry. -/
theorem filterMap_places_name (hd : tree.Distinct) (name : String) :
    tree.places.filterMap (Place.within? [name]) = (childrenOf (tree.find? name)).places := by
  induction tree using consInduction with
  | nil =>
      rfl
  | cons n entry rest _ ih =>
      rcases distinct_cons.1 hd with ⟨hnew, -, hrest⟩
      have hfirst : Place.within? [name] ⟨[n], entry.isBranch⟩ = none := by
        refine Place.within?_eq_none_of_head ?_
        intro path hpath
        simp at hpath
        exact hpath.2
      by_cases hn : n = name
      · -- the places below the first entry are left, and there are none behind it
        subst hn
        have hbelow : ((childrenOf (some entry)).places.map (Place.below n)).filterMap
            (Place.within? [n]) = (childrenOf (some entry)).places := by
          have hsame : ∀ inner ∈ (childrenOf (some entry)).places,
              (Place.within? [n] ∘ Place.below n) inner = some inner := by
            intro inner hmem
            exact Place.within?_below n (path_ne_nil_of_mem_places hmem)
          simpa [List.filterMap_map] using List.filterMap_congr hsame
        simp [places_cons, hfirst, hbelow, filterMap_places_of_not_mem hnew]
      · have hbelow : ((childrenOf (some entry)).places.map (Place.below n)).filterMap
            (Place.within? [name]) = [] := by
          refine List.filterMap_eq_nil_iff.2 ?_
          intro place hmem
          rcases List.mem_map.1 hmem with ⟨inner, -, rfl⟩
          refine Place.within?_eq_none_of_head ?_
          intro path hpath
          simp [Place.below] at hpath
          exact absurd hpath.1 hn
        simp [places_cons, hfirst, hbelow, hn, ih hrest]

theorem filterMap_places (hd : tree.Distinct) (path : List String) :
    tree.places.filterMap (Place.within? path) = (tree.descend path).places := by
  induction path generalizing tree with
  | nil =>
      have hsame : ∀ place ∈ tree.places, Place.within? [] place = some place := by
        intro place hmem
        exact Place.within?_eq_some_iff.2 ⟨rfl, path_ne_nil_of_mem_places hmem, rfl⟩
      simpa [descend] using List.filterMap_congr hsame
  | cons name path ih =>
      have hbelow : (childrenOf (tree.find? name)).Distinct := by
        have hchildren := hd.descend [name]
        rwa [descend_cons] at hchildren
      calc
        tree.places.filterMap (Place.within? (name :: path))
            = (tree.places.filterMap (Place.within? [name])).filterMap (Place.within? path) := by
              simp only [List.filterMap_filterMap, ← Place.within?_cons]
        _ = (childrenOf (tree.find? name)).places.filterMap (Place.within? path) := by
              rw [filterMap_places_name hd name]
        _ = (tree.descend (name :: path)).places := by
              rw [ih hbelow, descend_cons]

/-! ## Levels of a subtree -/

/-- What is kept may be chosen among the places of the tree or among those of the subtree. -/
theorem filterMap_within?_filter {keeps keepsInner : Place → Bool}
    (h : ∀ place inner, Place.within? path place = some inner → keeps place = keepsInner inner)
    (places : List Place) :
    (places.filter keeps).filterMap (Place.within? path) =
      (places.filterMap (Place.within? path)).filter keepsInner := by
  simp only [List.filterMap_filter, List.filter_filterMap]
  refine List.filterMap_congr ?_
  intro place _
  cases hinner : place.within? path with
  | none => simp
  | some inner => simp [h place inner hinner, Option.filter]

/-- A level of a subtree is a level of the whole tree, further down by the length of the path. -/
theorem filterMap_level (hd : tree.Distinct) (path : List String) (depth : Nat) :
    (tree.level (path.length + depth)).filterMap (Place.within? path) =
      (tree.descend path).level depth := by
  unfold level
  rw [← filterMap_places hd path]
  refine filterMap_within?_filter ?_ tree.places
  intro place inner hinner
  have hpath := (Place.within?_eq_some_iff.1 hinner).1
  simp [hpath]

/-- The places on the way to a path do not go on behind it. -/
theorem filterMap_level_of_le {depth : Nat} (hdepth : depth ≤ path.length) (tree : FieldTree) :
    (tree.level depth).filterMap (Place.within? path) = [] := by
  refine List.filterMap_eq_nil_iff.2 ?_
  intro place hmem
  refine Option.eq_none_iff_forall_ne_some.2 ?_
  intro inner hinner
  rcases Place.within?_eq_some_iff.1 hinner with ⟨hpath, hne, -⟩
  have hlength := (mem_level_iff.1 hmem).2
  have hpositive := List.length_pos_iff.2 hne
  simp only [hpath, List.length_append] at hlength
  omega

theorem level_eq_nil_of_height_lt {depth : Nat} (h : tree.height < depth) :
    tree.level depth = [] := by
  refine List.eq_nil_iff_forall_not_mem.2 ?_
  intro place hmem
  rcases mem_level_iff.1 hmem with ⟨hplace, hlength⟩
  have hheight := length_le_height hplace
  omega

/-- The level order may be said with more levels than there are. -/
theorem levelOrder_eq_of_height_le {height : Nat} (h : tree.height ≤ height) :
    tree.levelOrder = (List.range height).flatMap fun depth => tree.level (depth + 1) := by
  obtain ⟨more, rfl⟩ : ∃ more, height = tree.height + more := ⟨height - tree.height, by omega⟩
  have hempty : ((List.range more).map (tree.height + ·)).flatMap
      (fun depth => tree.level (depth + 1)) = [] := by
    refine List.flatMap_eq_nil_iff.2 ?_
    intro depth hmem
    rcases List.mem_map.1 hmem with ⟨further, -, rfl⟩
    exact level_eq_nil_of_height_lt (by omega)
  rw [List.range_add, List.flatMap_append, hempty, List.append_nil]
  rfl

theorem height_descend_le (path : List String) (tree : FieldTree) :
    (tree.descend path).height ≤ tree.height := by
  have hname : ∀ name (tree : FieldTree), (childrenOf (tree.find? name)).height ≤ tree.height := by
    intro name tree
    induction tree using consInduction with
    | nil =>
        exact Nat.le_refl 0
    | cons n entry rest _ ih =>
        rw [height_cons, find?_cons]
        split
        · omega
        · exact Nat.le_trans ih (Nat.le_max_right _ _)
  induction path generalizing tree with
  | nil =>
      exact Nat.le_refl _
  | cons name path ih =>
      rw [descend_cons]
      exact Nat.le_trans (ih _) (hname name tree)

/-- The places of a subtree in level order are those of the tree that go on behind the path. -/
theorem filterMap_levelOrder (hd : tree.Distinct) (path : List String) :
    tree.levelOrder.filterMap (Place.within? path) = (tree.descend path).levelOrder := by
  have hbound : tree.height ≤ path.length + tree.height := Nat.le_add_left _ _
  -- on the levels the path itself leads through nothing is left, and below them stands the subtree
  have hway : (List.range path.length).flatMap
      (fun depth => (tree.level (depth + 1)).filterMap (Place.within? path)) = [] := by
    refine List.flatMap_eq_nil_iff.2 ?_
    intro depth hmem
    exact filterMap_level_of_le (List.mem_range.1 hmem) tree
  calc
    tree.levelOrder.filterMap (Place.within? path)
        = (List.range (path.length + tree.height)).flatMap
            (fun depth => (tree.level (depth + 1)).filterMap (Place.within? path)) := by
          rw [levelOrder_eq_of_height_le hbound, List.filterMap_flatMap]
    _ = (List.range tree.height).flatMap
            (fun depth => (tree.level (path.length + (depth + 1))).filterMap
              (Place.within? path)) := by
          rw [List.range_add, List.flatMap_append, hway, List.nil_append, List.flatMap_map]
          rfl
    _ = (List.range tree.height).flatMap fun depth => (tree.descend path).level (depth + 1) := by
          simp only [filterMap_level hd]
    _ = (tree.descend path).levelOrder :=
          (levelOrder_eq_of_height_le (height_descend_le path tree)).symm

end FieldTree

/-! ## Written paths -/

namespace Dotted

/-- What is left of a written path behind another one and a point. -/
def rest? (parent path : String) : Option String :=
  ((parent ++ ".").toList.isPrefixOf? path.toList).map String.ofList

variable {parent rest : String} {path : List String}

theorem rest?_eq_some_iff {written : String} :
    rest? parent written = some rest ↔ written = parent ++ "." ++ rest := by
  constructor
  · intro h
    rcases Option.map_eq_some_iff.1 h with ⟨chars, hchars, rfl⟩
    have hwritten := List.isPrefixOf?_eq_some_iff_append_eq.1 hchars
    apply String.ext
    simpa [String.toList_append] using hwritten.symm
  · rintro rfl
    simp [rest?]

/-- If the names can be written, a path that begins with a text and a point has the segments of the
text for its first names, and goes on behind them. -/
theorem rest?_intercalate (hpath : path ≠ []) (hplain : ∀ name ∈ path, Plain name) :
    rest? parent (".".intercalate path) = some rest ↔
      ∃ inner, inner ≠ [] ∧ path = segments parent ++ inner ∧ rest = ".".intercalate inner := by
  rw [rest?_eq_some_iff]
  constructor
  · intro h
    refine ⟨segments rest, segments_ne_nil rest, ?_, (intercalate_segments rest).symm⟩
    calc
      path = segments (".".intercalate path) := (segments_intercalate hpath hplain).symm
      _ = segments parent ++ segments rest := by rw [h, segments_append_point]
  · rintro ⟨inner, hinner, rfl, rfl⟩
    have hinnerPlain : ∀ name ∈ inner, Plain name := by
      intro name hmem
      exact hplain name (List.mem_append_right _ hmem)
    have hsegments : segments (parent ++ "." ++ ".".intercalate inner) =
        segments parent ++ inner := by
      rw [segments_append_point, segments_intercalate hinner hinnerPlain]
    rw [← hsegments, intercalate_segments]

end Dotted

/-- Behind a written path, a place is written as it is seen from the end of the path. -/
theorem FieldTree.rest?_place {place : Place} {parent : String} (hpath : place.path ≠ [])
    (hplain : ∀ name ∈ place.path, Dotted.Plain name) :
    Dotted.rest? parent (".".intercalate place.path) =
      (place.within? (Dotted.segments parent)).map fun inner => ".".intercalate inner.path := by
  apply Option.ext
  intro rest
  simp only [Dotted.rest?_intercalate hpath hplain, Option.map_eq_some_iff,
    Place.within?_eq_some_iff]
  constructor
  · rintro ⟨inner, hinner, hrest, rfl⟩
    exact ⟨⟨inner, place.isBranch⟩, ⟨hrest, hinner, rfl⟩, rfl⟩
  · rintro ⟨inner, ⟨hrest, hinner, -⟩, rfl⟩
    exact ⟨inner.path, hinner, hrest, rfl⟩

end Lookahead
