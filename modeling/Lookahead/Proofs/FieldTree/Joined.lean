import Lookahead.Proofs.FieldTree.Listing
import Lookahead.Proofs.FieldTree.Places

/-!
# FieldTree.Joined — paths of names and how they are written

A path of names is written with points between its names, and read by cutting at every point.
As long as no name is empty or has a point in it, nothing is lost: the names come back one by one,
and the written path leads to where the names led.

* `Dotted.segments_intercalate` — cutting a written path gives its names back;
* `FieldTree.dotted_eq_intercalate` — writing a path step by step is writing it at once;
* `FieldTree.PlainNames` — the names of a tree can be written in paths;
* `FieldTree.subtree_intercalate` — a written path leads below the entry it stands for.
-/

namespace Lookahead

namespace Dotted

/-- A name that can be a segment of a written path. -/
def Plain (name : String) : Prop :=
  name ≠ "" ∧ '.' ∉ name.toList

instance : DecidablePred Plain :=
  fun name => inferInstanceAs (Decidable (name ≠ "" ∧ '.' ∉ name.toList))

theorem segments_intercalate {path : List String} (hpath : path ≠ [])
    (hplain : ∀ name ∈ path, Plain name) : segments (".".intercalate path) = path := by
  have hchars : (".".intercalate path).toList = ['.'].intercalate (path.map String.toList) :=
    String.toList_intercalate
  have hpieces : Text.pieces '.' (['.'].intercalate (path.map String.toList)) =
      path.map String.toList := by
    refine Text.pieces_intercalate _ (by simpa using hpath) ?_
    intro piece hmem
    rcases List.mem_map.1 hmem with ⟨name, hname, rfl⟩
    exact (hplain name hname).2
  have hback : String.ofList ∘ String.toList = id := by
    funext name
    exact String.ofList_toList
  rw [segments, hchars, hpieces, List.map_map, hback, List.map_id]

/-- Different paths are written differently. -/
theorem intercalate_injective {path other : List String} (hpath : path ≠ []) (hother : other ≠ [])
    (hplain : ∀ name ∈ path, Plain name) (hotherPlain : ∀ name ∈ other, Plain name)
    (h : ".".intercalate path = ".".intercalate other) : path = other := by
  calc
    path = segments (".".intercalate path) := (segments_intercalate hpath hplain).symm
    _ = segments (".".intercalate other) := by rw [h]
    _ = other := segments_intercalate hother hotherPlain

theorem intercalate_ne_empty {path : List String} (hpath : path ≠ [])
    (hplain : ∀ name ∈ path, Plain name) : ".".intercalate path ≠ "" := by
  intro hempty
  have hsegments := segments_intercalate hpath hplain
  -- the empty text is cut into one empty segment, which is no plain name
  have hcut : segments "" = [""] := rfl
  rw [hempty, hcut] at hsegments
  have hmem : "" ∈ path := by simp [← hsegments]
  exact (hplain "" hmem).1 rfl

end Dotted

namespace FieldTree

open Dotted (Plain)

/-! ## Writing step by step -/

theorem dotted_of_ne_empty {parent : String} (hparent : parent ≠ "") (path : List String) :
    dotted parent path = ".".intercalate (parent :: path) := by
  induction path generalizing parent with
  | nil =>
      simp [dotted]
  | cons name path ih =>
      have hextend : Dotted.extend parent name = parent ++ "." ++ name := by
        simp [Dotted.extend, hparent]
      have hne : Dotted.extend parent name ≠ "" := by
        simp [hextend]
      calc
        dotted parent (name :: path)
            = dotted (Dotted.extend parent name) path := rfl
        _ = ".".intercalate (Dotted.extend parent name :: path) := ih hne
        _ = ".".intercalate (parent :: name :: path) := by
              rw [hextend, String.intercalate_cons_append, String.intercalate_cons_cons]

/-- A path whose first name is not empty is written with points between its names. -/
theorem dotted_eq_intercalate {path : List String} (hplain : ∀ name ∈ path, Plain name) :
    dotted "" path = ".".intercalate path := by
  cases path with
  | nil =>
      simp [dotted]
  | cons name path =>
      have hname : name ≠ "" := (hplain name List.mem_cons_self).1
      calc
        dotted "" (name :: path) = dotted (Dotted.extend "" name) path := rfl
        _ = dotted name path := by rw [Dotted.extend_empty]
        _ = ".".intercalate (name :: path) := dotted_of_ne_empty hname path

/-! ## Trees whose names can be written -/

/-- All names of a tree, at every level, can be segments of written paths. -/
def PlainNames (tree : FieldTree) : Prop :=
  tree.Everywhere fun name _ => Plain name

instance : DecidablePred PlainNames :=
  fun tree => inferInstanceAs (Decidable (tree.Everywhere fun name _ => Plain name))

variable {entry : Entry} {tree : FieldTree} {path : List String}

theorem PlainNames.of_get? (h : tree.PlainNames) (hget : tree.get? path = some entry) :
    ∀ name ∈ path, Plain name := by
  intro name hmem
  rcases (Everywhere.of_get? h hget).1 name hmem with ⟨_, hplain⟩
  exact hplain

theorem PlainNames.of_mem_places (h : tree.PlainNames) (hd : tree.Distinct) {place : Place}
    (hmem : place ∈ tree.places) : ∀ name ∈ place.path, Plain name := by
  rcases get?_of_mem_places hd hmem with ⟨entry, hget, -⟩
  exact h.of_get? hget

/-- The written path of an entry leads to the fields below it, of which a leaf has none. -/
theorem subtree_intercalate (h : tree.PlainNames) (hget : tree.get? path = some entry) :
    tree.subtree (".".intercalate path) = childrenOf (some entry) := by
  have hpath : path ≠ [] := path_ne_nil_of_get? hget
  have hplain := h.of_get? hget
  have hne := Dotted.intercalate_ne_empty hpath hplain
  calc
    tree.subtree (".".intercalate path)
        = tree.descend (Dotted.segments (".".intercalate path)) := by simp [subtree, hne]
    _ = tree.descend path := by rw [Dotted.segments_intercalate hpath hplain]
    _ = childrenOf (tree.get? path) := descend_eq_childrenOf hpath tree
    _ = childrenOf (some entry) := by rw [hget]

end FieldTree

end Lookahead
