import Lookahead.Text.Pieces

/-!
# Dotted — paths written with points

A path through nested fields is written as its names with a point between neighbours. Reading
cuts at every point, so `"a..b"` has an empty segment in the middle and the empty text is one
empty segment.
-/

namespace Lookahead
namespace Dotted

/-- The names along a dotted path. -/
def segments (path : String) : List String :=
  (Text.pieces '.' path.toList).map String.ofList

/-- The path of `child` below `parent`; nothing is written for an empty parent. -/
def extend (parent child : String) : String :=
  if parent = "" then child else parent ++ "." ++ child

/-! ## Laws -/

theorem segments_ne_nil (path : String) : segments path ≠ [] := by
  simp [segments, Text.pieces_ne_nil]

@[simp]
theorem extend_empty (child : String) : extend "" child = child := by
  simp [extend]

/-- A path is written with points between its segments. -/
theorem intercalate_segments (path : String) : ".".intercalate (segments path) = path := by
  have hback : String.toList ∘ String.ofList = id := by
    funext chars
    exact String.toList_ofList
  apply String.ext
  calc
    (".".intercalate (segments path)).toList
        = ['.'].intercalate ((segments path).map String.toList) := String.toList_intercalate
    _ = ['.'].intercalate (Text.pieces '.' path.toList) := by
          simp [segments, hback]
    _ = path.toList := Text.intercalate_pieces path.toList

/-- A point between two paths puts their segments in a row. -/
theorem segments_append_point (front back : String) :
    segments (front ++ "." ++ back) = segments front ++ segments back := by
  have hpoint : (front ++ "." ++ back).toList = front.toList ++ '.' :: back.toList := by
    simp [String.toList_append]
  simp [segments, hpoint, Text.pieces_append_sep]

end Dotted
end Lookahead
