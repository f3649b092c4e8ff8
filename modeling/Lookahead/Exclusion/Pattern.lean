import Lookahead.Exclusion.Scope
import Lookahead.Failure
import Lookahead.Text.Dotted
import Lookahead.Value

/-!
# Pattern — exclusions as a caller writes them

A pattern is the dotted path of a field that is not wanted. Its segments may hold stars, which
stand for any characters; how they match is a matter of looking fields up. A path that ends in a
lone star excludes all that is below its parent, which is the same as excluding the parent.

Patterns arrive as loosely typed data. What is absent among them is passed over.
-/

namespace Lookahead
namespace Pattern

/-- The keys a pattern excludes the end of. -/
def path (pattern : String) : List String :=
  let segments := Dotted.segments pattern
  if 1 < segments.length ∧ segments.getLast? = some "*" then segments.dropLast else segments

/-- Adds one pattern to a scope; the empty pattern adds nothing. -/
def addTo (scope : Scope) (pattern : String) : Scope :=
  if pattern = "" then scope else scope.excludeAt (path pattern)

/-- The scope of a list of patterns. -/
def scope (patterns : List String) : Scope :=
  patterns.foldl addTo .nil

/-! ## Reading patterns -/

/-- A member of a list of patterns, as the patterns it stands for. -/
def ofItem (item : Value) : Except Failure (List String) :=
  match item with
  | .text pattern => .ok [pattern]
  | _ => if item.truthy then .error .patternNotText else .ok []

def ofItems : List Value → Except Failure (List String)
  | [] => .ok []
  | item :: items => do
      let pattern ← ofItem item
      let patterns ← ofItems items
      return pattern ++ patterns

/-- The patterns in a value: the items of a list, the keys of a record or the characters of a
text. -/
def ofValue : Value → Except Failure (List String)
  | .array items => ofItems items
  | .object fields => .ok (fields.map Prod.fst)
  | .text value => .ok (value.toList.map String.singleton)
  | _ => .error .patternsNotListed

theorem path_ne_nil (pattern : String) : path pattern ≠ [] := by
  simp only [path]
  split
  · next h =>
      intro hnil
      have hlength := congrArg List.length hnil
      simp only [List.length_dropLast, List.length_nil] at hlength
      omega
  · exact Dotted.segments_ne_nil pattern

@[simp]
theorem scope_nil : scope [] = .nil := rfl

theorem scope_append (patterns more : List String) :
    scope (patterns ++ more) = more.foldl addTo (scope patterns) := by
  simp [scope, List.foldl_append]

end Pattern
end Lookahead
