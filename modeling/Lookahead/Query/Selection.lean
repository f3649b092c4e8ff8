import Lookahead.Query.Directive

/-!
# Selection — what a query asks for

A selection is a field, a fragment written in place, or the spread of a fragment defined
elsewhere. Fields carry selections of their own, in a selection set. Of a field only its name in
the schema matters, not the name the answer gives to it, and a fragment applies whatever type it
is written for.

Where a query was not validated, any other node or even a plain value may stand among the
selections. `Selection.selections` is the one way to what is below a node: there is nothing
below a node without a proper selection set.
-/

namespace Lookahead

mutual

inductive Selection
  | field (name : Option String) (directives : Directives) (selectionSet : SelectionSet)
  | inlineFragment (directives : Directives) (selectionSet : SelectionSet)
  | spread (name : Option String) (directives : Directives)
  /-- A node of another kind, such as the definition of a fragment. -/
  | other (directives : Directives) (selectionSet : SelectionSet)
  /-- A plain value where a node is expected. -/
  | value (value : Value)

inductive SelectionSet
  | missing
  | malformed (value : Value)
  | listed (selections : List Selection)

end

namespace SelectionSet

def toList : SelectionSet → List Selection
  | missing => []
  | malformed _ => []
  | listed selections => selections

end SelectionSet

namespace Selection

/-- The selections below a node. -/
def selections : Selection → List Selection
  | field _ _ selectionSet => selectionSet.toList
  | inlineFragment _ selectionSet => selectionSet.toList
  | spread _ _ => []
  | other _ selectionSet => selectionSet.toList
  | value _ => []

def directives : Selection → Directives
  | field _ directives _ => directives
  | inlineFragment directives _ => directives
  | spread _ directives => directives
  | other directives _ => directives
  | value _ => .missing

end Selection

/-! ## Fragments -/

/-- What a fragment's name stands for. -/
inductive Fragment
  | definition (selectionSet : SelectionSet)
  | malformed (value : Value)

namespace Fragment

def selections : Fragment → List Selection
  | definition selectionSet => selectionSet.toList
  | malformed _ => []

end Fragment

/-- The fragments of a document by name; a name may stand for nothing. -/
inductive FragmentTable
  | table (entries : List (String × Option Fragment))
  | malformed (value : Value)

namespace FragmentTable

/-- The fragment under the first entry with a name. -/
def find (name : String) : List (String × Option Fragment) → Option Fragment
  | [] => none
  | (n, fragment) :: entries => if n = name then fragment else find name entries

/-- The fragment of a name. A record of plain values is a table whose fragments have no
selections. -/
def lookup (name : String) : FragmentTable → Except Failure (Option Fragment)
  | table entries => .ok (find name entries)
  | malformed (.object fields) =>
      match Value.lookup name fields with
      | none => .ok none
      | some .null => .ok none
      | some value => .ok (some (.malformed value))
  | malformed _ => .error .fragmentsNotTable

/-- The table itself, or the empty one if it is absent. -/
def orEmpty : FragmentTable → FragmentTable
  | table entries => table entries
  | malformed value => if value.truthy then malformed value else table []

end FragmentTable

end Lookahead
