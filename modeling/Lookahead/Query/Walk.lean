import Lookahead.Exclusion.Lookup
import Lookahead.FieldTree.Absorb
import Lookahead.Query.Selection

/-!
# Walk — the field tree of a list of selections

The walk goes through the selections from left to right and puts what each one asks for into one
tree:

* a selection that its directives leave out asks for nothing;
* a fragment, written in place or spread, asks for what its selections ask for;
* a field that is excluded asks for nothing, and any other field asks for itself: as a leaf if it
  has no selections, else as a branch with what they ask for.

A spread may lead back to the fragment it stands in. The walk does not watch for that; it goes
down a limited number of levels and fails below them. Levels are counted by lists of selections
being walked, one inside the other.
-/

namespace Lookahead

/-- What a walk depends on besides the selections. -/
structure Context where
  fragments : FragmentTable
  variableValues : Value
  /-- Whether directives are evaluated. -/
  withDirectives : Bool
  timeout : Timeout

namespace Context

/-- Whether the directives of a selection let it stay. -/
def admits (context : Context) (selection : Selection) : Except Failure Bool :=
  if context.withDirectives then selection.directives.permit context.variableValues else .ok true

end Context

namespace Selection

/-- What a selection that stays asks for, where `walk` is the walk through the selections below
it. -/
def wanted (context : Context) (walk : Rule → List Selection → Run FieldTree) (rule : Rule) :
    Selection → Run FieldTree
  | field none _ _ => Run.fail .namelessSelection
  | field (some name) _ selectionSet => do
      match ← rule.lookup context.timeout name with
      | .exclude => return .nil
      | inner =>
          if selectionSet.toList.isEmpty then return .leaf name .nil
          else
            let children ← walk inner selectionSet.toList
            return .branch name children .nil
  | inlineFragment _ selectionSet => walk rule selectionSet.toList
  | spread none _ => Run.fail .namelessSelection
  | spread (some name) _ => do
      match ← Run.ofExcept (context.fragments.lookup name) with
      | some fragment => walk rule fragment.selections
      | none =>
          Run.report [.undefinedFragment name]
          return .nil
  | other _ _ => pure .nil
  | value _ => pure .nil

/-- The tree with what a selection asks for, if it stays. -/
def collectInto (context : Context) (walk : Rule → List Selection → Run FieldTree) (rule : Rule)
    (tree : FieldTree) (selection : Selection) : Run FieldTree := do
  if ← Run.ofExcept (context.admits selection) then
    let added ← selection.wanted context walk rule
    return tree.absorb added
  else return tree

end Selection

/-- The fields that selections ask for below a field with a rule, at most `limit` levels deep. -/
def collect (context : Context) : (limit : Nat) → Rule → List Selection → Run FieldTree
  | 0, _, _ => Run.fail .nestingExceeded
  | limit + 1, rule, selections =>
      selections.foldlM (Selection.collectInto context (collect context limit) rule) .nil

end Lookahead
