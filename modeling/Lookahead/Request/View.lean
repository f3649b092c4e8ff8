import Lookahead.Exclusion.Pattern
import Lookahead.FieldTree.Listing
import Lookahead.FieldTree.Union
import Lookahead.Request.Info
import Lookahead.Request.Options

/-!
# Request.View — the requested fields as a tree, as names, as paths

Four views of what is requested below the field being resolved:

* `requestedTree` — the tree of the fields, or its branch at the wanted path;
* `requestedNames` — the names of the fields directly below, renamed;
* `projection` — the dotted paths of all leaves, renamed, and of the branches if they are
  wanted, each path once, level by level;
* `requestedPaths` — the set of the paths of all fields, as a sorted list.
-/

namespace Lookahead

/-- What holds for all requests. -/
structure Settings where
  /-- The setting of the time limit on matches, as text. -/
  matchTimeout : Option String := none
  /-- How many levels deep a walk may go. -/
  nestingLimit : Nat := 400
  /-- What searches names for patterns. -/
  engine : Engine := .standard

/-- The limit on matches with the engine that keeps to it. -/
def Settings.timeout (settings : Settings) : Timeout where
  setting := .ofText settings.matchTimeout
  engine := settings.engine

namespace ResolverInfo

/-- The union of what the nodes ask for, walked one after the other. -/
def collectNodes (context : Context) (limit : Nat) (rule : Rule) (nodes : List Selection) :
    Run FieldTree :=
  nodes.foldlM (fun tree node => do
    let added ← collect context limit rule node.selections
    return tree.union added) .nil

/-- The tree of the requested fields. -/
def requestedTree (settings : Settings) (info : ResolverInfo) (options : Value) :
    Run FieldTree := do
  Run.report info.notices
  if info.resolvedNodes.isEmpty then return .nil
  else
    let options ← Run.ofExcept (Options.ofValue options)
    let patterns ← Run.ofExcept (Pattern.ofValue options.skip)
    let context := info.context settings.timeout options.withDirectives.truthy
    let rule := Rule.within (Pattern.scope patterns)
    let tree ← collectNodes context settings.nestingLimit rule info.resolvedNodes
    Run.ofExcept (tree.branchAt options.path)

/-- The names directly below the field. -/
def requestedNames (settings : Settings) (info : ResolverInfo) (options : Value) :
    Run (List Value) := do
  let parsed ← Run.ofExcept (Options.ofValue options)
  let tree ← info.requestedTree settings options
  Run.ofExcept (tree.names.mapM parsed.transform.label)

end ResolverInfo

/-! ## Projections -/

namespace Projection

/-- Adds a label, unless the same label is there. -/
def insert (labels : List Value) (label : Value) : List Value :=
  if labels.any label.sameLabel then labels else labels ++ [label]

/-- Adds what a listed entry contributes: a leaf its label, a branch its path if it is wanted. -/
def add (options : Options) (labels : List Value) (item : FieldTree.Item) :
    Except Failure (List Value) :=
  if item.isBranch then
    .ok (if options.keepParentField.truthy then insert labels (.text item.path) else labels)
  else do
    let label ← options.transform.label item.path
    if label.canLabel then .ok (insert labels label) else .error .labelNotPlain

end Projection

namespace ResolverInfo

/-- The labels of the requested fields at all levels. -/
def projection (settings : Settings) (info : ResolverInfo) (options : Value) :
    Run (List Value) := do
  let parsed ← Run.ofExcept (Options.ofValue options)
  let tree ← info.requestedTree settings options
  Run.ofExcept (tree.listing.foldlM (Projection.add parsed) [])

/-- Options under which a projection holds every path. -/
def everyPath : Value :=
  .object [(Options.keepParentFieldKey, .bool true)]

/-- All requested paths in the order of their characters. -/
def requestedPaths (settings : Settings) (info : ResolverInfo) : Run (List String) := do
  let labels ← info.projection settings everyPath
  return (labels.filterMap Value.text?).mergeSort

end ResolverInfo

end Lookahead
