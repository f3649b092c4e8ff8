import Lookahead.Query.Walk

/-!
# Request.Info — the field being resolved

A resolver is told which field it resolves, the nodes of the query that ask for the field, and
the fragments and variables of the query. Older callers hand the nodes over under another name,
so `legacyNodes` takes the place of `fieldNodes` where those are missing.

Only nodes that name the field and have selections below them are of use. A request with nodes
of which none is of use is reported.
-/

namespace Lookahead

/-- What stands in the place of a list of nodes. -/
inductive NodeList
  | missing
  | malformed
  | listed (nodes : List Selection)

structure ResolverInfo where
  fieldName : Value
  fieldNodes : NodeList
  legacyNodes : NodeList
  fragments : FragmentTable
  variableValues : Value

namespace Selection

/-- Whether a node is a field of the given name with selections below it. -/
def resolves (fieldName : Value) : Selection → Bool
  | field (some name) _ selectionSet =>
      match fieldName with
      | .text wanted => name == wanted && !selectionSet.toList.isEmpty
      | _ => false
  | _ => false

end Selection

namespace ResolverInfo

/-- The nodes of a request, if there is a list of them. -/
def nodes? (info : ResolverInfo) : Option (List Selection) :=
  match info.fieldNodes with
  | .listed nodes => some nodes
  | .malformed => none
  | .missing =>
      match info.legacyNodes with
      | .listed nodes => some nodes
      | _ => none

def nodes (info : ResolverInfo) : List Selection :=
  info.nodes?.getD []

/-- The nodes that are of use. -/
def resolvedNodes (info : ResolverInfo) : List Selection :=
  info.nodes.filter (Selection.resolves info.fieldName)

/-- The places, among all nodes, of those that are of use. -/
def resolvedPlaces (info : ResolverInfo) : List Nat :=
  (info.nodes.zipIdx.filter fun place => place.1.resolves info.fieldName).map Prod.snd

/-- A list of nodes without one that is of use. -/
def notices (info : ResolverInfo) : List Notice :=
  if info.nodes.isEmpty || !info.resolvedNodes.isEmpty then []
  else [.noFieldNode info.fieldName]

/-- The context of the walk below the field. -/
def context (info : ResolverInfo) (timeout : Timeout) (withDirectives : Bool) : Context where
  fragments := info.fragments.orEmpty
  variableValues := info.variableValues.orElse (.object [])
  withDirectives := withDirectives
  timeout := timeout

end ResolverInfo

end Lookahead
