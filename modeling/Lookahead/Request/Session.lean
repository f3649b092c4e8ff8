import Lookahead.Request.View

/-!
# Request.Session — several questions about one field

Requests are independent of each other. All that goes from one step of a session to the next is
the setting of the time limit, which a step may change.
-/

namespace Lookahead

/-- A question about the requested fields. -/
inductive Query
  | tree (options : Value)
  | names (options : Value)
  | projection (options : Value)
  | paths

inductive Answer
  | tree (tree : FieldTree)
  | names (labels : List Value)
  | projection (labels : List Value)
  | paths (paths : List String)
  /-- The answer to a change of the settings. -/
  | done

def Query.answer (settings : Settings) (info : ResolverInfo) : Query → Run Answer
  | tree options => Answer.tree <$> info.requestedTree settings options
  | names options => Answer.names <$> info.requestedNames settings options
  | projection options => Answer.projection <$> info.projection settings options
  | paths => Answer.paths <$> info.requestedPaths settings

namespace Session

inductive Step
  | ask (query : Query)
  | setTimeout (setting : Option String)

/-- The runs of all steps. A step that fails does not end the session. -/
def runs (info : ResolverInfo) (settings : Settings) : List Step → List (Run Answer)
  | [] => []
  | .ask query :: steps => query.answer settings info :: runs info settings steps
  | .setTimeout setting :: steps =>
      pure .done :: runs info { settings with matchTimeout := setting } steps

end Session

end Lookahead
