import Lookahead.Value

/-!
# Notice — what is reported beside an answer

A notice changes no answer. It tells an operator about a request that asks for less than it
seems to, about a setting that is ignored, or about a pattern that could not be tried in time.
-/

namespace Lookahead

inductive Notice
  /-- None of the given field nodes is the resolved field with selections below it. -/
  | noFieldNode (fieldName : Value)
  /-- A spread names a fragment the document does not define. -/
  | undefinedFragment (name : String)
  /-- The setting of the time limit is no numeral. -/
  | unreadableTimeout (setting : String)
  /-- A match was given up when the time was over. -/
  | matchTimedOut (pattern name : String)

namespace Notice

inductive Level
  | debug
  | warning
  | error
  deriving DecidableEq, Repr

def level : Notice → Level
  | noFieldNode _ => .debug
  | undefinedFragment _ => .debug
  | unreadableTimeout _ => .warning
  | matchTimedOut _ _ => .error

def message : Notice → String
  | noFieldNode _ => "No field node with a selection set found for field"
  | undefinedFragment _ => "Fragment is not defined, ignoring its spread"
  | unreadableTimeout _ => "Invalid wildcard match timeout, using the default"
  | matchTimedOut _ _ => "Regex Timeout Error matching skip pattern"

end Notice

end Lookahead
