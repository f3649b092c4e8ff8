import Lookahead.Failure
import Lookahead.Value

/-!
# Directive — conditions on a selection

A selection may carry directives. Two of them are conditions: `skip` leaves the selection out if
its argument is true, and `include` leaves it out if its argument is false. All others are of no
concern here, and neither are arguments that are neither a truth value nor a variable.

The directives of a query that nobody validated may be anything, so there is a place for
something else wherever a list, a directive or an argument is expected. Nobody asks what kind of
node stands among the directives: one of another kind is read like a directive, if it has a name.

Directives are read from left to right and reading ends at the first one that leaves the selection
out; what is wrong behind it goes unnoticed.
-/

namespace Lookahead

/-! ## Conditions -/

/-- The directives that leave a selection out. -/
inductive Condition
  | skipIf
  | includeIf
  deriving DecidableEq, Repr

namespace Condition

def ofName? : String → Option Condition
  | "skip" => some skipIf
  | "include" => some includeIf
  | _ => none

/-- Whether a selection with this condition on `value` is wanted. -/
def permits (value : Value) : Condition → Bool
  | skipIf => !value.truthy
  | includeIf => value.truthy

/-- Whether a selection is wanted that has the directive `name` with the argument `value`. -/
def namePermits (name : String) (value : Value) : Bool :=
  match ofName? name with
  | some condition => condition.permits value
  | none => true

end Condition

/-! ## Arguments -/

/-- The value of a member of a list of arguments. The names of arguments are of no concern. -/
inductive Argument
  /-- A truth value, which may be left open. -/
  | boolean (value : Option Bool)
  | ofVariable (name : String)
  | namelessVariable
  /-- A literal of any other kind. -/
  | literal
  /-- No value, or something that is no argument. -/
  | absent
  deriving DecidableEq, Repr

namespace Argument

/-- Whether the argument of the directive `name` lets a selection stay. -/
def permits (name : String) (variableValues : Value) : Argument → Except Failure Bool
  | boolean value => .ok (Condition.namePermits name (value.elim .null .bool))
  | ofVariable key =>
      match variableValues.field? key with
      | some value => .ok (Condition.namePermits name value)
      | none => .error .variablesNotRecord
  | namelessVariable => .error .namelessDirective
  | literal => .ok true
  | absent => .ok true

end Argument

/-- What stands in the place of a list of arguments. -/
inductive Arguments
  | missing
  | malformed (value : Value)
  | listed (arguments : List Argument)

namespace Arguments

/-- Whether the arguments of the directive `name` let a selection stay. If the directive is a
condition, all of them have to. -/
def permit (name : String) (variableValues : Value) (arguments : Arguments) :
    Except Failure Bool :=
  match Condition.ofName? name, arguments with
  | some _, listed arguments =>
      arguments.allM fun argument => argument.permits name variableValues
  | _, _ => .ok true

end Arguments

/-! ## Directives -/

/-- A member of a list of directives. -/
inductive Directive
  | named (name : String) (arguments : Arguments)
  | nameless
  /-- A node of another kind, such as a field, with the name and the arguments it has. -/
  | other (name : Option String) (arguments : Arguments)
  /-- A plain value where a directive is expected. -/
  | malformed (value : Value)

/-- What stands in the place of a list of directives. -/
inductive Directives
  | missing
  | malformed (value : Value)
  | listed (directives : List Directive)

namespace Directive

/-- Whether a member of a list of directives lets a selection stay. -/
def permits (variableValues : Value) : Directive → Except Failure Bool
  | named name arguments => arguments.permit name variableValues
  | nameless => .error .namelessDirective
  | other (some name) arguments => arguments.permit name variableValues
  | other none _ => .error .notDirective
  | malformed _ => .error .notDirective

end Directive

namespace Directives

/-- Whether all directives let a selection stay. Variables that are absent are no variables. -/
def permit (variableValues : Value) : Directives → Except Failure Bool
  | missing => .ok true
  | listed directives =>
      directives.allM fun directive => directive.permits (variableValues.orElse (.object []))
  | malformed value =>
      if value.truthy then
        match value with
        | .bool _ => .error .directivesNotListed
        | .number .. => .error .directivesNotListed
        | _ => .error .notDirective
      else .ok true

end Directives

end Lookahead
