/-!
# Failure — why a request cannot be answered

Data from outside is read as late as possible, so each cause below only matters if the reading
gets as far as the faulty place.
-/

namespace Lookahead

inductive Failure
  /-- A field or a spread of a fragment without a name. -/
  | namelessSelection
  /-- A directive without a name, or with a variable that has none. -/
  | namelessDirective
  /-- A member of a list of directives that is none and cannot be read like one. -/
  | notDirective
  /-- What stands in place of the directives cannot be gone through. -/
  | directivesNotListed
  /-- A variable is looked up in something that is no record. -/
  | variablesNotRecord
  /-- A fragment is looked up in something that is no table. -/
  | fragmentsNotTable
  /-- The options are no record. -/
  | optionsNotRecord
  /-- The exclusion patterns cannot be gone through. -/
  | patternsNotListed
  /-- An exclusion pattern is no text. -/
  | patternNotText
  /-- The path of the wanted branch is no text. -/
  | pathNotText
  /-- A name is looked up in a transform that is no record. -/
  | transformNotRecord
  /-- A list or a record in place of a label. -/
  | labelNotPlain
  /-- The selections are nested more deeply than allowed, most likely without an end. -/
  | nestingExceeded
  deriving DecidableEq, Repr

end Lookahead
