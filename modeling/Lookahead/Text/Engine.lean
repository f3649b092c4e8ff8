import Lookahead.Text.Blank
import Lookahead.Text.Wildcard

/-!
# Engine — searching a text for an expression

A pattern with stars is not searched for as it is written. It is made into an expression: each of
its parts is escaped, so that it stands for itself, and between two parts stands `.*`, which stands
for anything within a line. An engine then searches for the expression, for a limited time.

* `Search` — how a search ends;
* `Engine` — what escapes texts and searches for expressions;
* `Engine.expression` — the expression of a pattern;
* `Engine.standard` — an engine that reads the parts of an expression back and looks for those.
-/

namespace Lookahead

inductive Search
  | found
  | missing
  | timedOut
  deriving DecidableEq, Repr

structure Engine where
  /-- Writes a text so that it stands for itself in an expression. -/
  escape : List Char → List Char
  /-- Searches for an expression in a text, for so many seconds. -/
  search : (seconds : Float) → (expression text : List Char) → Search

namespace Engine

/-! ## Expressions -/

/-- What stands for a gap in an expression. -/
def gap : List Char :=
  ['.', '*']

/-- The expression for parts with gaps between them. -/
def join (engine : Engine) (parts : List (List Char)) : List Char :=
  gap.intercalate (parts.map engine.escape)

/-- The expression for a pattern. -/
def expression (engine : Engine) (pattern : String) : List Char :=
  engine.join (Wildcard.parts pattern)

@[simp]
theorem join_singleton (engine : Engine) (part : List Char) :
    engine.join [part] = engine.escape part := by
  simp [join]

@[simp]
theorem join_cons_cons (engine : Engine) (part next : List Char) (more : List (List Char)) :
    engine.join (part :: next :: more) =
      engine.escape part ++ gap ++ engine.join (next :: more) := by
  simp [join]

/-! ## The standard engine -/

/-- The characters that are operators of expressions. -/
def operators : List Char :=
  ['\\', '.', '*', '+', '?', '|', '^', '$', '(', ')', '[', ']', '{', '}', '-', '#', '&', '~']

/-- Puts a backslash before each operator and each blank. -/
def mark (part : List Char) : List Char :=
  part.flatMap fun c => if operators.contains c || Text.isBlank c then ['\\', c] else [c]

/-- The parts of an expression. -/
def read : List Char → List (List Char)
  | [] => [[]]
  | [c] => [[c]]
  | c :: d :: rest =>
      -- a marked character stands for itself, whatever it is
      if c = '\\' then (read rest).modifyHead (d :: ·)
      else if c = '.' ∧ d = '*' then [] :: read rest
      else (read (d :: rest)).modifyHead (c :: ·)

/-- Whether the time is over before anything can be found: a limit below zero is none, one of at
most a nanosecond is too short, and any other is long enough. -/
def tooShort (seconds : Float) : Bool :=
  0.0 ≤ seconds && seconds ≤ 1e-9

def standard : Engine where
  escape := mark
  search seconds expression text :=
    if Wildcard.occurs text (read expression) then
      if tooShort seconds then .timedOut else .found
    else .missing

section Standard

variable {seconds : Float} {expression text : List Char}

theorem standard_search_ne_found (h : tooShort seconds = true) :
    standard.search seconds expression text ≠ .found := by
  by_cases hoccurs : Wildcard.occurs text (read expression) <;> simp [standard, hoccurs, h]

theorem standard_search_ne_timedOut (h : tooShort seconds = false) :
    standard.search seconds expression text ≠ .timedOut := by
  by_cases hoccurs : Wildcard.occurs text (read expression) <;> simp [standard, hoccurs, h]

theorem standard_search_eq_found_iff
    (hintime : standard.search seconds expression text ≠ .timedOut) :
    standard.search seconds expression text = .found ↔
      Wildcard.occurs text (read expression) = true := by
  by_cases hoccurs : Wildcard.occurs text (read expression)
  · simpa [standard, hoccurs] using hintime
  · simp [standard, hoccurs]

end Standard

end Engine

end Lookahead
