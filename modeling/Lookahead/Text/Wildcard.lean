import Lookahead.Text.Pieces

/-!
# Wildcard — finding a pattern with gaps inside a name

A pattern is cut at each `*` into parts, which are compared character by character. The parts occur
in a text if they all stand there in order, the first one anywhere and each further one after a gap:
a stretch of characters, possibly empty, that does not cross the end of a line.

* `strip` removes a part from the front of a text.
* `seek` places a part after the shortest gap. Nothing is lost by that: a part without a line
  end can only move within the line, which leaves less to search, and a part with a line end
  fits at one place at most.
* `occurs` tries every place for the first part.
-/

namespace Lookahead
namespace Wildcard

def star : Char := '*'

def lineEnd : Char := '\n'

/-- A name with a star in it is a pattern. -/
def isPattern (name : String) : Bool :=
  name.toList.contains star

/-- The literal stretches of a pattern. -/
def parts (pattern : String) : List (List Char) :=
  Text.pieces star pattern.toList

/-- What follows `part` at the front of a text. -/
def strip : List Char → List Char → Option (List Char)
  | [], text => some text
  | _ :: _, [] => none
  | c :: part, d :: text => if c = d then strip part text else none

/-- What follows `part` after the shortest gap. -/
def seek (part : List Char) : List Char → Option (List Char)
  | [] => strip part []
  | c :: text =>
      match strip part (c :: text) with
      | some rest => some rest
      | none => if c = lineEnd then none else seek part text

/-- Whether all the parts follow, each after a gap. -/
def follow : List (List Char) → List Char → Bool
  | [], _ => true
  | part :: more, text =>
      match seek part text with
      | some rest => follow more rest
      | none => false

/-- Whether `first` stands at the front with the other parts after it. -/
def starts (first : List Char) (more : List (List Char)) (text : List Char) : Bool :=
  match strip first text with
  | some rest => follow more rest
  | none => false

/-- Whether the parts occur anywhere in a text. -/
def find (first : List Char) (more : List (List Char)) : List Char → Bool
  | [] => starts first more []
  | c :: text => starts first more (c :: text) || find first more text

/-- Whether parts occur in a text. -/
def occurs (text : List Char) : List (List Char) → Bool
  | [] => true
  | first :: more => find first more text

/-! ## Parts at the front -/

theorem strip_eq_some_iff {part text rest : List Char} :
    strip part text = some rest ↔ text = part ++ rest := by
  induction part generalizing text with
  | nil =>
      simp [strip]
  | cons c part ih =>
      cases text with
      | nil =>
          simp [strip]
      | cons d text =>
          by_cases h : c = d
          · subst h
            simp [strip, ih]
          · have hd : d ≠ c := fun e => h e.symm
            simp [strip, h, hd]

@[simp]
theorem strip_append (part rest : List Char) : strip part (part ++ rest) = some rest :=
  strip_eq_some_iff.2 rfl

end Wildcard
end Lookahead
