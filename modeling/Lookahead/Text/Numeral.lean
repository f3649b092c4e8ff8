import Lookahead.Text.Blank
import Lookahead.Text.DecimalDigit

/-!
# Numeral — reading a number from text

A numeral is a decimal with an optional sign, point and exponent, or the name of an infinity or
of no number at all, in any case of letters. It may be surrounded by blanks, digits of every
script count, and `_` may stand between two digits. `Numeral.ofString?` reads it exactly;
rounding to a `Float` is a step of its own.

* `plain?` — the text with digits and blanks of all scripts written in ASCII;
* `ungroup?` — the text without the `_` between its digits;
* `Numeral.toFloat` — the nearest double, infinite where there is none.
-/

namespace Lookahead

/-- A number as it is written: `digits · 10 ^ exponent` with a sign. -/
inductive Numeral
  | undefined
  | infinite (negative : Bool)
  | decimal (negative : Bool) (digits : Nat) (exponent : Int)
  deriving DecidableEq, Repr

namespace Numeral

/-! ## Writing in ASCII -/

/-- A character outside ASCII has to be a blank or a digit. -/
def plainChar? (c : Char) : Option Char :=
  if c.toNat < 128 then some c
  else if Text.isBlank c then some ' '
  else (Text.digitValue? c).map Nat.digitChar

def plain? (text : List Char) : Option (List Char) :=
  text.mapM plainChar?

/-- Removes the marks between digits; `previous` is the character before the text. -/
def ungroupAfter? (previous : Char) : List Char → Option (List Char)
  | [] => if previous = '_' then none else some []
  | c :: text =>
      if c = '_' then
        if previous.isDigit then ungroupAfter? c text else none
      else if previous = '_' && !c.isDigit then none
      else (ungroupAfter? c text).map (c :: ·)

/-- Removes each `_` that stands between two digits; there must be no other. -/
def ungroup? (text : List Char) : Option (List Char) :=
  ungroupAfter? ' ' text

/-! ## Reading -/

/-- The number that a row of digits stands for. -/
def ofDigits (digits : List Char) : Nat :=
  digits.foldl (fun n c => 10 * n + (c.toNat - '0'.toNat)) 0

/-- A sign in front of a text, and whether it is a minus. -/
def sign : List Char → Bool × List Char
  | '-' :: text => (true, text)
  | '+' :: text => (false, text)
  | text => (false, text)

/-- The exponent that ends a decimal; none is written for zero. -/
def exponent? : List Char → Option Int
  | [] => some 0
  | mark :: text =>
      let (negative, digits) := sign text
      if (mark = 'e' || mark = 'E') && !digits.isEmpty && digits.all Char.isDigit then
        some (if negative then -(ofDigits digits : Int) else ofDigits digits)
      else none

/-- The digits after the point, and what follows them. -/
def fraction : List Char → List Char × List Char
  | '.' :: text => text.span Char.isDigit
  | text => ([], text)

def decimal? (negative : Bool) (text : List Char) : Option Numeral :=
  let (whole, afterWhole) := text.span Char.isDigit
  let (tenths, afterPoint) := fraction afterWhole
  if whole.isEmpty && tenths.isEmpty then none
  else
    (exponent? afterPoint).map fun shift =>
      decimal negative (ofDigits (whole ++ tenths)) (shift - tenths.length)

/-- A numeral without blanks, in ASCII. -/
def ofPlain? (text : List Char) : Option Numeral :=
  let (negative, unsigned) := sign text
  let word := String.ofList (unsigned.map Char.toLower)
  if word = "inf" || word = "infinity" then some (infinite negative)
  else if word = "nan" then some undefined
  else decimal? negative unsigned

/-- Reads a numeral; `none` for any other text. -/
def ofString? (text : String) : Option Numeral := do
  let plain ← plain? text.toList
  let ungrouped ← ungroup? plain
  ofPlain? (Text.trim ungrouped)

/-! ## Rounding -/

/-- How many digits a number has. -/
def width (n : Nat) : Nat :=
  (Nat.toDigits 10 n).length

/-- The nearest double to `digits · 10 ^ exponent`. Outside `10 ^ -330` to `10 ^ 310` it is zero
or infinite without any calculation. -/
def magnitude (digits : Nat) (exponent : Int) : Float :=
  if digits = 0 then 0
  else
    let reach := width digits + exponent
    if reach > 310 then 1.0 / 0.0
    else if reach < -330 then 0
    else Float.ofScientific digits (exponent < 0) exponent.natAbs

def signed (negative : Bool) (value : Float) : Float :=
  if negative then -value else value

def toFloat : Numeral → Float
  | undefined => 0.0 / 0.0
  | infinite negative => signed negative (1.0 / 0.0)
  | decimal negative digits exponent => signed negative (magnitude digits exponent)

end Numeral
end Lookahead
