/-!
# Blank — white space

Two sets of characters are told apart. `isBlank` is the Unicode property, which also holds the
line and paragraph separators and the spaces of fixed width. `isPadding` is the part of ASCII
that may surround a numeral: tab, the line breaks, form feed and the space, but not the four
information separators.
-/

namespace Lookahead
namespace Text

/-- Blank characters outside ASCII, as ranges of code points. -/
def blankRanges : List (Nat × Nat) :=
  [(0x85, 0x85), (0xA0, 0xA0), (0x1680, 0x1680), (0x2000, 0x200A), (0x2028, 0x2029),
    (0x202F, 0x202F), (0x205F, 0x205F), (0x3000, 0x3000)]

def isPadding (c : Char) : Bool :=
  c == ' ' || (9 ≤ c.toNat && c.toNat ≤ 13)

def isBlank (c : Char) : Bool :=
  isPadding c || (0x1C ≤ c.toNat && c.toNat ≤ 0x1F) ||
    blankRanges.any fun range => range.1 ≤ c.toNat && c.toNat ≤ range.2

/-- Removes padding from both ends of a text. -/
def trim (text : List Char) : List Char :=
  ((text.dropWhile isPadding).reverse.dropWhile isPadding).reverse

end Text
end Lookahead
