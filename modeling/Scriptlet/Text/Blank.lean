/-!
# Blank characters and trimming

Source text and numerals may be surrounded by any character with the Unicode `White_Space` property,
not only by the ASCII ones.  The property has twenty-five members, listed here as ranges of code
points.

Blanks do not matter outside of string literals (§4.1 of the specification), nor around the numerals
that §4.3 coerces.
-/

namespace Scriptlet.Text

/-- Ranges of code points, ends included, that have the `White_Space` property. -/
def blankRanges : List (Nat × Nat) :=
  [(0x09, 0x0D), (0x20, 0x20), (0x85, 0x85), (0xA0, 0xA0), (0x1680, 0x1680), (0x2000, 0x200A),
   (0x2028, 0x2029), (0x202F, 0x202F), (0x205F, 0x205F), (0x3000, 0x3000)]

/-- Whether a character separates tokens and is ignored around numerals. -/
def isBlank (c : Char) : Bool :=
  blankRanges.any fun (lo, hi) => lo ≤ c.toNat && c.toNat ≤ hi

def trim (cs : List Char) : List Char :=
  ((cs.dropWhile isBlank).reverse.dropWhile isBlank).reverse

/-- Equality of texts in which the letters `A` to `Z` stand for `a` to `z`. -/
def equalsFolded (cs : List Char) (word : String) : Bool :=
  cs.map Char.toLower == word.toList

end Scriptlet.Text
