/-!
# White space

A character is blank when it has the Unicode property White_Space: 25 characters in ten ranges.
Texts are trimmed and split into words by this property alone.
-/

namespace Relata.Text

/-- Closed ranges of the code points that are white space, ascending and apart. -/
def blankRanges : List (Nat × Nat) :=
  [(0x09, 0x0D), (0x20, 0x20), (0x85, 0x85), (0xA0, 0xA0), (0x1680, 0x1680), (0x2000, 0x200A),
    (0x2028, 0x2029), (0x202F, 0x202F), (0x205F, 0x205F), (0x3000, 0x3000)]

/-- Whether a character is white space. -/
def isBlank (c : Char) : Bool :=
  blankRanges.any fun r => r.1 ≤ c.toNat && c.toNat ≤ r.2

/-- The text without the white space at either end. -/
def trim (s : List Char) : List Char :=
  ((s.dropWhile isBlank).reverse.dropWhile isBlank).reverse

/-- The words of a text: its maximal runs of characters that are not white space, in order. -/
def words (s : String) : List String :=
  ((s.toList.splitOnP isBlank).filter fun w => !w.isEmpty).map String.ofList

end Relata.Text
