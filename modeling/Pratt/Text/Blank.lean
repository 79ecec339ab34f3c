/-!
# Pratt — blank characters

A character is blank when Unicode gives it a white-space role: the spaces of
every width, the line and paragraph separators, the tabs and line ends of ASCII,
and the four ASCII information separators (U+001C to U+001F). Characters of no
width, such as U+200B and U+FEFF, are not blank.

`trimBlank` takes the blank characters off both ends of a text.
-/

namespace Pratt

/-- The code points of the blank characters, as closed ranges in rising order. -/
def blankRanges : List (Nat × Nat) :=
  [(0x9, 0xD), (0x1C, 0x20), (0x85, 0x85), (0xA0, 0xA0), (0x1680, 0x1680), (0x2000, 0x200A),
   (0x2028, 0x2029), (0x202F, 0x202F), (0x205F, 0x205F), (0x3000, 0x3000)]

/-- Whether a character is blank. -/
def isBlank (c : Char) : Bool :=
  blankRanges.any fun r => r.1 ≤ c.toNat && c.toNat ≤ r.2

/-- A text without the blank characters at its two ends. -/
def trimBlank (text : List Char) : List Char :=
  ((text.dropWhile isBlank).reverse.dropWhile isBlank).reverse

end Pratt
