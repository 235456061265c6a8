/-!
# Blank characters and words

Blank characters are those to which Unicode gives the property `White_Space`. A line is trimmed of
them at both ends and cut into words at them.
-/

namespace Calculator.Text

/-- The code points with the property `White_Space`, as closed ranges. -/
def blankRanges : List (Nat × Nat) :=
  [(0x09, 0x0D), (0x20, 0x20), (0x85, 0x85), (0xA0, 0xA0), (0x1680, 0x1680), (0x2000, 0x200A),
    (0x2028, 0x2029), (0x202F, 0x202F), (0x205F, 0x205F), (0x3000, 0x3000)]

def isBlank (c : Char) : Bool :=
  blankRanges.any fun range => range.1 ≤ c.toNat && c.toNat ≤ range.2

def skipBlanks (text : List Char) : List Char :=
  text.dropWhile isBlank

/-- Removes the blanks at both ends. -/
def trim (text : List Char) : List Char :=
  (skipBlanks (skipBlanks text).reverse).reverse

/-- The first word of a text and what follows it, without the blanks around the word. -/
def firstWord (text : List Char) : List Char × List Char :=
  let (word, rest) := (skipBlanks text).span (!isBlank ·)
  (word, skipBlanks rest)

end Calculator.Text
