import StackAlgebra.Text.CharRange

/-!
# Blank characters

Two classes of blanks are in use. The spaces between lexemes and around whole numbers have the
Unicode property White_Space (`isSpace`). Trimming a text removes these and also the four separator
controls from `0x1C` to `0x1F` (`isBlank`, `trim`).
-/

namespace StackAlgebra

/-- The characters with the property White_Space, as closed ranges of code points. -/
def spaceRanges : List (Nat × Nat) :=
  [(0x0009, 0x000D), (0x0020, 0x0020), (0x0085, 0x0085), (0x00A0, 0x00A0), (0x1680, 0x1680),
   (0x2000, 0x200A), (0x2028, 0x2029), (0x202F, 0x202F), (0x205F, 0x205F), (0x3000, 0x3000)]

/-- A space between lexemes. -/
def isSpace (c : Char) : Bool :=
  CharRange.mem spaceRanges c

/-- A character that trimming removes. -/
def isBlank (c : Char) : Bool :=
  isSpace c || (0x1C ≤ c.toNat && c.toNat ≤ 0x1F)

/-- The text without the characters of a class at its two ends. -/
def trimOff (p : Char → Bool) (cs : List Char) : List Char :=
  ((cs.dropWhile p).reverse.dropWhile p).reverse

/-- The text without the blanks at its two ends. -/
def trim (cs : List Char) : List Char :=
  trimOff isBlank cs

end StackAlgebra
