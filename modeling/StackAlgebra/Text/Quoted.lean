import StackAlgebra.Text.Printable

/-!
# Quoted text

Messages quote the text they are about. `quoted` writes a text between single quotes, or between
double quotes where that spares an escape; a backslash, the quote itself and every character that is
not printable are written as escapes.
-/

namespace StackAlgebra.Quoted

/-- The digit of value `d` below 16, in lower case. -/
def hexDigit (d : Nat) : Char :=
  if d < 10 then Char.ofNat ('0'.toNat + d) else Char.ofNat ('a'.toNat + (d - 10))

/-- `n` in exactly `width` hexadecimal digits, the lowest ones if it needs more. -/
def hex : Nat → Nat → List Char
  | 0, _ => []
  | width + 1, n => hex width (n / 16) ++ [hexDigit (n % 16)]

/-- The escape of an unprintable character: two, four or eight digits, the fewest that hold it. -/
def codeEscape (c : Char) : List Char :=
  let n := c.toNat
  if n < 0x100 then '\\' :: 'x' :: hex 2 n
  else if n < 0x10000 then '\\' :: 'u' :: hex 4 n
  else '\\' :: 'U' :: hex 8 n

/-- One character inside the quotes `quote`. -/
def escape (quote c : Char) : List Char :=
  if c = '\\' ∨ c = quote then ['\\', c]
  else if c = '\n' then ['\\', 'n']
  else if c = '\r' then ['\\', 'r']
  else if c = '\t' then ['\\', 't']
  else if isPrintable c then [c]
  else codeEscape c

/-- The quote to use: double where the text has a single quote and no double one. -/
def quoteFor (cs : List Char) : Char :=
  if cs.contains '\'' && !cs.contains '"' then '"' else '\''

/-- The text between quotes, with escapes. -/
def encode (cs : List Char) : List Char :=
  let quote := quoteFor cs
  quote :: cs.flatMap (escape quote) ++ [quote]

end StackAlgebra.Quoted

namespace StackAlgebra

/-- `text` as messages quote it. -/
def quoted (text : String) : String :=
  String.ofList (Quoted.encode text.toList)

end StackAlgebra
