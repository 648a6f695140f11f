import StackAlgebra.Config
import StackAlgebra.Expr.Basic
import StackAlgebra.Radix.Reader

/-!
# Reading input

An input text is a number if it can be one, else the name of a constant, else that of a variable
(`Input.read`). Only texts that look like names can be the latter two. A number that names its radix
is displayed in it. Quoted names are read by `Input.unescape`.
-/

namespace StackAlgebra.Input

/-- The text looks like a name. -/
def isIdentifier : List Char → Bool
  | [] => false
  | c :: cs => isNameStart c && cs.all isWord

/-- The expression that a name stands for where it is no number. -/
def readName (text : String) : Expr :=
  match Constant.find? text with
  | some c => .const c
  | none => .var text

/-- The radix that a number names, if it names one. -/
def chosenRadix (cs : List Char) : Except Error (Option Radix) :=
  match Radix.splitRadix? (cs.dropWhile (· = '-')) with
  | none => .ok none
  | some (chosen, _) => some <$> Radix.read chosen

/-- The expression that a text writes in a radix, and the radix it names. -/
def read (R : Radix) (cs : List Char) : Except Error (Expr × Option Radix) :=
  if isIdentifier cs then
    match R.readNumeral cs with
    | .ok q => .ok (.num q, none)
    | .error e => if e.isBadInput then .ok (readName (String.ofList cs), none) else .error e
  else do
    let q ← R.readNumeral cs
    return (.num q, ← chosenRadix cs)

/-- The radix to read in and whether it was given: the configuration's if not. -/
def inputRadix (config : Config) (given : Setting) : Except Error Radix :=
  match given with
  | .absent => .ok config.radix
  | given => Radix.check given

/-- The expression that a text writes, and the radix to display it in: the one it names, or else the
one it was read in, where that is not the configuration's. -/
def readText (config : Config) (text : String) (given : Setting) :
    Except Error (Expr × Option Radix) := do
  let cs := trim text.toList
  if cs = [] then throw .emptyInput
  let R ← inputRadix config given
  let (e, chosen) ← read R cs
  return (e, chosen.or (if R = config.radix then none else some R))

/-- A quoted name with its escapes resolved: a backslash stands for the character after it. -/
def unescape : List Char → List Char
  | '\\' :: c :: cs => c :: unescape cs
  | c :: cs => c :: unescape cs
  | [] => []

end StackAlgebra.Input
