import StackAlgebra.Text.Decimal

/-!
# Arguments of the command line

The program has a fixed set of switches, each with a letter and a long name. `Argument.readAll`
tells the arguments of a command line apart: switches, with what is attached to them in the same
argument, plain arguments, and separators. A long name may be cut short as long as only one switch
begins so; where more than one does, the whole command line is refused. After the separator `--` all
arguments are plain.
-/

namespace StackAlgebra.CommandLine

/-- Why a command line is not carried out. -/
inductive Refusal where
  /-- The line makes no sense. -/
  | misused
  /-- Help was asked for instead. -/
  | help
deriving DecidableEq

/-- The switches. -/
inductive Switch where
  | help | verbose | radix | precision | angle | expression | prompt | grammar | dump
deriving DecidableEq

/-- How many arguments belong to a switch. -/
inductive Appetite where
  | nothing
  | one
  | atMostOne
  /-- All up to a separator, whatever they look like. -/
  | rest
deriving DecidableEq

namespace Switch

/-- All switches. -/
def all : List Switch :=
  [help, verbose, radix, precision, angle, expression, prompt, grammar, dump]

/-- The letter of a switch, after one dash. -/
def letter : Switch → Char
  | help => 'h'
  | verbose => 'v'
  | radix => 'r'
  | precision => 'k'
  | angle => 'a'
  | expression => 'e'
  | prompt => 'p'
  | grammar => 'G'
  | dump => 'D'

/-- The long name of a switch, after two dashes. -/
def name : Switch → String
  | help => "help"
  | verbose => "verbose"
  | radix => "radix"
  | precision => "precision"
  | angle => "angle"
  | expression => "expression"
  | prompt => "prompt"
  | grammar => "raw-grammar"
  | dump => "dump"

/-- The arguments that belong to a switch. -/
def appetite : Switch → Appetite
  | help | verbose | grammar | dump => .nothing
  | radix | precision | angle => .one
  | prompt => .atMostOne
  | expression => .rest

/-- The switch with this letter. -/
def ofLetter? (c : Char) : Option Switch :=
  all.find? (·.letter = c)

/-- The switches whose long names begin so; the one of exactly this name if there is one. -/
def ofName (cs : List Char) : List Switch :=
  match all.find? (·.name.toList = cs) with
  | some s => [s]
  | none => all.filter fun s => cs.isPrefixOf s.name.toList

end Switch

/-- What an argument is. -/
inductive Argument where
  | plain (text : String)
  | separator
  /-- A switch by its letter, or by its long name, with the text attached to it, if any. -/
  | switch (text : String) (s : Switch) (byLetter : Bool) (attached : Option (List Char))
  /-- Something with a dash in front that is no switch. -/
  | unknown (text : String)
deriving DecidableEq

namespace Argument

/-- The argument as it was given. -/
def text : Argument → String
  | plain t | switch t _ _ _ | unknown t => t
  | separator => "--"

/-- The argument is the separator. -/
def isSeparator : Argument → Bool
  | separator => true
  | _ => false

/-- The text attached to a switch, of what follows it in its argument: an equals sign in front is
not part of the text. -/
def attachedTo : List Char → Option (List Char)
  | [] => none
  | '=' :: cs => some cs
  | cs => some cs

/-- Decimal digits, at least one. -/
def isNumeral (cs : List Char) : Bool :=
  !cs.isEmpty && cs.all isDecimal

/-- The text after a dash makes it a negative number. A line end may follow. -/
def isMagnitude (cs : List Char) : Bool :=
  let cs := if cs.getLast? = some '\n' then cs.dropLast else cs
  let fractional := cs.dropWhile isDecimal
  isNumeral cs || match fractional with
    | '.' :: ds => isNumeral ds
    | _ => false

/-- An argument that is no switch. A negative number and anything with a space is plain. -/
def readOther (text : String) (afterDash : List Char) : Argument :=
  if isMagnitude afterDash || text.toList.contains ' ' then plain text else unknown text

/-- An argument with one dash. -/
def readShort (text : String) : List Char → Argument
  | [] => plain text
  | c :: cs =>
    match Switch.ofLetter? c with
    | some s => switch text s true (attachedTo cs)
    | none => readOther text (c :: cs)

/-- An argument with two dashes. -/
def readLong (text : String) (cs : List Char) : Except Refusal Argument :=
  let name := cs.takeWhile (· ≠ '=')
  match Switch.ofName name with
  | [] => .ok (readOther text ('-' :: cs))
  | [s] => .ok (switch text s false (attachedTo (cs.drop name.length)))
  | _ :: _ :: _ => .error .misused

/-- Tell what an argument is. -/
def read (text : String) : Except Refusal Argument :=
  match text.toList with
  | '-' :: '-' :: cs => readLong text cs
  | '-' :: cs => .ok (readShort text cs)
  | _ => .ok (plain text)

/-- Tell what the arguments are. -/
def readAll : List String → Except Refusal (List Argument)
  | [] => .ok []
  | t :: ts =>
    if t = "--" then .ok (separator :: ts.map plain)
    else do
      let a ← read t
      return a :: (← readAll ts)

end Argument
end StackAlgebra.CommandLine
