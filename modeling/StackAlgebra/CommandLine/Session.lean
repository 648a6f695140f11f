import StackAlgebra.Calculator.Line
import StackAlgebra.CommandLine.Request
import StackAlgebra.Lexer.Lexeme

/-!
# Sessions

A session carries out a command line on a text of input and answers a `Transcript`: what is written,
what is written about errors, and the exit status, `0` if all went well, `1` if there was nothing to
be done because of an error, `2` if the command line was refused. An error in a line is written down
and ends that line only.
-/

namespace StackAlgebra.CommandLine

/-- What a session leaves behind. -/
structure Transcript where
  output : String := ""
  errors : String := ""
  status : Nat := 0
deriving DecidableEq

/-- The lines of a text, each with its line end. -/
def splitLines (text : String) : List String :=
  (lines text.toList).map String.ofList
where
  /-- The lines of a list of characters. -/
  lines : List Char → List (List Char)
    | [] => []
    | c :: cs =>
      if c = '\n' then [c] :: lines cs
      else
        match lines cs with
        | [] => [[c]]
        | l :: ls => (c :: l) :: ls

/-- Each text on a line of its own. -/
def unlines (texts : List String) : String :=
  String.join (texts.map (· ++ "\n"))

namespace Transcript

/-- Nothing done because of an error. Only errors that users are told of end a session this way. -/
def failed (written : Transcript) (e : Error) : Except Error Transcript :=
  if e.isReportable then
    .ok { written with errors := written.errors ++ unlines [e.message], status := 1 }
  else .error e

end Transcript

namespace Request

/-- The configuration that is asked for. -/
def config (r : Request) : Except Error Config :=
  Config.make r.radix r.precision r.angle

/-- The radix of lexemes that are only shown: ten unless another one is asked for. -/
def shownRadix (r : Request) : Radix :=
  (r.radix.toInt?.bind Radix.ofInt?).getD .decimal

/-- The lines to work on: the arguments, or else those of the input. -/
def linesFrom (r : Request) (input : String) : List String :=
  r.lines.getD (splitLines input)

/-- The stack is shown after every line, and not at the end, where there is a prompt to see. -/
def isPrompted (r : Request) : Bool :=
  r.prompt.any (· ≠ "")

/-- The notes, if they are asked for. -/
def showNotes (r : Request) (notes : List Note) : String :=
  if r.verbose then unlines (notes.map ("guac.machine: DEBUG: " ++ ·.text)) else ""

/-! ## Calculation -/

/-- The stack as text, the top first. -/
def showStack (r : Request) (m : Calculator) : Except Error Transcript := do
  let outcome ← m.renderStack .absent
  let shown := match outcome.answer with
    | .texts ss => unlines ss.reverse
    | _ => ""
  return { output := shown, errors := r.showNotes outcome.notes }

/-- Carry out a line; numbers in it are in the radix `R`. -/
def calculateLine (r : Request) (R : Radix) (m : Calculator) (line : String) :
    Except Error (Calculator × String) :=
  let outcome := m.feedLine R line
  let notes := r.showNotes outcome.notes
  match outcome.error? with
  | none => .ok (outcome.calculator, notes)
  | some e =>
    if e.isReportable then .ok (outcome.calculator, notes ++ unlines [e.message]) else .error e

/-- Carry out lines and show the stack, after each line where there is a prompt and else at the
end. -/
def calculateLines (r : Request) (R : Radix) (m : Calculator) (written : Transcript) :
    List String → Except Error Transcript
  | [] => if r.isPrompted then .ok written else addStack written m
  | line :: lines => do
    let (m, errors) ← r.calculateLine R m line
    let written := { written with errors := written.errors ++ errors }
    let written ← if r.isPrompted then addStack written m else pure written
    if written.status = 0 then r.calculateLines R m written lines else return written
where
  /-- The stack added to what was written. -/
  addStack (written : Transcript) (m : Calculator) : Except Error Transcript :=
    match r.showStack m with
    | .error e => written.failed e
    | .ok shown =>
      .ok { written with
        output := written.output ++ shown.output, errors := written.errors ++ shown.errors }

/-- Work as a calculator. All lines are read in the radix of the start. -/
def calculate (r : Request) (input : String) : Except Error Transcript :=
  match r.config with
  | .error e => ({} : Transcript).failed e
  | .ok config => r.calculateLines config.radix { config } {} (r.linesFrom input)

/-! ## Lexemes -/

/-- The columns of the table of lexemes. -/
def heading : List String :=
  ["[groups]", "<repr(repr)>", "<arity>"]

/-- A lexeme as a row: its kinds of text, its text in quotes, and how many operands it takes if it
is an operator. -/
def lexemeRow (l : Lexeme) : List String :=
  let arity := (l.word?.bind Operator.find?).elim "" fun op => toString op.arity
  l.groups.map (·.1) ++ [quoted l.text, arity]

/-- The rows of lines, up to the first place where none of them has a lexeme. -/
def lexemeRows (R : Radix) : List String → List (List String) × Option Error
  | [] => ([], none)
  | line :: lines =>
    match lex R line with
    | (ls, some e) => (ls.map lexemeRow, some e)
    | (ls, none) =>
      let (rows, error?) := lexemeRows R lines
      (ls.map lexemeRow ++ rows, error?)

/-- Show the lexemes of the lines. -/
def dump (r : Request) (input : String) : Except Error Transcript :=
  let (rows, error?) := lexemeRows r.shownRadix (r.linesFrom input)
  let written : Transcript := { output := unlines ((heading :: rows).map ("\t".intercalate ·)) }
  match error? with
  | none => .ok written
  | some e => written.failed e

/-- Show the kinds of lexemes in the order in which they are tried. -/
def showGrammar : Transcript :=
  { output := unlines ["name", "number", "str", "name", "operator", "space"] }

/-- Do what is asked for. -/
def perform (r : Request) (input : String) : Except Error Transcript :=
  match r.mode with
  | .calculate => r.calculate input
  | .dump => r.dump input
  | .grammar => .ok showGrammar

end Request

/-- Carry out a command line on the text of its input. -/
def run (arguments : List String) (input : String) : Except Error Transcript :=
  match Request.read arguments with
  | .error .misused => .ok { status := 2 }
  | .error .help => .ok {}
  | .ok r => r.perform input

end StackAlgebra.CommandLine
