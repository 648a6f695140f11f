import StackAlgebra.Calculator.Action
import StackAlgebra.Lexer.Lexeme

/-!
# Lines of input

A line is lexed and its lexemes are carried out one after the other, up to the first that fails or
the place where lexing stops. What was done before that place stays done.
-/

namespace StackAlgebra.Calculator

/-- The action that a lexeme stands for: a quoted name is a variable, a number is pushed, a word is
a command, an operator or else a name. Spaces stand for none. -/
def actionOf? : Lexeme → Option Action
  | .quoted _ inner => some (.pushVariable inner)
  | .number s => some (.pushInput s .absent)
  | .name s | .operator s =>
    match Command.find? s with
    | some command => some command.action
    | none => if (Operator.find? s).isSome then some (.apply s) else some (.pushInput s .absent)
  | .space _ => none

/-- Where a line has led: the state, the notes on the way, and the error that ended it, if one
did. -/
structure LineOutcome where
  calculator : Calculator
  notes : List Note := []
  error? : Option Error := none

/-- Carry out lexemes up to the first that fails; if none does, the line ends as `stop` says. -/
def feedAll (m : Calculator) (stop : Option Error) : List Lexeme → LineOutcome
  | [] => { calculator := m, error? := stop }
  | l :: ls =>
    match actionOf? l with
    | none => m.feedAll stop ls
    | some action =>
      match m.perform action with
      | .error e => { calculator := m, error? := some e }
      | .ok outcome =>
        let rest := outcome.calculator.feedAll stop ls
        { rest with notes := outcome.notes ++ rest.notes }

/-- Carry out a line whose numbers are in the radix `R`. -/
def feedLine (m : Calculator) (R : Radix) (line : String) : LineOutcome :=
  let (lexemes, stop) := lex R line
  m.feedAll stop lexemes

end StackAlgebra.Calculator
