import StackAlgebra.Calculator.History
import StackAlgebra.Config

/-!
# The state of the calculator

A calculator is its configuration, the history of its stack, and perhaps a selected entry.
Operations act on the selected entry, or on the top where none is selected (`Calculator.target`).
Whatever they do to the stack is recorded by `Calculator.commit`.
-/

namespace StackAlgebra

/-- The state of the calculator. -/
structure Calculator where
  config : Config := {}
  history : History := {}
  selection : Option Nat := none

/-- What an operation has to say besides its result. -/
inductive Note where
  | applied (name : String) (arity : Nat) (low : Nat)
  | nothingToDropAt (index : Int)
  | nothingToDropIn (first last : Int)
  | noSelectionToDropBelow
  | alreadyEmpty
  | noEntryToSelect (index : Int)
  | nothingToSelect
  | noSelectionToMove
  | nothingToMove
  | alreadyAtEnd (index : Int)
  | noEntryToToggle (index : Int)
  | noEntryToDisplay (index : Int)
  | approximationFailed (cause : Error)
  | nothingToUndo
  | nothingToRedo

/-- The wording of a note. -/
def Note.text : Note → String
  | applied name arity low =>
    name ++ " on " ++ toString arity ++ " " ++ Error.entries arity ++ " at " ++ toString low
  | nothingToDropAt index => "nothing to drop at " ++ toString index
  | nothingToDropIn first last =>
    "nothing to drop at range(" ++ toString first ++ ", " ++ toString last ++ ")"
  | noSelectionToDropBelow => "no selection to drop below"
  | alreadyEmpty => "stack already empty"
  | noEntryToSelect index => "no entry " ++ toString index ++ " to select"
  | nothingToSelect => "nothing to select"
  | noSelectionToMove => "no selection to move up"
  | nothingToMove => "nothing to move"
  | alreadyAtEnd index => "entry " ++ toString index ++ " already at the end"
  | noEntryToToggle index => "no entry " ++ toString index ++ " to toggle"
  | noEntryToDisplay index => "no entry " ++ toString index ++ " to set radix on"
  | approximationFailed cause => "approximation failed: " ++ cause.message
  | nothingToUndo => "nothing to undo"
  | nothingToRedo => "nothing to redo"

namespace Calculator

/-- The present stack. -/
def stack (m : Calculator) : Stack :=
  m.history.present

/-- The index of the selected entry, or of the top one; the top of an empty stack is at `-1`. -/
def target (m : Calculator) : Int :=
  match m.selection with
  | some i => i
  | none => (m.stack.length : Int) - 1

/-- The place of an index in the stack, if there is an entry at it. -/
def place? (m : Calculator) (index : Int) : Option Nat :=
  if 0 ≤ index ∧ index < m.stack.length then some index.toNat else none

/-- The stack replaced by a new one, and the selection with it. -/
def commit (m : Calculator) (stack : Stack) (selection : Option Nat) : Calculator :=
  { m with history := m.history.record stack, selection }

/-- The calculator at another point of its history. A selection without an entry is lost. -/
def restore (m : Calculator) (history : History) : Calculator :=
  { m with
    history
    selection := m.selection.filter fun i => i < history.present.length }

end Calculator
end StackAlgebra
