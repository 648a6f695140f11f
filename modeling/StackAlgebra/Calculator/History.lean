import StackAlgebra.Expr.Basic
import StackAlgebra.Radix.Basic

/-!
# The stack and its history

A stack is a list of entries, the bottom first. The history holds the present stack between those
before it and those that were undone. Recording a new stack forgets what was undone.
-/

namespace StackAlgebra

/-- An expression with its display mode and the radix it is displayed in, if that is its own. -/
structure Entry where
  expr : Expr
  approx : Bool := false
  radix : Option Radix := none

/-- Entries, the bottom first. -/
abbrev Stack := List Entry

/-- Stacks in time: the past with the latest first, the present, the future with the next first. -/
structure History where
  past : List Stack := []
  present : Stack := []
  future : List Stack := []

namespace History

/-- All stacks, the first recorded first. -/
def snapshots (h : History) : List Stack :=
  h.past.reverse ++ h.present :: h.future

/-- The index of the present stack among the snapshots. -/
def cursor (h : History) : Nat :=
  h.past.length

/-- Make a stack the present one. What was undone is forgotten. -/
def record (h : History) (stack : Stack) : History :=
  { past := h.present :: h.past, present := stack, future := [] }

/-- Step back, if there is a past. -/
def undo? (h : History) : Option History :=
  match h.past with
  | [] => none
  | stack :: past => some { past, present := stack, future := h.present :: h.future }

/-- Step forward, if there is a future. -/
def redo? (h : History) : Option History :=
  match h.future with
  | [] => none
  | stack :: future => some { past := h.present :: h.past, present := stack, future }

end History
end StackAlgebra
