import StackAlgebra.Calculator.Command
import StackAlgebra.Calculator.Input
import StackAlgebra.Calculator.State
import StackAlgebra.Display.Render
import StackAlgebra.Operator

/-!
# What the calculator does

`Action` lists the operations, `Calculator.perform` carries one out. An operation either fails, and
then there is no new state, or it answers, perhaps with a note. Operations on the stack that have
nothing to do say so in a note and change nothing.
-/

namespace StackAlgebra

/-- Entries to drop: the selected or top one, the one at an index, or those from an index up to
another. Ranges go by ones, as the one below the selection does. Steps of another width, which only
a caller from outside could ask for, are left out. -/
inductive DropTarget where
  | default
  | index (i : Int)
  | range (first last : Int)
deriving DecidableEq

/-- The operations of the calculator. -/
inductive Action where
  | push (e : Expr) (approx : Bool) (radix : Setting)
  | pushInput (text : String) (radix : Setting)
  | pushVariable (name : String)
  | apply (name : String)
  | pop
  | drop (target : DropTarget)
  | dropBelow
  | dup
  | swap
  | clear
  | select (index : Option Int)
  | moveSelection (delta : Int)
  | moveEntry (delta : Int)
  | toggle (index : Option Int)
  | setEntryRadix (radix : Setting) (index : Option Int)
  | undo
  | redo
  | setRadix (given : Setting)
  | setPrecision (given : Setting)
  | setAngle (given : Setting)
  | render (index : Option Int) (radix : Setting)
  | renderStack (radix : Setting)
  | size
  | get (index : Int)

/-- What an operation answers. -/
inductive Answer where
  | nothing
  | expr (e : Expr)
  | text (s : String)
  | texts (ss : List String)
  | size (n : Nat)

/-- The result of an operation that did not fail. -/
structure Outcome where
  calculator : Calculator
  answer : Answer := .nothing
  notes : List Note := []

namespace Calculator

/-- Nothing changed, and a note why. -/
def unchanged (m : Calculator) (note : Note) : Outcome :=
  { calculator := m, notes := [note] }

/-- An optional radix, checked. -/
def checkRadix (given : Setting) : Except Error (Option Radix) :=
  match given with
  | .absent => .ok none
  | given => some <$> Radix.check given

/-! ## Pushing -/

/-- Push an entry; the selection stays. -/
def pushEntry (m : Calculator) (entry : Entry) : Outcome :=
  { calculator := m.commit (m.stack ++ [entry]) m.selection }

/-- Push an expression in canonical form. -/
def push (m : Calculator) (e : Expr) (approx : Bool) (radix : Setting) : Except Error Outcome := do
  let radix ← checkRadix radix
  return m.pushEntry { expr := ← e.simplify, approx, radix }

/-- Push what a text writes. -/
def pushInput (m : Calculator) (text : String) (radix : Setting) : Except Error Outcome := do
  let (e, radix) ← Input.readText m.config text radix
  return m.pushEntry { expr := ← e.simplify, radix }

/-- Push a variable, whatever its name looks like. -/
def pushVariable (m : Calculator) (name : String) : Except Error Outcome := do
  let e ← Expr.ofVariableName (String.ofList (Input.unescape name.toList))
  return m.pushEntry { expr := e }

/-! ## Operators -/

/-- The entries from `low` on, as many as an operator takes. -/
def operands (m : Calculator) (low arity : Nat) : List Entry :=
  (m.stack.drop low).take arity

/-- The stack with those entries replaced by one. -/
def replaceOperands (m : Calculator) (low arity : Nat) (entry : Entry) : Stack :=
  m.stack.take low ++ entry :: m.stack.drop (low + arity)

/-- Apply an operator to the selected or top entry and those below it. The result takes the place of
the deepest operand and its radix; it is approximate if any operand is. A selection moves to it. -/
def apply (m : Calculator) (name : String) : Except Error Outcome :=
  match Operator.find? name with
  | none => .error (.noOperator name)
  | some op =>
    let size := (m.target + 1).toNat
    if size < op.arity then .error (.tooFewEntries name op.arity)
    else do
      let low := size - op.arity
      let entries := m.operands low op.arity
      let expr ← op.evaluate m.config.angle.name (entries.map (·.expr))
      let entry : Entry :=
        { expr, approx := entries.any (·.approx), radix := entries.head?.bind (·.radix) }
      return {
        calculator :=
          m.commit (m.replaceOperands low op.arity entry) (m.selection.map fun _ => low)
        notes := [.applied name op.arity low] }

/-! ## Stack words -/

/-- The target removes the entry at a place. -/
def removes (m : Calculator) (target : DropTarget) (place : Nat) : Bool :=
  match target with
  | .default => m.target = place
  | .index i => i = place
  | .range first last => first ≤ place && (place : Int) < last

/-- The note for a target that removes nothing. -/
def dropNote (m : Calculator) : DropTarget → Note
  | .default => .nothingToDropAt m.target
  | .index i => .nothingToDropAt i
  | .range first last => .nothingToDropIn first last

/-- Remove entries. A selection at or past the first removed entry is lost. -/
def drop (m : Calculator) (target : DropTarget) : Outcome :=
  let removed := (List.range m.stack.length).filter (m.removes target)
  match removed with
  | [] => m.unchanged (m.dropNote target)
  | lowest :: _ =>
    let kept := m.stack.zipIdx.filter fun (_, place) => !m.removes target place
    { calculator := m.commit (kept.map (·.1)) (m.selection.filter (· < lowest)) }

/-- Remove every entry below the selection. -/
def dropBelow (m : Calculator) : Outcome :=
  match m.selection with
  | none => m.unchanged .noSelectionToDropBelow
  | some i => m.drop (.range 0 i)

/-- The selected or top entry and its place. -/
def targetEntry? (m : Calculator) : Option (Nat × Entry) :=
  (m.place? m.target).bind fun place => m.stack[place]?.map fun entry => (place, entry)

/-- Remove and answer the selected or top entry. -/
def pop (m : Calculator) : Except Error Outcome :=
  match m.targetEntry? with
  | none => .error .emptyStack
  | some (place, entry) => .ok { m.drop (.index place) with answer := .expr entry.expr }

/-- Push a copy of the selected or top entry. -/
def dup (m : Calculator) : Except Error Outcome :=
  match m.targetEntry? with
  | none => .error .emptyStack
  | some (_, entry) => .ok (m.pushEntry entry)

/-- The stack with the entry at a place moved to another. -/
def moved (stack : Stack) (place destination : Nat) : Stack :=
  match stack[place]? with
  | none => stack
  | some entry => (stack.eraseIdx place).insertIdx destination entry

/-- Exchange the selected or top entry and the one below it. -/
def swap (m : Calculator) : Except Error Outcome :=
  match m.place? m.target with
  | some (below + 1) => .ok { calculator := m.commit (moved m.stack (below + 1) below) m.selection }
  | _ => .error .nothingToSwap

/-- Remove all entries. -/
def clear (m : Calculator) : Outcome :=
  match m.stack with
  | [] => m.unchanged .alreadyEmpty
  | _ :: _ => { calculator := m.commit [] none }

/-! ## Selection -/

/-- Select an entry, or none. -/
def select (m : Calculator) (index : Option Int) : Outcome :=
  match index with
  | none => { calculator := { m with selection := none } }
  | some i =>
    match m.place? i with
    | some place => { calculator := { m with selection := some place } }
    | none => m.unchanged (.noEntryToSelect i)

/-- Move the selection, toward the top where `delta` is positive. Without a selection it starts past
the top; past the top it is lost. -/
def moveSelection (m : Calculator) (delta : Int) : Outcome :=
  if m.stack.isEmpty then m.unchanged .nothingToSelect
  else
    match m.selection with
    | none =>
      if 0 ≤ delta then m.unchanged .noSelectionToMove
      else { calculator := { m with selection := some (m.stack.length + delta).toNat } }
    | some i =>
      let index : Int := i + delta
      let selection := if m.stack.length ≤ index then none else some index.toNat
      { calculator := { m with selection } }

/-- Move the selected or top entry within the stack; a selection follows it. -/
def moveEntry (m : Calculator) (delta : Int) : Outcome :=
  match m.place? m.target with
  | none => m.unchanged .nothingToMove
  | some place =>
    let destination := (min (place + delta) (m.stack.length - 1)).toNat
    if destination = place then m.unchanged (.alreadyAtEnd place)
    else
      { calculator :=
          m.commit (moved m.stack place destination) (m.selection.map fun _ => destination) }

/-! ## Display -/

/-- Change one entry. -/
def modifyEntry (m : Calculator) (place : Nat) (f : Entry → Entry) : Outcome :=
  { calculator := m.commit (m.stack.modify place f) m.selection }

/-- Switch an entry between exact and approximate display. -/
def toggle (m : Calculator) (index : Option Int) : Outcome :=
  let index := index.getD m.target
  match m.place? index with
  | none => m.unchanged (.noEntryToToggle index)
  | some place => m.modifyEntry place fun entry => { entry with approx := !entry.approx }

/-- Display an entry in its own radix, or in the calculator's again. -/
def setEntryRadix (m : Calculator) (radix : Setting) (index : Option Int) :
    Except Error Outcome := do
  let index := index.getD m.target
  let radix ← checkRadix radix
  match m.place? index with
  | none => return m.unchanged (.noEntryToDisplay index)
  | some place => return m.modifyEntry place fun entry => { entry with radix }

/-- An entry in its display mode, in the radix `shown`. An approximation that cannot be computed is
replaced by the exact form. -/
def renderEntry (m : Calculator) (entry : Entry) (shown : Radix) :
    Except Error (String × List Note) := do
  if entry.approx then
    match Display.render shown (.approx m.config.precision) entry.expr with
    | .ok s => return (s, [])
    | .error e =>
      if e.isReportable then
        return (← Display.render shown .exact entry.expr, [.approximationFailed e])
      else throw e
  else return (← Display.render shown .exact entry.expr, [])

/-- An entry as text. One in another radix than `active` has its radix in front. -/
def display (m : Calculator) (entry : Entry) (active : Radix) :
    Except Error (String × List Note) := do
  let shown := entry.radix.getD active
  let (s, notes) ← m.renderEntry entry shown
  return (if shown = active then s else shown.name ++ "#" ++ s, notes)

/-- The entry at an index as text. -/
def render (m : Calculator) (index : Option Int) (radix : Setting) : Except Error Outcome := do
  let index := index.getD m.target
  match (m.place? index).bind fun place => m.stack[place]? with
  | none => throw (.noEntry index)
  | some entry =>
    let active ← Input.inputRadix m.config radix
    let (s, notes) ← m.display entry active
    return { calculator := m, answer := .text s, notes }

/-- All entries as text, the bottom first. -/
def renderStack (m : Calculator) (radix : Setting) : Except Error Outcome := do
  let shown ← m.stack.mapM fun entry => do
    m.display entry (← Input.inputRadix m.config radix)
  return { calculator := m, answer := .texts (shown.map (·.1)), notes := shown.flatMap (·.2) }

/-! ## History and configuration -/

/-- Return to the stack before. -/
def undo (m : Calculator) : Outcome :=
  match m.history.undo? with
  | none => m.unchanged .nothingToUndo
  | some history => { calculator := m.restore history }

/-- Return to the stack that was undone. -/
def redo (m : Calculator) : Outcome :=
  match m.history.redo? with
  | none => m.unchanged .nothingToRedo
  | some history => { calculator := m.restore history }

/-- Work under another configuration. -/
def configure (m : Calculator) (config : Except Error Config) : Except Error Outcome := do
  return { calculator := { m with config := ← config } }

/-- The expression at an index; a negative one counts from past the top. -/
def get (m : Calculator) (index : Int) : Except Error Outcome :=
  let index := if index < 0 then index + m.stack.length else index
  match (m.place? index).bind fun place => m.stack[place]? with
  | none => .error .indexOutOfRange
  | some entry => .ok { calculator := m, answer := .expr entry.expr }

/-! ## Actions -/

/-- Carry out an action. -/
def perform (m : Calculator) : Action → Except Error Outcome
  | .push e approx radix => m.push e approx radix
  | .pushInput text radix => m.pushInput text radix
  | .pushVariable name => m.pushVariable name
  | .apply name => m.apply name
  | .pop => m.pop
  | .drop target => .ok (m.drop target)
  | .dropBelow => .ok m.dropBelow
  | .dup => m.dup
  | .swap => m.swap
  | .clear => .ok m.clear
  | .select index => .ok (m.select index)
  | .moveSelection delta => .ok (m.moveSelection delta)
  | .moveEntry delta => .ok (m.moveEntry delta)
  | .toggle index => .ok (m.toggle index)
  | .setEntryRadix radix index => m.setEntryRadix radix index
  | .undo => .ok m.undo
  | .redo => .ok m.redo
  | .setRadix given => m.configure (m.config.withRadix given)
  | .setPrecision given => m.configure (m.config.withPrecision given)
  | .setAngle given => m.configure (m.config.withAngle given)
  | .render index radix => m.render index radix
  | .renderStack radix => m.renderStack radix
  | .size => .ok { calculator := m, answer := .size m.stack.length }
  | .get index => m.get index

end Calculator

/-- The action that a command stands for. -/
def Command.action : Command → Action
  | drop => .drop .default
  | dup => .dup
  | swap => .swap
  | clear => .clear
  | undo => .undo
  | redo => .redo
  | toggle => .toggle none
  | sink => .moveEntry (-1)
  | rise => .moveEntry 1
  | selectBelow => .moveSelection (-1)
  | selectAbove => .moveSelection 1

end StackAlgebra
