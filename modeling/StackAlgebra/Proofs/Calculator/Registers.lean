import StackAlgebra.Calculator.Line

/-!
# The calculator step by step

`Calculator.perform` answers with a new state or fails without one. Here the same operations are
written as they happen in place: `Registers` holds stack, selection, snapshots, cursor and
configuration side by side, and a `Procedure` writes one of them at a time and may fail between any
two writes. What it has written before it fails stays written. Nothing in the registers keeps them
from contradicting each other, so that what holds of them at all times has to be shown of every
procedure, and that a failed operation has changed nothing has to be shown as well.

`Procedure.perform` carries out an action and `Procedure.feedLine` a line of input.
-/

namespace StackAlgebra

/-- The member of a list at an index; a negative one counts from past the end. -/
def memberAt? {α : Type} (l : List α) (index : Int) : Option α :=
  let index := if index < 0 then index + l.length else index
  if index < 0 then none else l[index.toNat]?

/-- The state of the calculator in registers of their own. -/
structure Registers where
  config : Config
  stack : Stack := []
  selection : Option Int := none
  /-- All stacks recorded, the first one first. -/
  snapshots : List Stack := [[]]
  /-- The index of the present stack among the snapshots. -/
  cursor : Int := 0

/-- A procedure on the registers that can fail. What it has written before it fails stays
written. -/
abbrev Procedure := EStateM Error Registers

namespace Registers

/-- The index of the selected entry, or of the top one; the top of an empty stack is at `-1`. -/
def target (r : Registers) : Int :=
  r.selection.getD (r.stack.length - 1)

/-- There is an entry at the index. -/
def hasEntry (r : Registers) (index : Int) : Bool :=
  0 ≤ index && index < r.stack.length

/-- The indices of entries that a target names. -/
def indices (r : Registers) : DropTarget → List Int
  | .default => [r.target].filter r.hasEntry
  | .index i => [i].filter r.hasEntry
  | .range first last =>
    ((List.range (last - first).toNat).map fun k : Nat => first + k).filter r.hasEntry

/-- The registers that a procedure leads to, whether it fails or not. -/
def after {α : Type} (p : Procedure α) (r : Registers) : Registers :=
  match p.run r with
  | .ok _ s => s
  | .error _ s => s

end Registers

namespace Procedure

/-! ## Reading and recording -/

/-- The result of a computation that does not touch the registers. -/
def compute {α : Type} (x : Except Error α) : Procedure α :=
  match x with
  | .ok a => pure a
  | .error ε => throw ε

/-- The entry at an index. -/
def entryAt (index : Int) : Procedure Entry := do
  let r ← get
  compute ((memberAt? r.stack index).elim (.error .indexOutOfRange) .ok)

/-- Forget the snapshots past the cursor, record a new one and move the cursor to it. -/
def record (snapshot : Stack) : Procedure Unit := do
  modify fun r => { r with snapshots := r.snapshots.take (r.cursor + 1).toNat }
  modify fun r => { r with snapshots := r.snapshots ++ [snapshot] }
  modify fun r => { r with cursor := r.cursor + 1 }

/-- Replace the stack and the selection, and record the stack. -/
def commit (stack : Stack) (selection : Option Int) : Procedure Unit := do
  modify fun r => { r with stack }
  modify fun r => { r with selection }
  let r ← get
  record r.stack

/-! ## Pushing -/

/-- Push an expression in canonical form, after its radix has been checked. -/
def pushChecked (e : Expr) (approx : Bool) (radix : Option Radix) : Procedure Unit := do
  let e ← compute e.simplify
  let r ← get
  commit (r.stack ++ [{ expr := e, approx, radix }]) r.selection

/-- Push an expression in canonical form. -/
def push (e : Expr) (approx : Bool) (radix : Setting) : Procedure Unit := do
  let radix ← compute (Calculator.checkRadix radix)
  pushChecked e approx radix

/-- Push what a text writes. -/
def pushInput (text : String) (radix : Setting) : Procedure Unit := do
  let r ← get
  let (e, radix) ← compute (Input.readText r.config text radix)
  pushChecked e false radix

/-- Push a variable, whatever its name looks like. -/
def pushVariable (name : String) : Procedure Unit := do
  let e ← compute (Expr.ofVariableName (String.ofList (Input.unescape name.toList)))
  pushChecked e false none

/-! ## Operators -/

/-- Replace the entries from `low` to `index` by what an operator makes of them. -/
def operate (op : Operator) (low index : Int) : Procedure Unit := do
  let r ← get
  let operands := (r.stack.take (index + 1).toNat).drop low.toNat
  let expr ← compute (op.evaluate r.config.angle.name (operands.map (·.expr)))
  let deepest ← entryAt low
  let entry : Entry := { expr, approx := operands.any (·.approx), radix := deepest.radix }
  commit (r.stack.take low.toNat ++ entry :: r.stack.drop (index + 1).toNat)
    (r.selection.map fun _ => low)

/-- Apply an operator to the selected or top entry and those below it. -/
def apply (name : String) : Procedure Unit := do
  let op ← compute ((Operator.find? name).elim (.error (.noOperator name)) .ok)
  let r ← get
  let index := r.target
  let low := index - op.arity + 1
  if index < 0 ∨ low < 0 then throw (.tooFewEntries name op.arity)
  operate op low index

/-! ## Stack words -/

/-- Remove entries. A selection at or past the first removed entry is lost. -/
def drop (target : DropTarget) : Procedure Unit := do
  let r ← get
  let removed := r.indices target
  match removed.min? with
  | none => return ()
  | some lowest =>
    let kept := r.stack.zipIdx.filter fun (_, place) => (place : Int) ∉ removed
    commit (kept.map (·.1)) (r.selection.filter (· < lowest))

/-- Remove and answer the selected or top entry. -/
def pop : Procedure Expr := do
  let r ← get
  let index := r.target
  if index < 0 then throw .emptyStack
  let entry ← entryAt index
  drop (.index index)
  return entry.expr

/-- Remove every entry below the selection. -/
def dropBelow : Procedure Unit := do
  let r ← get
  match r.selection with
  | none => return ()
  | some i => drop (.range 0 i)

/-- Push a copy of the selected or top entry. -/
def dup : Procedure Unit := do
  let r ← get
  let index := r.target
  if index < 0 then throw .emptyStack
  let entry ← entryAt index
  commit (r.stack ++ [entry]) r.selection

/-- Exchange the selected or top entry and the one below it. -/
def swap : Procedure Unit := do
  let r ← get
  let index := r.target
  if index < 1 then throw .nothingToSwap
  let entry ← entryAt index
  let below ← entryAt (index - 1)
  commit ((r.stack.set (index - 1).toNat entry).set index.toNat below) r.selection

/-- Remove all entries. -/
def clear : Procedure Unit := do
  let r ← get
  if r.stack.isEmpty then return ()
  commit [] none

/-! ## Selection -/

/-- Select an entry, or none. -/
def select (index : Option Int) : Procedure Unit := do
  let r ← get
  if index.any (!r.hasEntry ·) then return ()
  modify fun r => { r with selection := index }

/-- Move the selection, toward the top where `delta` is positive. -/
def moveSelection (delta : Int) : Procedure Unit := do
  let r ← get
  if r.stack.isEmpty then return ()
  match r.selection with
  | none =>
    if 0 ≤ delta then return ()
    modify fun r => { r with selection := some (max (r.stack.length + delta) 0) }
  | some i =>
    let index := i + delta
    if r.stack.length ≤ index then modify fun r => { r with selection := none }
    else modify fun r => { r with selection := some (max index 0) }

/-- Move the selected or top entry within the stack; a selection follows it. -/
def moveEntry (delta : Int) : Procedure Unit := do
  let r ← get
  let index := r.target
  if index < 0 then return ()
  let destination := min (max (index + delta) 0) (r.stack.length - 1)
  if destination = index then return ()
  let entry ← entryAt index
  commit ((r.stack.eraseIdx index.toNat).insertIdx destination.toNat entry)
    (r.selection.map fun _ => destination)

/-! ## Display -/

/-- Replace one entry by another made from it. -/
def replaceEntry (index : Int) (f : Entry → Entry) : Procedure Unit := do
  let r ← get
  if !r.hasEntry index then return ()
  let entry ← entryAt index
  commit (r.stack.set index.toNat (f entry)) r.selection

/-- Switch an entry between exact and approximate display. -/
def toggle (index : Option Int) : Procedure Unit := do
  let r ← get
  replaceEntry (index.getD r.target) fun entry => { entry with approx := !entry.approx }

/-- Display an entry in its own radix, or in the calculator's again. -/
def setEntryRadix (radix : Setting) (index : Option Int) : Procedure Unit := do
  let r ← get
  let radix ← compute (Calculator.checkRadix radix)
  replaceEntry (index.getD r.target) fun entry => { entry with radix }

/-- An entry as text. One in another radix than the given or configured one has its radix in
front. -/
def renderEntry (entry : Entry) (radix : Setting) : Procedure String := do
  let r ← get
  let active ← compute (Input.inputRadix r.config radix)
  let (s, _) ← compute (({ config := r.config } : Calculator).display entry active)
  return s

/-- The entry at an index as text. -/
def render (index : Option Int) (radix : Setting) : Procedure String := do
  let r ← get
  let index := index.getD r.target
  if !r.hasEntry index then throw (.noEntry index)
  let entry ← entryAt index
  renderEntry entry radix

/-- All entries as text, the bottom first. -/
def renderStack (radix : Setting) : Procedure (List String) := do
  let r ← get
  r.stack.mapM fun entry => renderEntry entry radix

/-! ## History and configuration -/

/-- Make the snapshot at the cursor the stack. A selection without an entry is lost. -/
def restore : Procedure Unit := do
  let r ← get
  let stack ← compute ((memberAt? r.snapshots r.cursor).elim (.error .indexOutOfRange) .ok)
  modify fun r => { r with stack }
  let r ← get
  if r.selection.any (!r.hasEntry ·) then modify fun r => { r with selection := none }

/-- Return to the stack before. -/
def undo : Procedure Unit := do
  let r ← get
  if r.cursor = 0 then return ()
  modify fun r => { r with cursor := r.cursor - 1 }
  restore

/-- Return to the stack that was undone. -/
def redo : Procedure Unit := do
  let r ← get
  if r.cursor = r.snapshots.length - 1 then return ()
  modify fun r => { r with cursor := r.cursor + 1 }
  restore

/-- Work under another configuration. -/
def configure (change : Config → Except Error Config) : Procedure Unit := do
  let r ← get
  let config ← compute (change r.config)
  modify fun r => { r with config }

/-! ## Actions and lines -/

/-- Carry out a procedure that answers nothing. -/
def silently (p : Procedure Unit) : Procedure Answer := do
  p
  return .nothing

/-- Carry out an action. -/
def perform : Action → Procedure Answer
  | .push e approx radix => silently (push e approx radix)
  | .pushInput text radix => silently (pushInput text radix)
  | .pushVariable name => silently (pushVariable name)
  | .apply name => silently (apply name)
  | .pop => .expr <$> pop
  | .drop target => silently (drop target)
  | .dropBelow => silently dropBelow
  | .dup => silently dup
  | .swap => silently swap
  | .clear => silently clear
  | .select index => silently (select index)
  | .moveSelection delta => silently (moveSelection delta)
  | .moveEntry delta => silently (moveEntry delta)
  | .toggle index => silently (toggle index)
  | .setEntryRadix radix index => silently (setEntryRadix radix index)
  | .undo => silently undo
  | .redo => silently redo
  | .setRadix given => silently (configure (·.withRadix given))
  | .setPrecision given => silently (configure (·.withPrecision given))
  | .setAngle given => silently (configure (·.withAngle given))
  | .render index radix => .text <$> render index radix
  | .renderStack radix => .texts <$> renderStack radix
  | .size => (fun r => .size r.stack.length) <$> get
  | .get index => (fun entry => .expr entry.expr) <$> entryAt index

/-- Carry out what a lexeme stands for. -/
def feed (l : Lexeme) : Procedure Unit :=
  match Calculator.actionOf? l with
  | none => return ()
  | some a => do
    let _ ← perform a

/-- Carry out lexemes one after the other; if none fails, end as `stop` says. -/
def feedAll (stop : Option Error) : List Lexeme → Procedure Unit
  | [] => compute (stop.elim (.ok ()) .error)
  | l :: ls => do
    feed l
    feedAll stop ls

/-- Carry out a line whose numbers are in the radix `R`, and fail at the place where lexing
stops. -/
def feedLine (R : Radix) (line : String) : Procedure Unit :=
  feedAll (lex R line).2 (lex R line).1

end Procedure
end StackAlgebra
