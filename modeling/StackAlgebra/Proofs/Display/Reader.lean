import StackAlgebra.Canonical.Sum
import StackAlgebra.Proofs.Display.Text
import StackAlgebra.Proofs.Termination.Budget

/-!
# Reading displayed expressions

A reader for the notation of exact display, by recursive descent: `readFull` reads an expression and
leaves the text behind it. What a fraction shows is put together again by `Quotient.value`, and what
signed terms show by `totalOf`; both sort what they are given, since the display takes factors and
terms out of their order. A word with digits of the radix only is a number, and any other is a
constant if it is the symbol of one, else a variable. The reader runs within a budget, of which each
call spends one unit.
-/

namespace StackAlgebra.Display

open Budgeted (spent known)
open StackAlgebra.Expr (num coefficientOf nonNumbers)

/-! ## What is put together -/

/-- The reciprocal of a factor that stands below a bar. -/
def reciprocal : Expr → Expr
  | .power b (.num q) => .power b (num (-q))
  | e => .power e (num (-1))

/-- The expression that a fraction shows. -/
def Quotient.value (v : Quotient) : Expr :=
  let c := (if v.negative then -1 else 1) * coefficientOf v.top / coefficientOf v.bottom
  let fs := nonNumbers v.top ++ (nonNumbers v.bottom).map reciprocal
  Canonical.collapse (if c = 1 then fs else num c :: fs)

/-- The expression that terms show. -/
def totalOf : List Expr → Expr
  | [t] => t
  | ts => .sum (Expr.sort ts)

/-! ## Marks and words -/

/-- The text does not go on as it has to. -/
def stuck {α : Type} (cs : List Char) : Budgeted α :=
  known (.error (.unlexable (String.ofList cs)))

/-- The text behind a mark, if it begins with it. -/
def after? (mark cs : List Char) : Option (List Char) :=
  mark.isPrefixOf? cs

/-- The text behind a mark that has to stand there. -/
def expect (mark cs : List Char) : Budgeted (List Char) :=
  match after? mark cs with
  | some cs => pure cs
  | none => stuck cs

/-- The text behind the sign of a further term, and whether it is a minus. -/
def splitTermSign : List Char → Option (Bool × List Char)
  | '+' :: cs => some (false, cs)
  | '-' :: cs => some (true, cs)
  | _ => none

/-- The character stands in words or numbers. -/
def isToken (c : Char) : Bool :=
  isWord c || c == '.'

/-- What a word or number stands for. -/
def readToken (R : Radix) (w : List Char) : Budgeted Expr :=
  if w = [] then stuck w
  else if w.all fun c => R.isDigit c || c == '.' then num <$> known (R.readNumeral w)
  else
    match Constant.all.find? (·.symbol = String.ofList w) with
    | some c => pure (.const c)
    | none => pure (.var (String.ofList w))

/-- The function of this name applied to an expression. -/
def callOf? (name : String) (x : Expr) : Option Expr :=
  if name = "sqrt" then some (.power x (num (1 / 2)))
  else if name = "cbrt" then some (.power x (num (1 / 3)))
  else if name = "ln" then some (.log x (.const .euler))
  else (AngleFunction.all.find? (·.name = name)).map fun f => .angle f x (some "rad")

/-- Close a parenthesis behind an expression. A measure may stand in front of it, if the expression
is a function of an angle. -/
def close (e : Expr) (cs : List Char) : Budgeted (Expr × List Char) :=
  match after? [' '] cs, e with
  | none, e => do
    let cs ← expect [')'] cs
    pure (e, cs)
  | some cs, .angle f x _ => do
    let rest ← expect [')'] (cs.dropWhile isToken)
    pure (.angle f x (some (String.ofList (cs.takeWhile isToken))), rest)
  | some cs, _ => stuck cs

/-! ## The reader -/

variable (R : Radix)

mutual
/-- An expression: a remainder, or terms with their signs. -/
def readFull : Nat → List Char → Budgeted (Expr × List Char)
  | 0, _ => spent
  | n + 1, cs => do
    let (t, cs) ← readTerm n (Radix.splitSign cs)
    let (ts, cs) ← readTerms n cs
    match after? [' ', 'm', 'o', 'd', ' '] cs with
    | none => pure (totalOf (t :: ts), cs)
    | some cs => do
      let (d, cs) ← readAtom n cs
      pure (.mod (totalOf (t :: ts)) d, cs)

/-- Further terms behind the first one. -/
def readTerms : Nat → List Char → Budgeted (List Expr × List Char)
  | 0, _ => spent
  | n + 1, cs =>
    match splitTermSign cs with
    | none => pure ([], cs)
    | some signed => do
      let (t, cs) ← readTerm n signed
      let (ts, cs) ← readTerms n cs
      pure (t :: ts, cs)

/-- A fraction behind its sign. -/
def readTerm : Nat → Bool × List Char → Budgeted (Expr × List Char)
  | 0, _ => spent
  | n + 1, (negative, cs) => do
    let (f, cs) ← readFactor n cs
    let (fs, cs) ← readFactors n cs
    let (gs, cs) ← readBottom n cs
    pure (Quotient.value ⟨negative, f :: fs, gs⟩, cs)

/-- Further factors behind the first one. -/
def readFactors : Nat → List Char → Budgeted (List Expr × List Char)
  | 0, _ => spent
  | n + 1, cs =>
    match after? ['·'] cs with
    | none => pure ([], cs)
    | some cs => do
      let (f, cs) ← readFactor n cs
      let (fs, cs) ← readFactors n cs
      pure (f :: fs, cs)

/-- The factors below a bar. A product there stands for its factors. -/
def readBottom : Nat → List Char → Budgeted (List Expr × List Char)
  | 0, _ => spent
  | n + 1, cs =>
    match after? ['/'] cs with
    | none => pure ([], cs)
    | some cs => do
      let (g, cs) ← readFactor n cs
      pure (g.factors, cs)

/-- A factor, with its exponent if it has one. -/
def readFactor : Nat → List Char → Budgeted (Expr × List Char)
  | 0, _ => spent
  | n + 1, cs => do
    let (b, cs) ← readAtom n cs
    match after? ['^'] cs with
    | none => pure (b, cs)
    | some cs => do
      let (x, cs) ← readFactor n cs
      pure (.power b x, cs)

/-- An expression in parentheses or bars, a word, a number or a call. -/
def readAtom : Nat → List Char → Budgeted (Expr × List Char)
  | 0, _ => spent
  | n + 1, cs =>
    match after? ['('] cs, after? ['|'] cs with
    | some cs, _ => do
      let (e, cs) ← readFull n cs
      close e cs
    | none, some cs => do
      let (x, cs) ← readFull n cs
      let cs ← expect ['|'] cs
      pure (.unary .abs x, cs)
    | none, none =>
      let name := cs.takeWhile isToken
      let rest := cs.dropWhile isToken
      match after? ['('] rest with
      | none => do
        let e ← readToken R name
        pure (e, rest)
      | some cs => readCall n (String.ofList name) cs

/-- A function called on what stands in the parentheses behind its name. -/
def readCall : Nat → String → List Char → Budgeted (Expr × List Char)
  | 0, _, _ => spent
  | n + 1, name, cs => do
    let (x, cs) ← readFull n cs
    if name = "log" then do
      let cs ← expect [')', '('] cs
      let (y, cs) ← readFull n cs
      close (.log y x) cs
    else
      match callOf? name x with
      | none => stuck cs
      | some e => close e cs
end

/-- Read a whole text. -/
def read (n : Nat) (cs : List Char) : Budgeted Expr := do
  let (e, rest) ← readFull R n cs
  if rest = [] then pure e else stuck rest

end StackAlgebra.Display
