import StackAlgebra.Display.Term

/-!
# The layout of an expression

An expression is laid out as pieces of text with numbers between them; which radix the numbers are
written in is decided later. Children are put in parentheses where they bind looser than their
parent. In approximate display fractions are written with a point, in exact display with a bar,
which binds like a product.
-/

namespace StackAlgebra.Display

open StackAlgebra.Expr (coefficientOf nodes nodes_le_nodesOf nodes_negated_le nodes_inverted_le
  inverted_of_isInverse)

/-- A part of a displayed expression. -/
inductive Piece where
  | text (s : String)
  | number (q : Rat)

/-- How loosely an expression binds: from zero for what stands by itself to four for negative
numbers. -/
def looseness (approx : Bool) : Expr → Nat
  | .num q => if q < 0 then 4 else if !approx && q.den != 1 then 2 else 0
  | .power b e => if (Expr.power b e).isInverse then 2 else 1
  | .product _ => 2
  | .sum _ => 3
  | _ => 0

/-- A remainder has no place in the order of operations. -/
def isMod : Expr → Bool
  | .mod _ _ => true
  | _ => false

/-- Pieces between two texts. -/
def between (left right : String) (ps : List Piece) : List Piece :=
  .text left :: ps ++ [.text right]

/-- The layout `ps` of `e` as the child of something that binds as tight as `bound`. -/
def enclose (approx : Bool) (bound : Nat) (e : Expr) (ps : List Piece) : List Piece :=
  if bound < looseness approx e || isMod e then between "(" ")" ps else ps

/-- The layouts of factors with dots between them. -/
def dotted (layouts : List (List Piece)) : List Piece :=
  [Piece.text "·"].intercalate layouts

/-- The layouts of signed terms, with a plus between two where the second has no minus. -/
def signed : List (Bool × List Piece) → List Piece
  | [] => []
  | (negative, ps) :: rest =>
    (if negative then [.text "-"] else []) ++ ps ++
      rest.flatMap fun (negative, ps) => .text (if negative then "-" else "+") :: ps

/-- A rational times the factors `top` over the factors `bottom`. The rational is shown unless it is
one and there is something else above the bar; in exact display its denominator goes below. -/
def fraction (approx : Bool) (c : Rat) (top bottom : List (List Piece)) : List Piece :=
  let sign := if c < 0 then [.text "-"] else []
  let c := c.abs
  let whole := if approx then c else (c.num : Rat)
  let top := if whole != 1 || top.isEmpty then [.number whole] :: top else top
  let bottom := if !approx && c.den != 1 then [.number (c.den : Rat)] :: bottom else bottom
  sign ++ dotted top ++
    match bottom with
    | [] => []
    | [ps] => .text "/" :: ps
    | _ => .text "/" :: between "(" ")" (dotted bottom)

/-- The name of the root that an exponent stands for. -/
def rootName? (e : Expr) : Option String :=
  match e with
  | .num q => if q = 1 / 2 then some "sqrt" else if q = 1 / 3 then some "cbrt" else none
  | _ => none

/-- A function applied to a layout. -/
def call (name : String) (ps : List Piece) : List Piece :=
  between (name ++ "(") ")" ps

/-- The name of an angle measure; radians go without saying. -/
def measureText? (m : Option String) : Option String :=
  match m with
  | some name => if name = "rad" then none else some name
  | none => some "None"

/-- An angle function: the measure stands after the angle, be that the operand or the answer. -/
def angleCall (f : AngleFunction) (m : Option String) (ps : List Piece) : List Piece :=
  match measureText? m with
  | none => call f.name ps
  | some name =>
    if f.isInverse then between "(" (" " ++ name ++ ")") (call f.name ps)
    else call f.name (ps ++ [.text (" " ++ name)])

/-- The terms of a sum as they are shown: numbers last. -/
def numbersLast (ts : List Expr) : List Expr :=
  ts.filter (!·.isNum) ++ ts.filter (·.isNum)

/-- The factors shown above the bar. -/
def above (fs : List Expr) : List Expr :=
  fs.filter fun f => !f.isNum && !f.isInverse

/-- The factors shown below the bar. -/
def below (fs : List Expr) : List Expr :=
  fs.filter (·.isInverse)

/-- Moving the numbers to the end adds no terms. -/
theorem mem_numbersLast {t : Expr} {ts : List Expr} (h : t ∈ numbersLast ts) : t ∈ ts := by
  rcases List.mem_append.mp h with h | h <;> exact (List.mem_filter.mp h).1

/-- The layout of an expression. -/
def layout (approx : Bool) : Expr → List Piece
  | .num q => [.number q]
  | .const c => [.text c.symbol]
  | .var x => [.text x]
  | .sum ts =>
    signed <| (numbersLast ts).attach.map fun ⟨t, _ht⟩ =>
      if _hn : t.isNegative then (true, enclose approx 3 t.negated (layout approx t.negated))
      else (false, enclose approx 3 t (layout approx t))
  | .product fs =>
    fraction approx (coefficientOf fs)
      ((above fs).attach.map fun ⟨f, _hf⟩ => enclose approx 2 f (layout approx f))
      ((below fs).attach.map fun ⟨f, _hf⟩ => enclose approx 2 f.inverted (layout approx f.inverted))
  | .power b e =>
    if _h : (Expr.power b e).isInverse then
      fraction approx 1 []
        [enclose approx 2 (Expr.power b e).inverted (layout approx (Expr.power b e).inverted)]
    else
      match rootName? e with
      | some name => call name (layout approx b)
      | none =>
        enclose approx 1 b (layout approx b) ++ .text "^" :: enclose approx 1 e (layout approx e)
  | .unary .abs x => between "|" "|" (layout approx x)
  | .unary f x => call f.name (layout approx x)
  | .log x b =>
    match b with
    | .const .euler => call "ln" (layout approx x)
    | b => call "log" (layout approx b) ++ between "(" ")" (layout approx x)
  | .mod x d =>
    enclose approx 0 x (layout approx x) ++ .text " mod " :: enclose approx 0 d (layout approx d)
  | .angle f x m => angleCall f m (layout approx x)
termination_by e => (e.nodes, if e.isInverse then 1 else 0)
decreasing_by
  · have := nodes_le_nodesOf (mem_numbersLast _ht)
    have := nodes_negated_le _hn
    exact Prod.Lex.left _ _ (by simp only [nodes]; omega)
  · have := nodes_le_nodesOf (mem_numbersLast _ht)
    exact Prod.Lex.left _ _ (by simp only [nodes]; omega)
  · have := nodes_le_nodesOf (List.mem_filter.mp _hf).1
    exact Prod.Lex.left _ _ (by simp only [nodes]; omega)
  · have := nodes_le_nodesOf (List.mem_filter.mp _hf).1
    have := nodes_inverted_le f
    exact Prod.Lex.left _ _ (by simp only [nodes]; omega)
  · -- An inverse is shown through its reciprocal, which is smaller or no inverse.
    rcases inverted_of_isInverse _h with h | ⟨h, h'⟩
    · exact Prod.Lex.left _ _ h
    · rw [h, h', _h]
      exact Prod.Lex.right _ (by decide)
  all_goals exact Prod.Lex.left _ _ (by simp only [nodes]; omega)

end StackAlgebra.Display
