import StackAlgebra.Expr.Basic

/-!
# Expressions as constructor calls

`Expr.text` writes a tree unambiguously, as the calls that build it.
-/

namespace StackAlgebra.Expr

mutual
/-- The calls that build an expression. -/
def text : Expr → String
  | num q =>
    if q.den = 1 then "num(" ++ toString q.num ++ ")"
    else "num(Fraction(" ++ toString q.num ++ ", " ++ toString q.den ++ "))"
  | const c => "const(" ++ quoted c.name ++ ")"
  | var x => "var(" ++ quoted x ++ ")"
  | sum ts => "sum_of(" ++ ", ".intercalate (texts ts) ++ ")"
  | product fs => "product_of(" ++ ", ".intercalate (texts fs) ++ ")"
  | power b e => "power(" ++ b.text ++ ", " ++ e.text ++ ")"
  | unary f x => "func(" ++ quoted f.name ++ ", " ++ x.text ++ ")"
  | log x b => "func('log', " ++ x.text ++ ", " ++ b.text ++ ")"
  | mod x d => "func('mod', " ++ x.text ++ ", " ++ d.text ++ ")"
  | angle f x m =>
    let measure := match m with
      | some name => quoted name
      | none => "None"
    "func(" ++ quoted f.name ++ ", " ++ x.text ++ ", " ++ measure ++ ")"

/-- The calls that build several expressions. -/
def texts : List Expr → List String
  | [] => []
  | e :: es => e.text :: texts es
end

end StackAlgebra.Expr
