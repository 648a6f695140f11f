import StackAlgebra.Text.CharRange
import StackAlgebra.Text.Word
import StackAlgebra.Text.Decimal
import StackAlgebra.Text.Blank
import StackAlgebra.Text.Printable
import StackAlgebra.Text.Quoted
import StackAlgebra.Number.Root
import StackAlgebra.Number.Division
import StackAlgebra.Number.Double
import StackAlgebra.Radix.Basic
import StackAlgebra.Radix.Digits
import StackAlgebra.Number.Shortest
import StackAlgebra.Setting
import StackAlgebra.Error
import StackAlgebra.Constant
import StackAlgebra.Angle
import StackAlgebra.Radix.Choice
import StackAlgebra.Radix.Writer
import StackAlgebra.Radix.Reader
import StackAlgebra.Expr.Basic
import StackAlgebra.Expr.Key
import StackAlgebra.Expr.Text
import StackAlgebra.Canonical.Measure
import StackAlgebra.Canonical.Group
import StackAlgebra.Canonical.Sum
import StackAlgebra.Canonical.Traverse
import StackAlgebra.Canonical.Factor
import StackAlgebra.Canonical.Product
import StackAlgebra.Number.Logarithm
import StackAlgebra.Canonical.SpecialAngle
import StackAlgebra.Canonical.Function
import StackAlgebra.Canonical.Simplify
import StackAlgebra.Operator
import StackAlgebra.Approximation
import StackAlgebra.Display.Term
import StackAlgebra.Display.Layout
import StackAlgebra.Display.Render
import StackAlgebra.Config
import StackAlgebra.Lexer.Pattern
import StackAlgebra.Lexer.Lexeme
import StackAlgebra.Calculator.Command
import StackAlgebra.Calculator.History
import StackAlgebra.Calculator.State
import StackAlgebra.Calculator.Input
import StackAlgebra.Calculator.Action
import StackAlgebra.Calculator.Line
import StackAlgebra.CommandLine.Switch
import StackAlgebra.CommandLine.Request
import StackAlgebra.CommandLine.Session
import StackAlgebra.Main
import StackAlgebra.Proofs.Expr.KeyOrder
import StackAlgebra.Proofs.Expr.Subexpression
import StackAlgebra.Proofs.Expr.Order
import StackAlgebra.Proofs.Canonical.Group
import StackAlgebra.Proofs.Canonical.Descent
import StackAlgebra.Proofs.Number.Root
import StackAlgebra.Proofs.NormalForm.Basic
import StackAlgebra.Proofs.NormalForm.Settled
import StackAlgebra.Proofs.NormalForm.Sum
import StackAlgebra.Proofs.NormalForm.NumberPower
import StackAlgebra.Proofs.NormalForm.Factor
import StackAlgebra.Proofs.NormalForm.Product
import StackAlgebra.Proofs.NormalForm.Function
import StackAlgebra.Proofs.NormalForm.Simplify
import StackAlgebra.Proofs.NormalForm.Bulk
import StackAlgebra.Proofs.NormalForm.Idempotence
import StackAlgebra.Proofs.NormalForm.Reordering
import StackAlgebra.Proofs.Value.Evaluation
import StackAlgebra.Proofs.Value.Sum
import StackAlgebra.Proofs.Value.Product
import StackAlgebra.Proofs.Value.Soundness
import StackAlgebra.Proofs.Calculator.Registers
import StackAlgebra.Proofs.Calculator.Edit
import StackAlgebra.Proofs.Calculator.Execution
import StackAlgebra.Proofs.Calculator.Perform
import StackAlgebra.Proofs.Calculator.Invariant
import StackAlgebra.Proofs.Calculator.Failure
import StackAlgebra.Proofs.Calculator.UndoRedo
import StackAlgebra.Proofs.NormalForm.Measured
import StackAlgebra.Proofs.NormalForm.Coordinates
import StackAlgebra.Proofs.NormalForm.Multiple
import StackAlgebra.Proofs.Operator.VectorSpace
import StackAlgebra.Proofs.Radix.Digits
import StackAlgebra.Proofs.Radix.RoundTrip
import StackAlgebra.Proofs.NormalForm.Exponents
import StackAlgebra.Proofs.NormalForm.Inverse
import StackAlgebra.Proofs.NormalForm.MergedPower
import StackAlgebra.Proofs.NormalForm.Scaling
import StackAlgebra.Proofs.NormalForm.Associativity
import StackAlgebra.Proofs.Operator.Division
import StackAlgebra.Proofs.Operator.Multiplication
import StackAlgebra.Proofs.Polynomial.Expansion
import StackAlgebra.Proofs.Polynomial.Monomial
import StackAlgebra.Proofs.Polynomial.Completeness
import StackAlgebra.Proofs.Expr.TotalOrder
import StackAlgebra.Proofs.Calculator.Independence
import StackAlgebra.Proofs.Termination.Budget
import StackAlgebra.Proofs.Termination.Procedures
import StackAlgebra.Proofs.Termination.Product
import StackAlgebra.Proofs.Termination.Simplify
import StackAlgebra.Proofs.Display.Text
import StackAlgebra.Proofs.Display.Reader
import StackAlgebra.Proofs.Display.Quotient
import StackAlgebra.Proofs.Display.ReadBack
import StackAlgebra.Proofs.Display.Unambiguous
import StackAlgebra.Proofs.Text.CharRange
import StackAlgebra.Proofs.Radix.Display
import StackAlgebra.Proofs.Radix.Numeral
import StackAlgebra.Proofs.Radix.Refusal
import StackAlgebra.Proofs.Radix.Truncation
import StackAlgebra.Proofs.Calculator.Reentry
import StackAlgebra.Proofs.Lexer.Pattern
import StackAlgebra.Proofs.Lexer.DisplayedNumber
import StackAlgebra.Proofs.Lexer.NumberLexeme
import StackAlgebra.Proofs.Lexer.Quotation
import StackAlgebra.Proofs.Lexer.Separation
import StackAlgebra.Proofs.Lexer.NameLexeme
import StackAlgebra.Proofs.NormalForm.Rational
import StackAlgebra.Proofs.Approximation.Exact
import StackAlgebra.Proofs.Expr.Renaming
import StackAlgebra.Proofs.Renaming.Sum
import StackAlgebra.Proofs.Renaming.Product
import StackAlgebra.Proofs.Renaming.Function
import StackAlgebra.Proofs.NormalForm.Comparable
import StackAlgebra.Proofs.Renaming.Simplify
import StackAlgebra.Proofs.NormalForm.RationalPower
import StackAlgebra.Proofs.NormalForm.RootMerge
import StackAlgebra.Proofs.NormalForm.IntegerPower
import StackAlgebra.Proofs.NormalForm.PowerSum
import StackAlgebra.Proofs.NormalForm.PowerClash
import StackAlgebra.Proofs.NormalForm.NestedPower
import StackAlgebra.Proofs.NormalForm.ProductBase
import StackAlgebra.Proofs.NormalForm.Sign
import StackAlgebra.Proofs.NormalForm.EvenRoot
import StackAlgebra.Proofs.Operator.Logarithm
import StackAlgebra.Proofs.Operator.Exponentiation
import StackAlgebra.Proofs.Trigonometry.Surd
import StackAlgebra.Proofs.Trigonometry.SpecialAngle
import StackAlgebra.Proofs.Trigonometry.Turn
import StackAlgebra.Proofs.Calculator.Movement
import StackAlgebra.Proofs.Calculator.Application
import StackAlgebra.Proofs.Number.ExactRoot
import StackAlgebra.Proofs.Number.Logarithm
