import SymbolicAlgebra.CommandLine.Options
import SymbolicAlgebra.CommandLine.Run
import SymbolicAlgebra.CommandLine.Session
import SymbolicAlgebra.Definition
import SymbolicAlgebra.Derivative
import SymbolicAlgebra.Double.Basic
import SymbolicAlgebra.Double.Decimal
import SymbolicAlgebra.Double.Tolerance
import SymbolicAlgebra.Eval
import SymbolicAlgebra.Expr.Basic
import SymbolicAlgebra.Expr.Display
import SymbolicAlgebra.Expr.Read
import SymbolicAlgebra.Failure
import SymbolicAlgebra.Fraction
import SymbolicAlgebra.Main
import SymbolicAlgebra.Number.Basic
import SymbolicAlgebra.Number.Display
import SymbolicAlgebra.Number.Functions
import SymbolicAlgebra.Number.Polar
import SymbolicAlgebra.Op
import SymbolicAlgebra.Parser
import SymbolicAlgebra.Proofs.Combine.Built
import SymbolicAlgebra.Proofs.Combine.Calls
import SymbolicAlgebra.Proofs.Combine.Cancel
import SymbolicAlgebra.Proofs.Combine.Depth
import SymbolicAlgebra.Proofs.Combine.Formed
import SymbolicAlgebra.Proofs.Combine.Full
import SymbolicAlgebra.Proofs.Combine.Kept
import SymbolicAlgebra.Proofs.Combine.Leaves
import SymbolicAlgebra.Proofs.Combine.Quantity
import SymbolicAlgebra.Proofs.Combine.Rounds
import SymbolicAlgebra.Proofs.Combine.Shape
import SymbolicAlgebra.Proofs.Combine.Size
import SymbolicAlgebra.Proofs.Combine.Sound
import SymbolicAlgebra.Proofs.CommandLine
import SymbolicAlgebra.Proofs.Derivative.Absent
import SymbolicAlgebra.Proofs.Derivative.Formed
import SymbolicAlgebra.Proofs.Derivative.Real
import SymbolicAlgebra.Proofs.Derivative.Sound
import SymbolicAlgebra.Proofs.Display.Exact
import SymbolicAlgebra.Proofs.Display.Leaves
import SymbolicAlgebra.Proofs.Display.Sound
import SymbolicAlgebra.Proofs.Equality
import SymbolicAlgebra.Proofs.Exact.Calculation
import SymbolicAlgebra.Proofs.Exact.Double
import SymbolicAlgebra.Proofs.Exact.Fraction
import SymbolicAlgebra.Proofs.Exact.Nearest
import SymbolicAlgebra.Proofs.Exact.Number
import SymbolicAlgebra.Proofs.Exact.Order
import SymbolicAlgebra.Proofs.Exact.Powers
import SymbolicAlgebra.Proofs.Exact.Product
import SymbolicAlgebra.Proofs.Exact.Angles
import SymbolicAlgebra.Proofs.Exact.Range
import SymbolicAlgebra.Proofs.Exact.Roots
import SymbolicAlgebra.Proofs.Exact.Rounding
import SymbolicAlgebra.Proofs.Exact.Scalar
import SymbolicAlgebra.Proofs.Exchange
import SymbolicAlgebra.Proofs.Failures.Evaluation
import SymbolicAlgebra.Proofs.Failures.Numbers
import SymbolicAlgebra.Proofs.Meaning
import SymbolicAlgebra.Proofs.Parse.Exact
import SymbolicAlgebra.Proofs.Parse.Failures
import SymbolicAlgebra.Proofs.Parse.Lossless
import SymbolicAlgebra.Proofs.Parse.Operands
import SymbolicAlgebra.Proofs.Parse.Peephole
import SymbolicAlgebra.Proofs.Powers
import SymbolicAlgebra.Proofs.Reading
import SymbolicAlgebra.Proofs.Signs.Double
import SymbolicAlgebra.Proofs.Signs.Number
import SymbolicAlgebra.Proofs.Simplify.Failures
import SymbolicAlgebra.Proofs.Simplify.Formed
import SymbolicAlgebra.Proofs.Simplify.Fractions
import SymbolicAlgebra.Proofs.Simplify.Passes
import SymbolicAlgebra.Proofs.Simplify.Size
import SymbolicAlgebra.Proofs.Simplify.Sound
import SymbolicAlgebra.Proofs.Reduced
import SymbolicAlgebra.Proofs.Variables
import SymbolicAlgebra.Proofs.Width
import SymbolicAlgebra.Rewrite.Combine
import SymbolicAlgebra.Rewrite.Fractions
import SymbolicAlgebra.Rewrite.Leaves
import SymbolicAlgebra.Scalar
import SymbolicAlgebra.Settings
import SymbolicAlgebra.Simplify
import SymbolicAlgebra.Term.Basic
import SymbolicAlgebra.Term.Exchange
import SymbolicAlgebra.Text.Characters
import SymbolicAlgebra.Text.Printable
import SymbolicAlgebra.Text.Quoted
import SymbolicAlgebra.Token.Basic
import SymbolicAlgebra.Token.Lexer
import SymbolicAlgebra.Value.Arithmetic
import SymbolicAlgebra.Value.Basic
import SymbolicAlgebra.Value.Display
import SymbolicAlgebra.Proofs.Combine.Sums
import SymbolicAlgebra.Proofs.Combine.LikeTerms
import SymbolicAlgebra.Proofs.Derivative.Roots
import SymbolicAlgebra.Proofs.CommandLine.Lines
import SymbolicAlgebra.Proofs.Display.Doubles
import SymbolicAlgebra.Proofs.Exact.Machine
import SymbolicAlgebra.Proofs.Exact.Quotients
import SymbolicAlgebra.Proofs.Exact.Closeness
import SymbolicAlgebra.Proofs.Exact.Expansion
import SymbolicAlgebra.Proofs.Exact.Convergents
import SymbolicAlgebra.Proofs.Exact.Recovery
import SymbolicAlgebra.Proofs.Exact.Squares
