import SymbolicAlgebra.Term.Basic
import SymbolicAlgebra.Rewrite.Combine

/-!
# Exchange of expressions with terms

`Term.ofExpr` writes an expression as a term. A number becomes the sum of its parts, the
imaginary one times the imaginary unit, and a monomial the product of its coefficient and a
power. `Term.toExpr` reads a term back and combines on the way, so the expression comes out
simplified. Symbols have to be single letters, and a function or atom that expressions do
not have is refused.

How the system that terms are exchanged with prints them is not part of this library; it is given
as a `Printer`.
-/

namespace SymbolicAlgebra

/-- The texts that a computer algebra system makes. It evaluates what it is handed while it builds
its own terms of it, and prints them in its own way. -/
class Printer where
  /-- The text of a term that stays as it is. -/
  term (t : Term) : String
  /-- The text of what it makes of an expression, if it makes anything of it. -/
  expr (t : Expr) : Calc String

namespace Printer

/-- No system: terms are shown plainly, and for expressions there is no text. -/
@[reducible] def absent : Printer := ⟨Term.plainText, fun _ => throw .noPrinter⟩

instance : Printer := absent

end Printer

namespace Term

/-! ## From expressions -/

/-- The base of a power, with the atom for a double that has a name. -/
def ofBase (v : Double) : Term :=
  if v.equals Double.pi then atom .pi
  else if v.equals Double.e then atom .e
  else if v.equals Double.phi then atom .goldenRatio
  else ofArgument v

/-- A constant as a term. -/
def ofConstant : Constant → Term
  | .power base exponent => power (ofBase base) (ofArgument exponent)
  | .log a => function .ln (ofArgument a)
  | .exp a => function .exp (ofArgument a)

/-- A scalar as a term; fractions are in lowest terms. -/
def ofScalar : Scalar → Term
  | .exact q => rational q.reduced
  | .approx v => ofDouble v

/-- A value as a term. -/
def ofValue : Value → Term
  | .plain s => ofScalar s
  | .symbolic m c => times (ofScalar m) (ofConstant c)

/-- A number as a term: the sum of its parts. -/
def ofNumber (z : Number) : Term :=
  plus (ofValue z.re) (times (ofValue z.im) (atom .imaginaryUnit))

/-- A leaf as a term. -/
def ofLeaf : Leaf → Term
  | .number z => ofNumber z
  | .monomial name mult p => times (ofNumber mult) (power (symbol name) (ofValue p))

/-- A sum, difference, product or quotient of two terms. NaN in front absorbs an equation
like anything else. -/
def calculate (f : Term → Term → Term) (a b : Term) : Calc Term := do
  if a.isNaN then pure a
  else
    let _ ← operands [a, b]
    pure (f a b)

/-- An operator between two terms. -/
def ofBinary : Binary → Term → Term → Calc Term
  | .equals, a, b => pure (equation a b)
  | .add, a, b => calculate plus a b
  | .sub, a, b => calculate minus a b
  | .mul, a, b => calculate times a b
  | .div, a, b => calculate dividedBy a b
  | .pow, a, b => ofPower a b

/-- An expression as a term. What stands beside a parenthesis is taken for base and exponent
of a power. -/
def ofExpr : Expr → Calc Term
  | .absent => throw .noOperand
  | .leaf a => pure (ofLeaf a)
  | .node (.binary op) l r => do ofBinary op (← ofExpr l) (← ofExpr r)
  | .node .factorial t _ => return factorial (← ofExpr t)
  | .node (.function f) _ t => return function f (← ofExpr t)
  | .node _ l r => do ofPower (← ofExpr l) (← ofExpr r)

/-! ## To expressions -/

variable [Tolerance] [Exactness] [Printer]

/-- The expression of an atom. -/
def atomExpr (a : Atom) : Calc Expr :=
  match a with
  | .pi => pure (.number .pi)
  | .e => pure (.number .e)
  | .goldenRatio => pure (.number .phi)
  | .imaginaryUnit => pure (.number .i)
  | .infinity => pure (.number (.ofValue (.ofDouble (Double.infinity false))))
  | .negativeInfinity => pure (.number (.ofValue (.ofDouble (Double.infinity true))))
  | .nan => pure (.number (.ofValue (.ofDouble Double.notANumber)))
  | .complexInfinity | .eulerGamma | .truth => throw (.notATree a.kind a.text)

/-- The expression of a symbol, which has to be one letter. -/
def symbolExpr (name : String) : Calc Expr :=
  if name.length = 1 then pure (.ofName name) else throw (.longName name)

mutual

/-- The expression of a term. -/
def toExpr : Term → Calc Expr
  | rational q => return .number (.ofValue (.plain (← Scalar.reduce q)))
  | float v => pure (.number (.ofValue (.ofDouble v)))
  | symbol name => symbolExpr name
  | atom a => atomExpr a
  | sum [] => pure .zero
  | sum (t :: ts) => do combineAll .add (← toExpr t) ts
  | product [] => pure .one
  | product (t :: ts) => do combineAll .mul (← toExpr t) ts
  | power b e => do Expr.combine .pow (← toExpr b) (← toExpr e)
  | equation l r => do Expr.combine .equals (← toExpr l) (← toExpr r)
  | function f t => return .apply f (← toExpr t)
  | factorial t => return .factorial (← toExpr t)
  | other name t => throw (.notATree name (Printer.term (other name t)))

/-- Combine an expression with those of several terms, from left to right. -/
def combineAll (op : Binary) (acc : Expr) : List Term → Calc Expr
  | [] => pure acc
  | t :: ts => do combineAll op (← Expr.combine op acc (← toExpr t)) ts

end

end Term

end SymbolicAlgebra
