import SymbolicAlgebra.Expr.Basic

/-!
# Evaluation

The value of an expression when its variables have values. An equation evaluates to the
difference of its sides. A variable without a value is a failure; so is every undefined
operation on the way, and `Expr.fold?` turns those of a constant expression into the
answer that it cannot be folded.
-/

namespace SymbolicAlgebra

/-- Values of variables. -/
abbrev Bindings := List (String × Number)

/-- The value of a variable. -/
def Bindings.find? (bindings : Bindings) (name : String) : Option Number :=
  bindings.lookup name

variable [Tolerance] [Exactness]

/-- The operation on numbers that an operator stands for. -/
def Binary.evaluate : Binary → Number → Number → Calc Number
  | .equals => Number.sub
  | .add => Number.add
  | .sub => Number.sub
  | .mul => Number.mul
  | .div => Number.div
  | .pow => Number.pow

/-- The function on numbers that a named function stands for. -/
def Func.evaluate : Func → Number → Calc Number
  | .ln => Number.ln
  | .exp => Number.exp
  | .abs => Number.abs
  | .sin => Number.sin
  | .cos => Number.cos
  | .tan => Number.tan
  | .asin => Number.asin
  | .acos => Number.acos
  | .atan => Number.atan
  | .sinh => Number.sinh
  | .cosh => Number.cosh
  | .tanh => Number.tanh
  | .asinh => Number.asinh
  | .acosh => Number.acosh
  | .atanh => Number.atanh

/-- The value of a leaf. -/
def Leaf.evaluate (bindings : Bindings) : Leaf → Calc Number
  | .number z => pure z
  | .monomial name mult power =>
    match bindings.find? name with
    | some v => do mult.mul (← v.pow (.ofValue power))
    | none => throw (.unbound name)

namespace Expr

/-- The value of an expression. -/
def evaluate (bindings : Bindings) : Expr → Calc Number
  | absent => throw .noOperand
  | leaf a => a.evaluate bindings
  | node (.binary op) l r => do op.evaluate (← evaluate bindings l) (← evaluate bindings r)
  | node .factorial t _ => do (← evaluate bindings t).factorial
  | node (.function f) _ t => do f.evaluate (← evaluate bindings t)
  | node _ _ _ => throw .noOperation

/-- Whether a failure only means that a constant has no value. -/
def passesFold (f : Failure) : Bool := f.isArithmetic || f.isIncompatible || f.isValue

/-- Whether neither part of a number is NaN. -/
def hasNoNaN (z : Number) : Calc Bool :=
  Calc.both (return !(← z.re.toDouble).isNaN) (return !(← z.im.toDouble).isNaN)

/-- The number that a constant expression stands for, if it has one. -/
def fold? (t : Expr) : Calc (Option Number) := do
  let t ← t.present
  if !t.isConst then pure none
  else match evaluate [] t with
    | .ok z => return if ← hasNoNaN z then some z else none
    | .error f => if passesFold f then pure none else throw f

end Expr

end SymbolicAlgebra
