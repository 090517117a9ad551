import SymbolicAlgebra.Scalar

/-!
# Values

A real number is either plain, a scalar, or *symbolic*: a scalar multiple of a constant
`a ^ b`, `ln a` or `e ^ a` whose arguments are doubles. Keeping the constant apart from
its multiplier is what lets `2π` and `√2` come back out of a calculation as they went in.

`Value.collapse` is the one way in which arithmetic makes a symbolic value: it returns the
plain number whenever the constant has one, so that `2^3`, `ln 1` and `0 * π` never stay
symbolic.
-/

namespace SymbolicAlgebra

/-- A constant with doubles for arguments. -/
inductive Constant where
  /-- `base ^ exponent`. -/
  | power (base exponent : Double)
  /-- The natural logarithm. -/
  | log (argument : Double)
  /-- The exponential. -/
  | exp (argument : Double)
  deriving DecidableEq

namespace Constant

/-- The product of a double and the constant. The logarithm of zero is the negative
infinity and that of a negative number is NaN; an exponential beyond the range of doubles
is infinite with the sign of the factor. -/
def times [Tolerance] (m : Double) : Constant → Double
  | power base exponent => m * Double.power base exponent
  | log a =>
    m * (if a > 0 then a.log else if a.isZero then Double.infinity true else Double.notANumber)
  | exp a =>
    if a.isFinite && a.exp.isInfinite then Double.infinity m.isNegative else m * a.exp

/-- Whether two constants are of one kind and their arguments equal up to the
tolerance. -/
def same [Tolerance] : Constant → Constant → Bool
  | power a b, power c d => Double.approxEq a c && Double.approxEq b d
  | log a, log b => Double.approxEq a b
  | exp a, exp b => Double.approxEq a b
  | _, _ => false

end Constant

/-- A real number. -/
inductive Value where
  /-- A scalar. -/
  | plain (s : Scalar)
  /-- A scalar multiple of a constant. -/
  | symbolic (mult : Scalar) (c : Constant)
  deriving DecidableEq

namespace Value

/-- An exact fraction as a value. -/
def exact (q : Fraction) : Value := plain (.exact q)

/-- An integer as a value. -/
def ofInt (n : Int) : Value := plain (.ofInt n)

/-- A double as a value. -/
def ofDouble (v : Double) : Value := plain (.ofDouble v)

/-- Zero. -/
def zero : Value := ofInt 0

/-- One. -/
def one : Value := ofInt 1

/-- One half. -/
def half : Value := exact (.halves 1)

/-- The circle constant, `π ^ 1`. -/
def pi : Value := symbolic .one (.power Double.pi 1)

/-- The base of the natural logarithm, `e ^ 1`. -/
def e : Value := symbolic .one (.exp 1)

/-- The golden ratio, `φ ^ 1`. -/
def phi : Value := symbolic .one (.power Double.phi 1)

/-- Half the square root of two. -/
def halfRootTwo : Value := symbolic (.exact (.halves 1)) (.power 2 0.5)

/-- Half the square root of three. -/
def halfRootThree : Value := symbolic (.exact (.halves 1)) (.power 3 0.5)

section

variable [Tolerance] [Exactness]

/-- The nearest double. -/
def toDouble : Value → Calc Double
  | plain s => s.toDouble
  | symbolic mult c => return c.times (← mult.toDouble)

/-- The scalar that a value counts as where no constant is kept: itself if it is plain,
and else its double. -/
def toScalar : Value → Calc Scalar
  | plain s => pure s
  | v => return .ofDouble (← v.toDouble)

/-- Whether the value is zero. -/
def isZero : Value → Calc Bool
  | plain s => pure s.isZero
  | v => return (← v.toDouble).isZero

/-- Whether the value is neither infinite nor NaN. -/
def isFinite (v : Value) : Calc Bool := return (← v.toDouble).isFinite

/-- Whether the value is an integer. -/
def isInt : Value → Calc Bool
  | plain s => pure s.isInt
  | v => return Double.isIntegral (← v.toDouble)

/-- The sign, `-1`, `0` or `1`. -/
def sgn : Value → Calc Int
  | plain s => pure s.sgn
  | v => return Double.sign (← v.toDouble)

/-- Equality. Fractions, and multiples of one constant, are compared by exact means where
they can be; all else is equal up to the tolerance. -/
def same : Value → Value → Calc Bool
  | plain a, plain b => a.same b
  | a@(symbolic m c), b@(symbolic n d) =>
    if c.same d then m.same n
    else return Double.approxEq (← a.toDouble) (← b.toDouble)
  | a, b => return Double.approxEq (← a.toDouble) (← b.toDouble)

/-- The comparison of two values: `0` if they are equal, and else `-1` or `1` by their
doubles. -/
def compare (a b : Value) : Calc Int := do
  if ← a.same b then pure 0
  else if (← a.toDouble) < (← b.toDouble) then pure (-1)
  else pure 1

/-- The fraction whose power with an integer exponent is computed exactly, if the base is
one: the base has no name, a convergent equals it on the bit, and the power is not too
wide. -/
def wholeBase? (base exponent : Double) : Calc (Option Fraction) := do
  if Double.isIntegral exponent && !Double.isNamed base then
    match ← Scalar.recover? (Double.snap base) with
    | some (.exact q) =>
      if (← q.toDouble).equals base &&
          (Double.toInt exponent).natAbs * q.bitWidth ≤ Fraction.powerLimit then
        pure (some q)
      else pure none
    | _ => pure none
  else pure none

/-- A scalar multiple of a constant in its simplest form. -/
def collapse (mult : Scalar) (c : Constant) : Calc Value :=
  if mult.isZero then pure zero
  else match c with
    | .power base exponent =>
      if exponent.isZero || base.equals 1 then pure (plain mult)
      else do
        match ← wholeBase? base exponent with
        | some q => return plain (← mult.mul (← Scalar.wholePower q (Double.toInt exponent)))
        | none => pure (symbolic mult c)
    | .exp a => if a.isZero then pure (plain mult) else pure (symbolic mult c)
    | .log a =>
      if a.equals 1 then pure zero
      else if Double.approxEq a Double.e then pure (plain mult)
      else pure (symbolic mult c)

end

end Value

end SymbolicAlgebra
