import SymbolicAlgebra.Value.Arithmetic

/-!
# Complex numbers

A `Number` is a pair of values, its real and imaginary part. This file has the field
operations and powers with integer exponents; where a number is real, its product and
quotient are those of the real parts, so exact parts stay exact.

Division by zero is defined for a numerator other than zero: each part of the quotient is
an infinity or zero. Only zero by zero and infinity by infinity are refused.
-/

namespace SymbolicAlgebra

/-- A complex number. -/
structure Number where
  /-- The real part. -/
  re : Value
  /-- The imaginary part. -/
  im : Value
  deriving DecidableEq

namespace Number

/-- A real number. -/
def ofValue (v : Value) : Number := ⟨v, .zero⟩

/-- An integer. -/
def ofInt (n : Int) : Number := ofValue (.ofInt n)

/-- Zero. -/
def zero : Number := ofInt 0

/-- One. -/
def one : Number := ofInt 1

/-- The imaginary unit. -/
def i : Number := ⟨.zero, .one⟩

/-- The circle constant. -/
def pi : Number := ofValue .pi

/-- The base of the natural logarithm. -/
def e : Number := ofValue .e

/-- The golden ratio. -/
def phi : Number := ofValue .phi

variable [Tolerance] [Exactness]

/-- Whether the imaginary part is zero. -/
def isReal (z : Number) : Calc Bool := z.im.isZero

/-- Whether the number is zero. -/
def isZero (z : Number) : Calc Bool := Calc.both z.re.isZero z.im.isZero

/-- Whether the real part is zero and the imaginary part is not. -/
def isImaginary (z : Number) : Calc Bool := Calc.both z.re.isZero (not <$> z.im.isZero)

/-- Whether both parts are finite. -/
def isFinite (z : Number) : Calc Bool := Calc.both z.re.isFinite z.im.isFinite

/-- Whether the number is a real integer. -/
def isInt (z : Number) : Calc Bool := Calc.both z.im.isZero z.re.isInt

/-- Whether two numbers are equal in both parts. -/
def same (z w : Number) : Calc Bool := Calc.both (z.re.same w.re) (z.im.same w.im)

/-- The sign of the leading part: the real one, unless it is zero. -/
def sgn (z : Number) : Calc Int := do
  if ← z.re.isZero then z.im.sgn else z.re.sgn

/-- The opposite. -/
def neg (z : Number) : Calc Number := return ⟨← z.re.neg, ← z.im.neg⟩

/-- The conjugate. -/
def conj (z : Number) : Calc Number := return ⟨z.re, ← z.im.neg⟩

/-- The sum. -/
def add (z w : Number) : Calc Number := return ⟨← z.re.add w.re, ← z.im.add w.im⟩

/-- The difference. -/
def sub (z w : Number) : Calc Number := return ⟨← z.re.sub w.re, ← z.im.sub w.im⟩

/-- The product. A real factor multiplies both parts of the other one. -/
def mul (z w : Number) : Calc Number := do
  if ← w.isReal then return ⟨← z.re.mul w.re, ← z.im.mul w.re⟩
  else if ← z.isReal then return ⟨← w.re.mul z.re, ← w.im.mul z.re⟩
  else
    return ⟨← (← z.re.mul w.re).sub (← z.im.mul w.im),
      ← (← z.re.mul w.im).add (← z.im.mul w.re)⟩

/-- A part of a number over zero: zero, or the infinity of its sign. -/
def partOverZero (v : Value) : Calc Value := do
  if ← v.isZero then pure .zero
  else .plain <$> Scalar.approximate do return Double.infinity (← v.toDouble).isNegative

/-- The quotient. -/
def div (z w : Number) : Calc Number := do
  if ← w.isZero then
    if ← z.isZero then throw (.undefined .zeroByZero)
    else return ⟨← partOverZero z.re, ← partOverZero z.im⟩
  else if !(← w.isFinite) then
    if !(← z.isFinite) then throw (.undefined .infinityByInfinity) else pure zero
  else if ← w.isReal then return ⟨← z.re.div w.re, ← z.im.div w.re⟩
  else
    let d ← (← w.re.mul w.re).add (← w.im.mul w.im)
    let n ← z.mul (← w.conj)
    return ⟨← n.re.div d, ← n.im.div d⟩

/-- `acc * base ^ n` by repeated squaring, from the lowest bit of `n` up. -/
def powFrom (acc base : Number) (n : Nat) : Calc Number := do
  if h : n = 0 then pure acc
  else
    let acc ← if n % 2 = 1 then acc.mul base else pure acc
    if n / 2 = 0 then pure acc
    else powFrom acc (← base.mul base) (n / 2)
termination_by n
decreasing_by omega

/-- A natural power. -/
def powNat (z : Number) (n : Nat) : Calc Number := powFrom one z n

/-- An integer power; a negative one is the reciprocal of the positive. -/
def powInt (z : Number) (n : Int) : Calc Number := do
  if n < 0 then one.div (← z.powNat n.natAbs) else z.powNat n.natAbs

end Number

end SymbolicAlgebra
