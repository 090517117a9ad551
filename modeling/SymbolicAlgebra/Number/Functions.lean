import SymbolicAlgebra.Number.Display

/-!
# Functions of complex numbers

Factorial, trigonometric and hyperbolic functions and their inverses. Sine and cosine of a
real number go around the unit circle in polar form, so they are exact at nice angles; the
inverse functions are their formulas in logarithms and square roots.
-/

namespace SymbolicAlgebra

/-- The product of the numbers from one to `n`. -/
def factorialNat : Nat → Nat
  | 0 => 1
  | n + 1 => (n + 1) * factorialNat n

namespace Number

variable [Tolerance] [Exactness]

/-- The magnitude, as a number. -/
def abs (z : Number) : Calc Number := return .ofValue (← z.lengthPow .one)

/-- The largest number whose factorial is a finite double. -/
def factorialLimit : Int := 170

/-- The factorial of a natural number; infinite beyond the range of doubles. -/
def factorial (z : Number) : Calc Number := do
  if !(← z.isInt) then throw (.factorial (← z.text))
  else if (← z.re.sgn) < 0 then throw (.factorial (← z.text))
  else
    let n := Double.roundEven (← z.re.toDouble)
    if n ≤ factorialLimit then
      return .ofValue (.plain (← Scalar.ofQuotient (factorialNat n.toNat) 1))
    else pure (.ofValue (.ofDouble (Double.infinity false)))

/-- Cosine and sine of the real part, as the parts of a number. -/
def circle (z : Number) : Calc Number := fromPolar .one z.re

/-- The sine. -/
def sin (z : Number) : Calc Number := do
  let p ← z.circle
  if ← z.im.isZero then pure (.ofValue p.im)
  else
    let y ← z.im.toDouble
    return ⟨← p.im.mul (.ofDouble y.cosh), ← p.re.mul (.ofDouble y.sinh)⟩

/-- The cosine. -/
def cos (z : Number) : Calc Number := do
  let p ← z.circle
  if ← z.im.isZero then pure (.ofValue p.re)
  else
    let y ← z.im.toDouble
    return ⟨← p.re.mul (.ofDouble y.cosh), ← (← p.im.mul (.ofDouble y.sinh)).neg⟩

/-- The tangent. -/
def tan (z : Number) : Calc Number := do (← z.sin).div (← z.cos)

/-- The hyperbolic sine. -/
def sinh (z : Number) : Calc Number := do
  let x ← z.re.toDouble
  if ← z.im.isZero then
    if ← z.re.isZero then pure zero else pure (.ofValue (.ofDouble x.sinh))
  else
    let p ← fromPolar .one z.im
    return ⟨← p.re.mul (.ofDouble x.sinh), ← p.im.mul (.ofDouble x.cosh)⟩

/-- The hyperbolic cosine. -/
def cosh (z : Number) : Calc Number := do
  let x ← z.re.toDouble
  if ← z.im.isZero then
    if ← z.re.isZero then pure one else pure (.ofValue (.ofDouble x.cosh))
  else
    let p ← fromPolar .one z.im
    return ⟨← p.re.mul (.ofDouble x.cosh), ← p.im.mul (.ofDouble x.sinh)⟩

/-- The hyperbolic tangent. -/
def tanh (z : Number) : Calc Number := do (← z.sinh).div (← z.cosh)

/-- The inverse sine, `-i ln (iz + √(1 - z²))`. -/
def asin (z : Number) : Calc Number := do
  let iz ← i.mul z
  let root ← (← one.sub (← z.mul z)).sqrt
  (← (← iz.add root).ln).mul (← i.neg)

/-- The inverse cosine, `π/2 - asin z`. -/
def acos (z : Number) : Calc Number := do
  (ofValue (← Value.pi.mul .half)).sub (← z.asin)

/-- The inverse tangent, `i/2 (ln (1 - iz) - ln (1 + iz))`. -/
def atan (z : Number) : Calc Number := do
  let iz ← i.mul z
  let below ← (← one.sub iz).ln
  let above ← (← one.add iz).ln
  (← below.sub above).mul ⟨.zero, .half⟩

/-- The inverse hyperbolic sine, `ln (z + √(z² + 1))`. -/
def asinh (z : Number) : Calc Number := do
  (← z.add (← (← (← z.mul z).add one).sqrt)).ln

/-- The inverse hyperbolic cosine, `ln (z + √(z + 1) √(z - 1))`. -/
def acosh (z : Number) : Calc Number := do
  let above ← (← z.add one).sqrt
  let below ← (← z.sub one).sqrt
  (← z.add (← above.mul below)).ln

/-- The inverse hyperbolic tangent, `1/2 (ln (1 + z) - ln (1 - z))`. -/
def atanh (z : Number) : Calc Number := do
  let above ← (← one.add z).ln
  let below ← (← one.sub z).ln
  (← above.sub below).mul (ofValue .half)

end Number

end SymbolicAlgebra
