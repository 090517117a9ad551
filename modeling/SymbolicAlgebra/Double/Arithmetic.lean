import SymbolicAlgebra.Double.Basic

/-!
# Arithmetic of doubles

Numbers calculate as the machine does. What is not a number follows three rules, so that
its sign is determined too:

* an operand that is NaN is the result, the first one before the second (`lift`);
* an operation on numbers that has no result gives the *negative* NaN (`invalid`);
* only to negate, or to take the magnitude, touches the sign of a NaN.

NaN equals nothing and compares with nothing, whatever its sign. Equality of numbers is
`Double.equals`, by which zero equals its opposite; `=` compares the bits.
-/

namespace SymbolicAlgebra

namespace Double

/-- The number that a double holds. -/
def toFloat (v : Double) : Float := Float.ofBits v.bits

/-- NaN without a minus sign, as a text spells it. -/
def notANumber : Double := ⟨0x7ff8000000000000⟩

/-- NaN as the result of an operation that has none. -/
def invalid : Double := ⟨0xfff8000000000000⟩

/-- The double that holds the result of an operation on numbers. -/
def ofFloat (v : Float) : Double := if v.isNaN then invalid else ⟨v.toBits⟩

/-- An operation on two numbers, on doubles: an operand that is NaN is the result. -/
def lift (f : Float → Float → Float) (a b : Double) : Double :=
  if a.isNaN then a
  else if b.isNaN then b
  else ofFloat (f a.toFloat b.toFloat)

/-- A function of a number, on doubles: NaN is its own image. -/
def map (f : Float → Float) (v : Double) : Double :=
  if v.isNaN then v else ofFloat (f v.toFloat)

instance (n : Nat) : OfNat Double n := ⟨ofFloat (Float.ofNat n)⟩

instance : OfScientific Double where
  ofScientific mantissa negative exponent :=
    ofFloat (OfScientific.ofScientific mantissa negative exponent)

instance : Add Double := ⟨lift fun a b => a + b⟩

instance : Sub Double := ⟨lift fun a b => a - b⟩

instance : Mul Double := ⟨lift fun a b => a * b⟩

instance : Div Double := ⟨lift fun a b => a / b⟩

/-- The opposite: the sign bit is turned over. -/
instance : Neg Double := ⟨fun v => ⟨v.bits ^^^ 0x8000000000000000⟩⟩

/-- The magnitude: the sign bit is taken off. -/
def abs (v : Double) : Double := ⟨v.bits &&& 0x7fffffffffffffff⟩

/-! ## Comparison -/

instance : LT Double := ⟨fun a b => a.toFloat < b.toFloat⟩

instance : LE Double := ⟨fun a b => a.toFloat ≤ b.toFloat⟩

instance (a b : Double) : Decidable (a < b) :=
  inferInstanceAs (Decidable (a.toFloat < b.toFloat))

instance (a b : Double) : Decidable (a ≤ b) :=
  inferInstanceAs (Decidable (a.toFloat ≤ b.toFloat))

/-- Whether the double is zero, with either sign. -/
def isZero (v : Double) : Bool := v.magnitude == 0

/-- Equality of numbers: NaN equals nothing, zero equals its opposite, and any other number
itself only. -/
def equals (a b : Double) : Bool :=
  !a.isNaN && !b.isNaN && (a == b || (a.isZero && b.isZero))

/-- The larger of two doubles; the first if they do not compare. -/
def larger (a b : Double) : Double := if a < b then b else a

/-- The sign of a double; NaN has none. -/
def sign (v : Double) : Int := if v > 0 then 1 else if v < 0 then -1 else 0

/-! ## Functions -/

/-- The exponential. -/
def exp : Double → Double := map Float.exp

/-- The natural logarithm. -/
def log : Double → Double := map Float.log

/-- The cosine. -/
def cos : Double → Double := map Float.cos

/-- The sine. -/
def sin : Double → Double := map Float.sin

/-- The hyperbolic cosine. -/
def cosh : Double → Double := map Float.cosh

/-- The hyperbolic sine. -/
def sinh : Double → Double := map Float.sinh

/-- The angle of the point `(x, y)`. It has no sign to keep if there is no angle. -/
def atan2 (y x : Double) : Double :=
  if y.isNaN || x.isNaN then notANumber else ofFloat (Float.atan2 y.toFloat x.toFloat)

/-- The power. Anything to the power zero is one, and so is one to any power. Anything to the
power one is itself. -/
def pow (x y : Double) : Double :=
  if y.isZero then 1
  else if x.isNaN then x
  else if x.equals 1 then 1
  else if y.equals 1 then x
  else lift Float.pow x y

/-! ## Length of a pair -/

/-- The integer square root of `n`, settled bit by bit from `2 ^ (bits - 1)` down:
a bit is kept when the square does not pass `n`. -/
def rootBits (n : Nat) : Nat → Nat → Nat
  | 0, root => root
  | bit + 1, root =>
    let next := root + Nat.pow 2 bit
    rootBits n bit (if next * next ≤ n then next else root)

/-- The integer square root. -/
def natRoot (n : Nat) : Nat := rootBits n (n.log2 / 2 + 1) 0

/-- The double nearest to `sqrt n * 2 ^ exponent`. Sixty extra bits are taken of the
root, and a last bit tells whether the root was exact, which is all that rounding to
the nearest double can see. -/
def rootScaled (n : Nat) (exponent : Int) : Double :=
  let extra : Nat := 60
  let wide := n * Nat.pow 4 extra
  let root := natRoot wide
  let sticky := if root * root = wide then 0 else 1
  let (a, b) := scale (2 * root + sticky) (exponent - extra - 1)
  (quotient? false a b).getD (infinity false)

/-- The length of the vector `(x, y)`: infinite if a component is, whatever the other
one is, and else the double nearest to the root of the sum of squares. -/
def hypot (x y : Double) : Double :=
  match x.content, y.content with
  | .infinite _, _ => infinity false
  | _, .infinite _ => infinity false
  | .finite _ m e, .finite _ n f =>
    let low := min e f
    let a := m * Nat.pow 2 (e - low).toNat
    let b := n * Nat.pow 2 (f - low).toNat
    rootScaled (a * a + b * b) low
  | _, _ => notANumber

end Double

end SymbolicAlgebra
