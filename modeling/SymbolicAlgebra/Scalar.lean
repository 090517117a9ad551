import SymbolicAlgebra.Fraction

/-!
# Scalars

A `Scalar` is an exact fraction or a double. Arithmetic on exact fractions stays exact
while both parts of the reduced result fit in `Fraction.widthLimit`; a wider result
becomes the nearest double (`Scalar.ofQuotient`). A double below the zero bound is zero
(`Scalar.ofDouble`), so no scalar made here holds a tiny number or a negative zero.

An exact zero absorbs every factor, also an infinite one, and a zero summand leaves a
finite number as it is, exact or not.

A calculation can be asked to stay exact (`Exactness`). It then goes the same way, up to the
first double that would take the place of an exact result (`Scalar.approximate`), and fails
there. Unless it is asked, a calculation is free to go on with doubles.
-/

namespace SymbolicAlgebra

/-- Whether a calculation has to stay exact. -/
class Exactness where
  /-- Whether a double in the place of an exact result is refused. -/
  required : Bool

namespace Exactness

/-- The calculation may go on with doubles. -/
@[reducible] def free : Exactness := ⟨false⟩

/-- The calculation fails where a double would take the place of an exact result. -/
@[reducible] def strict : Exactness := ⟨true⟩

instance : Exactness := free

end Exactness

/-- An exact fraction or a double. -/
inductive Scalar where
  /-- An exact fraction. -/
  | exact (q : Fraction)
  /-- A double. -/
  | approx (v : Double)
  deriving DecidableEq

namespace Scalar

/-- A double as a scalar; a tiny one is zero. -/
def ofDouble (v : Double) : Scalar := approx (Double.snap v)

/-- An integer as a scalar. -/
def ofInt (n : Int) : Scalar := exact (.ofInt n)

/-- Zero. -/
def zero : Scalar := ofInt 0

/-- One. -/
def one : Scalar := ofInt 1

variable [Exactness]

/-- A double in the place of an exact result. -/
def approximate (v : Calc Double) : Calc Scalar :=
  if Exactness.required then throw .inexact else ofDouble <$> v

/-- The result of exact arithmetic: the quotient in lowest terms, or the nearest double if
one of its parts is too wide. -/
def ofQuotient (n d : Int) : Calc Scalar :=
  if h : d = 0 then throw (.undefined .quotient)
  else
    let q := Fraction.lowest n d h
    if q.isNarrow then pure (exact q) else approximate q.toDouble

/-- A fraction in lowest terms, or the nearest double if it is too wide for that. -/
def reduce (q : Fraction) : Calc Scalar := ofQuotient q.num q.den

/-- A fraction in lowest terms, where no double will do: one of its parts is asked for
next, and is named in the failure. -/
def reduceExact (q : Fraction) (part : String) : Calc Fraction := do
  match ← reduce q with
  | exact r => pure r
  | approx _ => throw (.widened part)

/-- The nearest double. -/
def toDouble : Scalar → Calc Double
  | exact q => q.toDouble
  | approx v => pure v

/-- Whether the scalar is zero. -/
def isZero : Scalar → Bool
  | exact q => q.isZero
  | approx v => v.isZero

/-- Whether the scalar is neither infinite nor NaN. -/
def isFinite (a : Scalar) : Calc Bool := return (← a.toDouble).isFinite

/-- Whether the scalar is an integer. -/
def isInt : Scalar → Bool
  | exact q => q.isInt
  | approx v => v.isIntegral

/-- The sign, `-1`, `0` or `1`. -/
def sgn : Scalar → Int
  | exact q => q.sgn
  | approx v => v.sign

/-- The opposite. -/
def neg : Scalar → Scalar
  | exact q => exact q.neg
  | approx v => ofDouble (-v)

/-- The magnitude. -/
def abs (a : Scalar) : Scalar := if a.sgn < 0 then a.neg else a

/-- Equality: exact between fractions, up to the tolerance as soon as one side is a
double. -/
def same [Tolerance] : Scalar → Scalar → Calc Bool
  | exact p, exact q => pure (p.same q)
  | a, b => return Double.approxEq (← a.toDouble) (← b.toDouble)

/-- The sum. -/
def add : Scalar → Scalar → Calc Scalar
  | exact p, exact q => ofQuotient (p.num * q.den + q.num * p.den) (p.den * q.den)
  | a, b => do
    if ← Calc.both (pure b.isZero) a.isFinite then pure a
    else if ← Calc.both (pure a.isZero) b.isFinite then pure b
    else return ofDouble ((← a.toDouble) + (← b.toDouble))

/-- Whether the scalar is the fraction zero, which absorbs every factor. -/
def isExactZero : Scalar → Bool
  | exact q => q.isZero
  | approx _ => false

/-- The product. -/
def mul : Scalar → Scalar → Calc Scalar
  | exact p, exact q =>
    if p.isZero || q.isZero then pure zero else ofQuotient (p.num * q.num) (p.den * q.den)
  | a, b =>
    if a.isExactZero || b.isExactZero then pure zero
    else return ofDouble ((← a.toDouble) * (← b.toDouble))

/-- The quotient. A divisor whose double is zero is refused, exact or not. -/
def div (a b : Scalar) : Calc Scalar := do
  if (← b.toDouble).isZero then throw (.undefined .quotient)
  else match a, b with
    | exact p, exact q => ofQuotient (p.num * q.den) (p.den * q.num)
    | _, _ => return ofDouble ((← a.toDouble) / (← b.toDouble))

/-- The reciprocal. -/
def inv (a : Scalar) : Calc Scalar := one.div a

/-! ## Integer powers -/

/-- `q ^ n` as an exact power, or none when that would be too wide to compute. -/
def exactPower? (q : Fraction) (n : Int) : Calc (Option Scalar) :=
  if Fraction.powerLimit < n.natAbs * q.bitWidth then pure none
  else if n < 0 then
    if q.isZero then throw (.undefined .zeroToNegative)
    else some <$> ofQuotient (q.den.pow n.natAbs) (q.num.pow n.natAbs)
  else some <$> ofQuotient (q.num.pow n.natAbs) (q.den.pow n.natAbs)

/-- The power of doubles, where no exact power is to be had. -/
def approxPower [Tolerance] (a b : Scalar) : Calc Scalar :=
  if a.isZero && b.sgn < 0 then throw (.undefined .zeroToNegative)
  else approximate do return Double.power (← a.toDouble) (← b.toDouble)

/-- `q ^ n`, exact as long as it is not too wide. -/
def wholePower [Tolerance] (q : Fraction) (n : Int) : Calc Scalar := do
  if n = 0 then pure one
  else match ← exactPower? q n with
    | some r => pure r
    | none => approxPower (exact q) (ofInt n)

/-! ## Recovering fractions from doubles -/

/-- The state of a continued fraction expansion: the number still to be expanded, and the
last two convergents `h1 / k1` and `h0 / k0`. -/
structure Convergents where
  /-- What remains to be expanded. -/
  rest : Double
  /-- The numerator before the last. -/
  h0 : Int
  /-- The last numerator. -/
  h1 : Int
  /-- The denominator before the last. -/
  k0 : Int
  /-- The last denominator. -/
  k1 : Int

namespace Convergents

/-- Before the first partial quotient. -/
def start (v : Double) : Convergents := ⟨v, 0, 1, 1, 0⟩

/-- Take in one partial quotient. -/
def extend (c : Convergents) (a : Int) : Convergents :=
  { c with h0 := c.h1, h1 := a * c.h1 + c.h0, k0 := c.k1, k1 := a * c.k1 + c.k0 }

/-- Take in the integer part of the rest. -/
def step (c : Convergents) : Convergents := c.extend (Double.floor c.rest)

/-- Go on with the reciprocal of what the integer part leaves. -/
def invert (c : Convergents) : Convergents :=
  { c with rest := 1 / (c.rest - Double.ofInt (Double.floor c.rest)) }

/-- Expand until the convergent is as good as equal to the number, or the rest is an
integer, or the bound on the number of steps is reached. -/
def expand [Tolerance] (v : Double) : Nat → Convergents → Calc Convergents
  | 0, c => pure c
  | bound + 1, c => do
    let next := c.step
    let some value := Double.ratio? next.h1 next.k1 | throw .tooWide
    if Double.approxEq value v || Double.isIntegral c.rest then pure next
    else expand v bound next.invert

/-- The largest number of partial quotients taken. -/
def stepLimit : Nat := 30

end Convergents

/-- The simplest continued fraction convergent that equals a double up to the tolerance;
infinities and NaN have none. -/
def recover? [Tolerance] (v : Double) : Calc (Option Scalar) := do
  if !v.isFinite then pure none
  else
    let c ← Convergents.expand v.abs Convergents.stepLimit (Convergents.start v.abs)
    some <$> ofQuotient (if v < 0 then -c.h1 else c.h1) c.k1

end Scalar

end SymbolicAlgebra
