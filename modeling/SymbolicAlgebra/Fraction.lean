import SymbolicAlgebra.Double.Tolerance
import SymbolicAlgebra.Failure

/-!
# Fractions

A `Fraction` is a quotient of integers as it was written: the denominator is not zero,
but it may be negative, and the two parts may share a factor. `Fraction.lowest` brings a
quotient to lowest terms with a positive denominator; arithmetic on scalars goes through
it, so only fractions given from outside are ever unreduced.

Beside the type stand its conversion to a double, which fails for a quotient beyond the
range of doubles, and the exact integer root that rational powers rest on. That one starts at a
root in doubles (`DoubleRoot`), which is the machine's power unless another one is given.
-/

namespace SymbolicAlgebra

/-- The root of an integer as a double, from which the search for an exact root starts. How good
it is depends on the machine. -/
class DoubleRoot where
  /-- About the `k`-th root of `n`. -/
  root (n k : Int) : Double

namespace DoubleRoot

/-- The power of the integer by the reciprocal of the order. -/
@[reducible] def byPower : DoubleRoot :=
  ⟨fun n k => (Double.ofInt n).pow ((Double.ratio? 1 k).getD 0)⟩

instance : DoubleRoot := byPower

end DoubleRoot

/-- A quotient of integers, not necessarily in lowest terms. -/
structure Fraction where
  /-- The numerator. -/
  num : Int
  /-- The denominator. -/
  den : Int
  /-- The denominator is not zero. -/
  den_ne_zero : den ≠ 0
  deriving DecidableEq

namespace Fraction

/-- An integer over one. -/
def ofInt (n : Int) : Fraction := ⟨n, 1, by decide⟩

/-- A number of halves. -/
def halves (n : Int) : Fraction := ⟨n, 2, by decide⟩

/-- A quotient as written; zero is refused as a denominator. -/
def ofParts (n d : Int) : Calc Fraction :=
  if h : d = 0 then throw (.undefined .denominator) else pure ⟨n, d, h⟩

/-- Whether the fraction is zero. -/
def isZero (q : Fraction) : Bool := q.num == 0

/-- Whether the fraction is an integer. -/
def isInt (q : Fraction) : Bool := q.num % q.den == 0

/-- The sign, `-1`, `0` or `1`. -/
def sgn (q : Fraction) : Int := if 0 < q.den then q.num.sign else -q.num.sign

/-- The opposite fraction, over the same denominator. -/
def neg (q : Fraction) : Fraction := ⟨-q.num, q.den, q.den_ne_zero⟩

/-- Whether two fractions are equal as numbers. -/
def same (p q : Fraction) : Bool := p.num * q.den == q.num * p.den

/-- The nearest double. It fails when the quotient is beyond the range of doubles. -/
def toDouble (q : Fraction) : Calc Double :=
  match Double.ratio? q.num q.den with
  | some v => pure v
  | none => throw .tooWide

/-- The factor that lowest terms divide out: the greatest common divisor, with the sign
of the denominator. -/
def commonFactor (n d : Int) : Int :=
  if d < 0 then -(Int.gcd n d : Int) else (Int.gcd n d : Int)

/-- The common factor divides the denominator. -/
theorem commonFactor_dvd_right (n d : Int) : commonFactor n d ∣ d := by
  unfold commonFactor
  split
  · exact Int.neg_dvd.mpr (Int.gcd_dvd_right ..)
  · exact Int.gcd_dvd_right ..

/-- Without the common factor the denominator is not zero either. -/
theorem div_commonFactor_ne_zero (n : Int) {d : Int} (h : d ≠ 0) :
    d / commonFactor n d ≠ 0 := by
  intro hz
  have hd : d / commonFactor n d * commonFactor n d = d :=
    Int.ediv_mul_cancel (commonFactor_dvd_right n d)
  rw [hz, Int.zero_mul] at hd
  exact h hd.symm

/-- A quotient in lowest terms, with a positive denominator. -/
def lowest (n d : Int) (h : d ≠ 0) : Fraction :=
  ⟨n / commonFactor n d, d / commonFactor n d, div_commonFactor_ne_zero n h⟩

/-- The same number in lowest terms. -/
def reduced (q : Fraction) : Fraction := lowest q.num q.den q.den_ne_zero

/-- The largest numerator and denominator that the result of arithmetic may have. -/
def widthLimit : Nat := Nat.pow 2 53

/-- Whether both parts stay within the limit. -/
def isNarrow (q : Fraction) : Bool :=
  q.num.natAbs ≤ widthLimit && q.den.natAbs ≤ widthLimit

/-- The number of bits of an integer's magnitude. -/
def bitLength (n : Int) : Nat := if n = 0 then 0 else n.natAbs.log2 + 1

/-- The bits of the wider part. -/
def bitWidth (q : Fraction) : Nat := max (bitLength q.num) (bitLength q.den)

/-- Integer powers are exact as long as the exponent times the bits of the base stay
within this limit. -/
def powerLimit : Nat := 256

/-- Integers with this many bits or more are not searched for exact roots. -/
def rootLimit : Nat := 1000

/-- The `k`-th root of `n` if it is an integer. The double root is off by less than one,
so its nearest integer and the two beside that are tried in order. Numbers below two are
their own roots. A root is two at least, so a number below the limit has none of an order
above it.

Resources are not part of this. Where the powers of the candidates are formed for any order,
one of millions of bits may exhaust the memory before it is compared; the answer given here
is the one with memory enough. -/
def exactRoot? [DoubleRoot] (n k : Int) : Calc (Option Int) :=
  if n < 2 then pure (some n)
  else if rootLimit ≤ bitLength n then pure none
  else if k ≤ 0 then throw .doubleByZero
  else if (rootLimit : Int) ≤ k then pure none
  else
    let r := Double.roundEven (DoubleRoot.root n k)
    pure ([r - 1, r, r + 1].find? fun c => 2 ≤ c && Int.pow c k.toNat == n)

end Fraction

end SymbolicAlgebra
