/-!
# Doubles as exact numbers

A `Double` is a word of 64 bits. This file reads the word as the number it stands for,
`± mantissa * 2 ^ exponent`, and goes the other way: it rounds an exact quotient of
integers to the nearest double, a tie to the even neighbour. Both directions are
plain `Nat` arithmetic on the bits, so a statement about conversion, integrality or
rounding is a statement about integers and needs no theory of machine arithmetic.

* `Double.content` decodes; `Double.quotient?` encodes, and is `none` exactly when the
  rounded quotient lies beyond the largest finite double.
* `floor`, `toInt`, `roundEven` and `isIntegral` work on the decoded number.

Keeping the word, and not the number alone, keeps the sign of what is not a number: a
quotient by zero is an infinity with the sign of its dividend, also if that is NaN.
-/

namespace SymbolicAlgebra

/-- A double. -/
structure Double where
  /-- The bits: one of sign, eleven of exponent, fifty-two of fraction. -/
  bits : UInt64
  deriving DecidableEq, Repr

namespace Double

/-- What a double stands for. -/
inductive Content where
  /-- No number at all, with a sign all the same. -/
  | nan (negative : Bool)
  /-- An infinity, with its sign. -/
  | infinite (negative : Bool)
  /-- The number `± mantissa * 2 ^ exponent`. -/
  | finite (negative : Bool) (mantissa : Nat) (exponent : Int)
  deriving DecidableEq, Repr

/-! ## Decoding -/

/-- The sign bit, which is set for negative numbers, `-0` and the negative infinity. -/
def isNegative (v : Double) : Bool := v.bits.toNat / Nat.pow 2 63 % 2 == 1

/-- The bits without that of the sign. In their order finite numbers come first, then the
infinity, then NaN. -/
def magnitude (v : Double) : Nat := v.bits.toNat % Nat.pow 2 63

/-- The first bit pattern that is no finite number. -/
def infinityBits : Nat := 2047 * Nat.pow 2 52

/-- Whether the double is neither infinite nor NaN. -/
def isFinite (v : Double) : Bool := v.magnitude < infinityBits

/-- Whether the double is an infinity. -/
def isInfinite (v : Double) : Bool := v.magnitude == infinityBits

/-- Whether the double is no number. -/
def isNaN (v : Double) : Bool := infinityBits < v.magnitude

/-- Read the three fields of the bits. A zero exponent field means the fraction alone,
any other adds the leading bit. -/
def content (v : Double) : Content :=
  let negative := v.isNegative
  let field : Nat := v.magnitude / Nat.pow 2 52
  let fraction : Nat := v.magnitude % Nat.pow 2 52
  if field = 2047 then
    if fraction = 0 then .infinite negative else .nan negative
  else if field = 0 then
    .finite negative fraction (-1074)
  else
    .finite negative (Nat.pow 2 52 + fraction) ((field : Int) - 1075)

/-- `mantissa * 2 ^ exponent` as a fraction of natural numbers. -/
def scale (mantissa : Nat) (exponent : Int) : Nat × Nat :=
  if 0 ≤ exponent then (mantissa * Nat.pow 2 exponent.toNat, 1)
  else (mantissa, Nat.pow 2 (-exponent).toNat)

/-! ## Rounding -/

/-- `n / d` rounded to the nearest integer, a tie to the even neighbour. -/
def roundQuotient (n d : Nat) : Nat :=
  let q := n / d
  let r := n % d
  if 2 * r < d then q
  else if d < 2 * r then q + 1
  else if q % 2 = 0 then q
  else q + 1

/-- The exponent of the last bit that a double near `n / d` can hold: fifty-two below
the leading bit of the quotient, but never under `-1074`. -/
def lastBit (n d : Nat) : Int :=
  let e : Int := (n.log2 : Int) - (d.log2 : Int)
  let reached : Bool :=
    if 0 ≤ e then d * Nat.pow 2 e.toNat ≤ n else d ≤ n * Nat.pow 2 (-e).toNat
  max (if reached then e - 52 else e - 53) (-1074)

/-- The bits of the positive double `mantissa * 2 ^ exponent`, for a mantissa up to
`2 ^ 53` and an exponent from `-1074` on. The leading bit of a full mantissa carries
into the exponent field, so one sum serves both ranges and the carry out of rounding. -/
def encode (mantissa : Nat) (exponent : Int) : Nat :=
  (exponent + 1074).toNat * Nat.pow 2 52 + mantissa

/-- The bits of the double nearest to `n / d`; not those of a finite double when the
quotient is too large. -/
def quotientBits (n d : Nat) : Nat :=
  let k := lastBit n d
  let m := if 0 ≤ k then roundQuotient n (d * Nat.pow 2 k.toNat)
    else roundQuotient (n * Nat.pow 2 (-k).toNat) d
  encode m k

/-- Attach a sign to the bits of a double that has none. -/
def signed (negative : Bool) (bits : Nat) : Double :=
  ⟨UInt64.ofNat (if negative then bits + Nat.pow 2 63 else bits)⟩

/-- The double nearest to `± n / d`, a tie to the even neighbour, or `none` when the
magnitude is beyond every finite double. -/
def quotient? (negative : Bool) (n d : Nat) : Option Double :=
  if n = 0 then some (signed negative 0)
  else
    let bits := quotientBits n d
    if bits < infinityBits then some (signed negative bits) else none

/-- The double nearest to the quotient of two integers. -/
def ratio? (n d : Int) : Option Double :=
  quotient? ((n < 0) != (d < 0)) n.natAbs d.natAbs

/-- The infinity of a sign. -/
def infinity (negative : Bool) : Double := signed negative infinityBits

/-- The double nearest to an integer, an infinity when there is none. -/
def ofInt (n : Int) : Double := (ratio? n 1).getD (infinity (n < 0))

/-! ## Integers in doubles -/

/-- Whether a double is a finite integer. -/
def isIntegral (v : Double) : Bool :=
  match v.content with
  | .finite _ m e => let (n, d) := scale m e; n % d == 0
  | _ => false

/-- The integer part of a finite double, cut toward zero. Infinities and NaN have none
and give zero. -/
def toInt (v : Double) : Int :=
  match v.content with
  | .finite negative m e =>
    let (n, d) := scale m e
    if negative then -((n / d : Nat) : Int) else ((n / d : Nat) : Int)
  | _ => 0

/-- The largest integer that is not above a finite double. -/
def floor (v : Double) : Int :=
  match v.content with
  | .finite negative m e =>
    let (n, d) := scale m e
    Int.fdiv (if negative then -(n : Int) else (n : Int)) (d : Int)
  | _ => 0

/-- The nearest integer to a finite double, a tie to the even neighbour. -/
def roundEven (v : Double) : Int :=
  match v.content with
  | .finite negative m e =>
    let (n, d) := scale m e
    if negative then -((roundQuotient n d : Nat) : Int) else ((roundQuotient n d : Nat) : Int)
  | _ => 0

end Double

end SymbolicAlgebra
