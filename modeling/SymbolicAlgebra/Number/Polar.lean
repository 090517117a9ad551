import SymbolicAlgebra.Number.Basic

/-!
# Polar form, roots and powers

The argument of a number is kept as a rational multiple of `π` where it is one, and the
way back from length and argument is exact at the *nice* angles, the multiples of a sixth
and a quarter of `π`: there cosine and sine are zero, a half, or half a square root of two
or three (`niceAngle?`, turned by quarters).

Roots are taken in polar form. A power with an integer exponent multiplies, a positive
base with a real exponent is a power of values, a rational exponent with a small
denominator is a root, and everything else is `exp (w ln z)`.
-/

namespace SymbolicAlgebra

namespace Number

variable [Tolerance] [Exactness]

/-- The length, as a double. -/
def length (z : Number) : Calc Double :=
  return Double.hypot (← z.re.toDouble) (← z.im.toDouble)

/-- The length to a power; exact where the number lies on an axis. -/
def lengthPow (z : Number) (p : Value) : Calc Value := do
  if ← z.im.isZero then (← z.re.abs).pow p
  else if ← z.re.isZero then (← z.im.abs).pow p
  else
    let square ← (← z.re.mul z.re).add (← z.im.mul z.im)
    square.pow (← p.mul .half)

/-- The denominators of the multiples of `π` that an argument is recognised as. -/
def argumentDenominators : List Int := [1, 2, 3, 4, 6]

/-- The argument of a number off the axes, from its double angle: a rational multiple of
`π` with one of the small denominators, if the angle equals one. -/
def argumentOf (theta : Double) : Calc Value := do
  let turns := theta / Double.pi
  match ← Scalar.recover? (Double.snap turns) with
  | some (.exact k) =>
    if argumentDenominators.contains k.den && Double.approxEq (← k.toDouble) turns then
      Value.pi.mul (.exact k)
    else pure (.ofDouble theta)
  | _ => pure (.ofDouble theta)

/-- The argument, between `-π` and `π`. -/
def argument (z : Number) : Calc Value := do
  if ← z.im.isZero then
    if 0 ≤ (← z.re.sgn) then pure .zero else pure .pi
  else if ← z.re.isZero then
    if 0 < (← z.im.sgn) then Value.pi.mul .half else Value.pi.mul (← Value.half.neg)
  else
    argumentOf (Double.atan2 (← z.im.toDouble) (← z.re.toDouble))

/-- The cosine and sine at a nice angle of the first quarter turn, given as a fraction of
`π` in lowest terms. -/
def niceAngle? (num den : Int) : Option (Value × Value) :=
  if num = 0 ∧ den = 1 then some (.one, .zero)
  else if num = 1 ∧ den = 6 then some (.halfRootThree, .half)
  else if num = 1 ∧ den = 4 then some (.halfRootTwo, .halfRootTwo)
  else if num = 1 ∧ den = 3 then some (.half, .halfRootThree)
  else none

/-- A point of the unit circle turned by a number of quarter turns. -/
def turned (quarters : Int) (c s : Value) : Calc (Value × Value) :=
  if quarters = 0 then pure (c, s)
  else if quarters = 1 then return (← s.neg, c)
  else if quarters = 2 then return (← c.neg, ← s.neg)
  else return (s, ← c.neg)

/-- An angle as a fraction of `π`, if it is one: exactly, or up to the tolerance. -/
def halfTurns? (theta : Value) : Calc (Option Fraction) := do
  let k ← theta.div .pi
  match k with
  | .plain (.exact q) => pure (some q)
  | _ =>
    if ← k.isFinite then
      match ← Scalar.recover? (Double.snap (← k.toDouble)) with
      | some (.exact q) =>
        if Double.approxEq (← q.toDouble) ((← theta.toDouble) / Double.pi) then pure (some q)
        else pure none
      | _ => pure none
    else pure none

/-- The cosine and sine of a fraction of `π`, if it is a nice angle: the fraction is
brought into one full turn, and its quarter turns are taken off. -/
def niceCircle? (k : Fraction) : Calc (Option (Value × Value)) := do
  let k ← Scalar.reduceExact k "num"
  match ← Scalar.ofQuotient (k.num % (2 * k.den)) k.den with
  | .approx _ => throw (.widened "num")
  | .exact turn =>
    let quarters := (2 * turn.num) / turn.den
    match ← Scalar.add (.exact turn) (Scalar.neg (.exact (.halves quarters))) with
    | .approx _ => throw (.widened "reduce")
    | .exact rest =>
      match niceAngle? rest.num rest.den with
      | some (c, s) => some <$> turned quarters c s
      | none => pure none

/-- The number with a length and an argument. -/
def fromPolar (r theta : Value) : Calc Number := do
  if ← r.isZero then pure zero
  else if !(← theta.isFinite) then
    pure ⟨.ofDouble Double.notANumber, .ofDouble Double.notANumber⟩
  else
    let nice ← match ← halfTurns? theta with
      | some k => niceCircle? k
      | none => pure none
    match nice with
    | some (c, s) => return ⟨← r.mul c, ← r.mul s⟩
    | none =>
      let t ← theta.toDouble
      let d ← r.toDouble
      return ⟨.ofDouble (d * t.cos), .ofDouble (d * t.sin)⟩

/-! ## Roots -/

/-- The `k`-th of the `n` numbers whose `n`-th power has length `r ^ n` and the argument
`arg`. -/
def rootAt (r arg : Value) (n k : Nat) : Calc Number := do
  let full ← arg.add (← Value.pi.mul (.ofInt (2 * k)))
  fromPolar r (← full.div (.ofInt n))

/-- All roots of a positive order, the principal one first. Zero has `n` equal roots. -/
def rootsNat (z : Number) (n : Nat) : Calc (List Number) := do
  if n = 1 then pure [z]
  else if ← z.isZero then pure (List.replicate n zero)
  else
    let r ← z.lengthPow (.exact (← Fraction.ofParts 1 n))
    let arg ← z.argument
    (List.range n).mapM (rootAt r arg n)

/-- All roots of an order. A negative order gives the reciprocals of the roots of the
positive one. -/
def roots (z : Number) (n : Int) : Calc (List Number) := do
  if n = 0 then throw .zerothRoot
  else if n < 0 then (← z.rootsNat n.natAbs).mapM one.div
  else z.rootsNat n.natAbs

/-- The principal root of an order. -/
def root (z : Number) (n : Int) : Calc Number := do
  match ← z.roots n with
  | r :: _ => pure r
  | [] => pure z

/-- The principal square root. -/
def sqrt (z : Number) : Calc Number := z.root 2

/-! ## Logarithm, exponential and general powers -/

/-- The natural logarithm of a value that is not negative. It undoes an exponential
exactly. -/
def lnValue (v : Value) : Calc Value := do
  if ← v.isZero then pure (.ofDouble (Double.infinity true))
  else match v with
    | .plain (.exact q) => Value.collapse .one (.log (← q.toDouble))
    | .symbolic m (.exp a) =>
      if ← m.same .one then
        pure (if Double.isIntegral a then .ofInt (Double.toInt a) else .ofDouble a)
      else lnDouble v
    | _ => lnDouble v
where
  /-- The logarithm of the double. -/
  lnDouble (v : Value) : Calc Value := do
    let d ← v.toDouble
    if d ≤ 0 then throw .outsideDomain else pure (.ofDouble d.log)

/-- The exponential of a value. It undoes a multiple of a logarithm exactly. -/
def expValue (v : Value) : Calc Value := do
  match v with
  | .plain (.exact q) => Value.collapse .one (.exp (← q.toDouble))
  | .symbolic m (.log a) => Value.collapse .one (.power a (← m.toDouble))
  | _ => return .ofDouble (← v.toDouble).exp

/-- The natural logarithm; that of zero is the negative infinity. -/
def ln (z : Number) : Calc Number := do
  if ← z.isZero then pure (.ofValue (.ofDouble (Double.infinity true)))
  else
    let re ←
      if ← z.im.isZero then lnValue (← z.re.abs)
      else do
        let square ← (← z.re.mul z.re).add (← z.im.mul z.im)
        (← lnValue square).mul .half
    return ⟨re, ← z.argument⟩

/-- The exponential. -/
def exp (z : Number) : Calc Number := do fromPolar (← expValue z.re) z.im

/-- Integer exponents up to this magnitude multiply. -/
def powLimit : Double := 4096

/-- Rational exponents with a denominator up to this one are taken as roots. -/
def rootLimit : Int := 64

/-- The fraction that an exponent is, if it is one with a small denominator. -/
def rootExponent? (e : Value) : Calc (Option Fraction) := do
  let found ← match e with
    | .plain (.exact q) => pure (some (Scalar.exact q))
    | _ => Scalar.recover? (Double.snap (← e.toDouble))
  match found with
  | some (.exact q) =>
    let r ← Scalar.reduceExact q "den"
    if r.den ≤ rootLimit then
      if Double.approxEq (← r.toDouble) (← e.toDouble) then pure (some r) else pure none
    else pure none
  | _ => pure none

/-- The power through the logarithm. -/
def powLn (z w : Number) : Calc Number := do (← w.mul (← z.ln)).exp

/-- The power of a base other than zero with a real exponent. -/
def powReal (z w : Number) : Calc Number := do
  let e := w.re
  if ← Calc.both e.isInt (return (← e.toDouble).abs ≤ powLimit) then
    z.powInt (Double.toInt (← e.toDouble))
  else if ← Calc.both z.isReal (return 0 < (← z.re.sgn)) then
    return .ofValue (← z.re.pow e)
  else match ← rootExponent? e with
    | some r => do (← z.powInt r.num).root r.den
    | none => powLn z w

/-- The power. Anything to the power zero is one, and zero to a power is zero or infinite
by the sign of the real part of the exponent. -/
def pow (z w : Number) : Calc Number := do
  if ← w.isZero then pure one
  else if ← z.isZero then
    if 0 < (← w.re.sgn) then pure zero else one.div zero
  else if ← w.isReal then powReal z w
  else powLn z w

end Number

end SymbolicAlgebra
