import SymbolicAlgebra.Value.Basic

/-!
# Arithmetic of values

Plain values calculate as scalars. Symbolic ones keep their constant where a law of
powers, exponentials or logarithms allows it:

* a plain factor goes into the multiplier;
* multiples of one constant add up, and `m ln a ± m ln b` becomes one logarithm;
* powers of one base, and exponentials, multiply and divide by their exponents.

Everything else is computed on doubles.
-/

namespace SymbolicAlgebra

namespace Value

variable [Tolerance] [Exactness]

/-- The opposite. -/
def neg : Value → Calc Value
  | plain s => pure (plain s.neg)
  | symbolic mult c => collapse mult.neg c

/-- The magnitude. -/
def abs (a : Value) : Calc Value := do
  if (← a.sgn) < 0 then a.neg else pure a

/-- The sum of two multiples of constants, if it is one again. -/
def mergeSum? (m : Scalar) (c : Constant) (n : Scalar) (d : Constant) : Calc (Option Value) := do
  if c.same d then some <$> collapse (← m.add n) c
  else match c, d with
    | .log a, .log b =>
      if ← m.abs.same n.abs then
        if ← m.same n then some <$> collapse m (.log (a * b))
        else if b.isZero then throw .doubleByZero
        else some <$> collapse m (.log (a / b))
      else pure none
    | _, _ => pure none

/-- The sum. A zero summand leaves a finite number as it is. -/
def add : Value → Value → Calc Value
  | plain a, plain b => plain <$> a.add b
  | a, b => do
    if ← Calc.both b.isZero a.isFinite then pure a
    else if ← Calc.both a.isZero b.isFinite then pure b
    else
      let merged ← match a, b with
        | symbolic m c, symbolic n d => mergeSum? m c n d
        | _, _ => pure none
      match merged with
      | some r => pure r
      | none => return ofDouble ((← a.toDouble) + (← b.toDouble))

/-- The difference. -/
def sub (a b : Value) : Calc Value := do a.add (← b.neg)

/-- A constant with its exponents moved by those of another one, if the two multiply (or,
for the sign `-1`, divide) to one constant. -/
def mergeProduct? (m : Scalar) (c d : Constant) (sign : Double) : Calc (Option Value) :=
  match c, d with
  | .exp a, .exp b => some <$> collapse m (.exp (a + sign * b))
  | .power a p, .power b q =>
    if Double.approxEq a b then some <$> collapse m (.power a (p + sign * q)) else pure none
  | .log a, .log b =>
    if sign < 0 && Double.approxEq a b then pure (some (plain m)) else pure none
  | _, _ => pure none

/-- The product. -/
def mul : Value → Value → Calc Value
  | plain a, plain b => plain <$> a.mul b
  | symbolic m c, plain b =>
    if b.isExactZero then pure zero else do collapse (← m.mul b) c
  | plain a, symbolic n d =>
    if a.isExactZero then pure zero else do collapse (← n.mul a) d
  | symbolic m c, symbolic n d => do
    match ← mergeProduct? (← m.mul n) c d 1 with
    | some r => pure r
    | none => return ofDouble ((← (symbolic m c).toDouble) * (← (symbolic n d).toDouble))

/-- A multiple of a constant times a value: the value goes into the multiplier. -/
def scale (m : Scalar) (c : Constant) (v : Value) : Calc Value := do
  collapse (← (← (plain m).mul v).toScalar) c

/-- The reciprocal. Powers and exponentials turn their exponents around. -/
def inv : Value → Calc Value
  | plain s => plain <$> s.inv
  | symbolic m (.power base exponent) => do collapse (← m.inv) (.power base (-exponent))
  | symbolic m (.exp a) => do collapse (← m.inv) (.exp (-a))
  | symbolic m (.log a) => do
    let d ← (symbolic m (.log a)).toDouble
    if d.isZero then throw .doubleByZero else pure (ofDouble (1 / d))

/-- The quotient of values by their doubles, which divide because that of the divisor is
not zero. -/
def divDoubles (a b : Value) : Calc Value :=
  return ofDouble ((← a.toDouble) / (← b.toDouble))

/-- The quotient. A divisor whose double is zero is refused. -/
def div (a b : Value) : Calc Value := do
  if (← b.toDouble).isZero then throw (.undefined .quotient)
  else match a, b with
    | plain s, plain t => plain <$> s.div t
    | symbolic m c, plain t => do scale m c (plain (← t.inv))
    | symbolic m c, symbolic n d => do
      match ← mergeProduct? (← m.div n) c d (-1) with
      | some r => pure r
      | none => divDoubles a b
    | plain s, symbolic .. => do
      match ← b.inv with
      | symbolic n d => scale n d (plain s)
      | plain _ => divDoubles a b

/-! ## Powers -/

/-- The power of doubles, where nothing better is known. -/
def powDoubles (a b : Value) : Calc Value := do
  if ← Calc.both a.isZero (return (← b.sgn) < 0) then throw (.undefined .zeroToNegative)
  else plain <$> Scalar.approximate do return Double.power (← a.toDouble) (← b.toDouble)

section

variable [DoubleRoot]

/-- A fraction to a power in lowest terms that is no integer: exact if numerator and
denominator have exact roots, and a symbolic root if the exponent is a half. -/
def rootPower? (a b : Fraction) : Calc (Option Value) := do
  if a.sgn < 0 then pure none
  else
    let r ← Scalar.reduceExact a "num"
    let n ← Fraction.exactRoot? r.num b.den
    let d ← Fraction.exactRoot? r.den b.den
    match n, d with
    | some n, some d => return some (plain (← Scalar.wholePower (← Fraction.ofParts n d) b.num))
    | _, _ =>
      if b.den = 2 then
        some <$> collapse .one (.power (← r.toDouble) (← b.toDouble))
      else pure none

/-- A fraction to a fractional power, if it is exact or a symbolic root. -/
def fractionPower? (a b : Fraction) : Calc (Option Value) := do
  let b ← Scalar.reduceExact b "den"
  if b.den = 1 then return (← Scalar.exactPower? a b.num).map plain
  else rootPower? a b

/-- A plain value to a power. -/
def plainPow (a : Scalar) (b : Value) : Calc Value := do
  if ← b.isZero then pure one
  else
    let found ← match a, b with
      | .exact p, plain (.exact q) => fractionPower? p q
      | _, _ => pure none
    match found with
    | some r => pure r
    | none => powDoubles (plain a) b

/-- A multiple of a constant to a plain finite power: a power or exponential multiplies
its exponent. A logarithm has no such form. -/
def symbolicPower? (m : Scalar) (c : Constant) (b : Scalar) : Calc (Option Value) :=
  match c with
  | .log _ => pure none
  | .power base exponent => do
    if ← b.isFinite then
      let mult ← (← plainPow m (plain b)).toScalar
      some <$> collapse mult (.power base (exponent * (← b.toDouble)))
    else pure none
  | .exp a => do
    if ← b.isFinite then
      let mult ← (← plainPow m (plain b)).toScalar
      some <$> collapse mult (.exp (a * (← b.toDouble)))
    else pure none

/-- The power. Anything to the power zero is one. -/
def pow (a b : Value) : Calc Value := do
  match a, b with
  | plain s, _ => plainPow s b
  | symbolic m c, plain t =>
    if t.isZero then pure one
    else match ← symbolicPower? m c t with
      | some r => pure r
      | none => powDoubles a b
  | symbolic _ _, symbolic _ _ =>
    if ← b.isZero then pure one else powDoubles a b

end

end Value

end SymbolicAlgebra
