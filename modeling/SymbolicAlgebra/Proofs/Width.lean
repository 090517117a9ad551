import SymbolicAlgebra.Eval
import SymbolicAlgebra.Proofs.Exact.Calculation
import SymbolicAlgebra.Proofs.Exact.Fraction

/-!
# How wide fractions get

Arithmetic keeps the parts of its fractions within the limit, and what is wider becomes a double.
Nearly all operations do so whatever their operands are, because every fraction that they make
comes out of `Scalar.ofQuotient`. Only those that may return an operand as it is, or with the
other sign, need operands that are narrow: sums, opposites and first roots.

There is one place where a fraction is made past that: the logarithm of an exponential is its
exponent, and an exponent that is an integer becomes one however wide it is (`lnValue_returns`).
So it is with the logarithm and the two functions that are one at the end, `asinh` and `acosh`.
Evaluation without these three keeps to the limit (`Expr.evaluate_narrow`).
-/

namespace SymbolicAlgebra

/-! ## Scalars -/

namespace Scalar

/-- The scalar is a double, or a fraction whose parts stay within the limit. -/
def IsNarrow : Scalar → Prop
  | exact q => q.isNarrow = true
  | approx _ => True

variable {a b : Scalar}

theorem isNarrow_zero : zero.IsNarrow := by
  unfold zero ofInt IsNarrow
  decide

theorem isNarrow_one : one.IsNarrow := by
  unfold one ofInt IsNarrow
  decide

theorem IsNarrow.neg (ha : a.IsNarrow) : a.neg.IsNarrow := by
  cases a with
  | exact q => exact Fraction.isNarrow_neg ha
  | approx v => exact True.intro

variable [Exactness]

/-- A double in the place of a fraction is within the limit. -/
theorem approximate_narrow (v : Calc Double) : Returns (approximate v) IsNarrow := by
  unfold approximate
  split
  next => exact .throw _
  next => exact .map fun _ _ => True.intro

/-- Every fraction that arithmetic makes is narrow. -/
theorem ofQuotient_narrow (n d : Int) : Returns (ofQuotient n d) IsNarrow := by
  unfold ofQuotient
  split
  next => exact .throw _
  dsimp only
  split
  next narrow => exact .pure narrow
  next => exact approximate_narrow _

omit [Exactness] in
/-- What a function makes of two doubles is a double. -/
theorem ofDoubles_narrow {x y : Calc Double} (f : Double → Double → Double) :
    Returns (do return ofDouble (f (← x) (← y))) IsNarrow := by
  refine .after fun _ => .after fun _ => ?_
  exact .pure True.intro

/-- A sum is made, but that of a nought and a double is the other operand as it is. -/
theorem add_narrow (ha : a.IsNarrow) (hb : b.IsNarrow) : Returns (a.add b) IsNarrow := by
  unfold add
  split
  next => exact ofQuotient_narrow _ _
  refine .ask ?first (.ask ?second ?double)
  case first => exact .pure ha
  case second => exact .pure hb
  case double => exact ofDoubles_narrow (· + ·)

/-- Nothing is asked of the factors, since every product is made. -/
theorem mul_narrow : Returns (a.mul b) IsNarrow := by
  unfold mul
  split
  next =>
    split
    next => exact .pure isNarrow_zero
    next => exact ofQuotient_narrow _ _
  next =>
    split
    next => exact .pure isNarrow_zero
    next => exact ofDoubles_narrow (· * ·)

/-- Every quotient is made too. -/
theorem div_narrow : Returns (a.div b) IsNarrow := by
  unfold div
  refine .after fun zero => ?_
  split
  next => exact .throw _
  split
  next => exact ofQuotient_narrow _ _
  next => exact ofDoubles_narrow (· / ·)

/-- A power of a fraction comes out of `ofQuotient`, whichever way up it is. -/
theorem exactPower?_narrow (q : Fraction) (n : Int) :
    Returns (exactPower? q n) fun o => ∀ s, o = some s → s.IsNarrow := by
  have power (n d : Int) :
      Returns (some <$> ofQuotient n d) fun o => ∀ s, o = some s → s.IsNarrow := by
    refine .map ((ofQuotient_narrow n d).mono fun r narrow s same => ?_)
    cases same
    exact narrow
  unfold exactPower?
  split
  next => exact .none
  split
  next =>
    split
    next => exact .throw _
    next => exact power _ _
  next => exact power _ _

variable [Tolerance]

/-- A power too wide for a fraction is a double. -/
theorem wholePower_narrow (q : Fraction) (n : Int) : Returns (wholePower q n) IsNarrow := by
  unfold wholePower
  split
  next => exact .pure isNarrow_one
  refine .bind (exactPower?_narrow q n) fun o ho => ?_
  cases o with
  | some r => exact .pure (ho r rfl)
  | none =>
    unfold approxPower
    dsimp only
    split
    next => exact .throw _
    next => exact approximate_narrow _

end Scalar

/-! ## Values -/

namespace Value

/-- The number or multiplier is narrow. -/
def IsNarrow : Value → Prop
  | plain s => s.IsNarrow
  | symbolic m _ => m.IsNarrow

theorem isNarrow_zero : zero.IsNarrow := Scalar.isNarrow_zero

theorem isNarrow_one : one.IsNarrow := Scalar.isNarrow_one

/-- The value, if there is one, is narrow. -/
def NarrowOption (o : Option Value) : Prop := ∀ v, o = some v → v.IsNarrow

/-- A value that was found is the one that was calculated. -/
theorem narrowOption_some {x : Calc Value} (h : Returns x IsNarrow) :
    Returns (some <$> x) NarrowOption := by
  refine .map (h.mono fun r narrow v same => ?_)
  cases same
  exact narrow

/-- A value if there is one, and else another result. -/
theorem orElse_narrow {o : Option Value} {x : Calc Value} (ho : NarrowOption o)
    (hx : Returns x IsNarrow) :
    Returns (match o with | some r => pure r | none => x) IsNarrow := by
  cases o with
  | some r => exact .pure (ho r rfl)
  | none => exact hx

/-- A double in the place of a result. -/
theorem ofDoubles_narrow {x y : Calc Double} (f : Double → Double → Double) :
    Returns (do return ofDouble (f (← x) (← y))) IsNarrow := by
  refine .after fun _ => .after fun _ => ?_
  exact .pure True.intro

variable [Tolerance] [Exactness] {v w : Value} {m n : Scalar} {c d : Constant}

/-- A multiple of a constant in its simplest form. -/
theorem collapse_narrow (hm : m.IsNarrow) : Returns (collapse m c) IsNarrow := by
  unfold collapse
  split
  next => exact .pure isNarrow_zero
  -- only a power whose base is a fraction is computed, and the product with it is narrow
  split
  next base exponent =>
    split
    next => exact .pure hm
    refine .after fun o => ?_
    cases o with
    | some q =>
      refine .after fun s => .bind Scalar.mul_narrow fun r narrow => ?_
      exact .pure narrow
    | none => exact .pure hm
  next x =>
    split
    next => exact .pure hm
    next => exact .pure hm
  next x =>
    split
    next => exact .pure isNarrow_zero
    split
    next => exact .pure hm
    next => exact .pure hm

theorem neg_narrow (hv : v.IsNarrow) : Returns v.neg IsNarrow := by
  cases v with
  | plain s => exact .pure (Scalar.IsNarrow.neg hv)
  | symbolic m c => exact collapse_narrow (Scalar.IsNarrow.neg hv)

/-- Multiples of one constant are added by their multipliers, and two logarithms become the
logarithm of a product. -/
theorem mergeSum?_narrow (hm : m.IsNarrow) (hn : n.IsNarrow) :
    Returns (mergeSum? m c n d) NarrowOption := by
  unfold mergeSum?
  split
  next =>
    refine .bind (Scalar.add_narrow hm hn) fun r narrow => ?_
    exact narrowOption_some (collapse_narrow narrow)
  split
  next =>
    refine .ask (.ask ?product ?quotient) .none
    case product => exact narrowOption_some (collapse_narrow hm)
    case quotient =>
      split
      next => exact .throw _
      next => exact narrowOption_some (collapse_narrow hm)
  next => exact .none

/-- A sum of values, which may be one of them as it is. -/
theorem add_narrow (hv : v.IsNarrow) (hw : w.IsNarrow) : Returns (v.add w) IsNarrow := by
  unfold add
  split
  next => exact .map (Scalar.add_narrow hv hw)
  refine .ask (.pure hv) (.ask (.pure hw) ?_)
  dsimp only
  split
  next =>
    refine .bind (mergeSum?_narrow hv hw) fun o ho => ?_
    exact orElse_narrow ho (ofDoubles_narrow (· + ·))
  next =>
    exact .bind .none fun o ho => orElse_narrow ho (ofDoubles_narrow (· + ·))

theorem sub_narrow (hv : v.IsNarrow) (hw : w.IsNarrow) : Returns (v.sub w) IsNarrow := by
  unfold sub
  refine .bind (neg_narrow hw) fun opposite narrow => ?_
  exact add_narrow hv narrow

/-- Two constants that merge have the multiplier that they are given. -/
theorem mergeProduct?_narrow (hm : m.IsNarrow) (sign : Double) :
    Returns (mergeProduct? m c d sign) NarrowOption := by
  unfold mergeProduct?
  split
  next => exact narrowOption_some (collapse_narrow hm)
  next =>
    split
    next => exact narrowOption_some (collapse_narrow hm)
    next => exact .none
  next =>
    split
    next =>
      refine .pure fun v same => ?_
      cases same
      exact hm
    next => exact .none
  next => exact .none

/-- Every product of values is made, and so nothing is asked of the factors. -/
theorem mul_narrow : Returns (v.mul w) IsNarrow := by
  unfold mul
  split
  next => exact .map Scalar.mul_narrow
  next =>
    split
    next => exact .pure isNarrow_zero
    next => exact .bind Scalar.mul_narrow fun _ narrow => collapse_narrow narrow
  next =>
    split
    next => exact .pure isNarrow_zero
    next => exact .bind Scalar.mul_narrow fun _ narrow => collapse_narrow narrow
  next =>
    refine .bind Scalar.mul_narrow fun _ narrow => ?_
    refine .bind (mergeProduct?_narrow narrow 1) fun o ho => ?_
    exact orElse_narrow ho (ofDoubles_narrow (· * ·))

omit [Exactness] in
theorem toScalar_narrow (hv : v.IsNarrow) : Returns v.toScalar Scalar.IsNarrow := by
  cases v with
  | plain s => exact .pure hv
  | symbolic m c => exact .after fun _ => .pure True.intro

/-- A multiple of a constant that is scaled has a product for a multiplier. -/
theorem scale_narrow : Returns (scale m c v) IsNarrow := by
  unfold scale
  refine .bind mul_narrow fun product hp => ?_
  refine .bind (toScalar_narrow hp) fun mult narrow => ?_
  exact collapse_narrow narrow

/-- Every quotient of values is made too. -/
theorem div_narrow : Returns (v.div w) IsNarrow := by
  unfold div
  refine .after fun zero => ?_
  split
  next => exact .throw _
  split
  next => exact .map Scalar.div_narrow
  next => exact .after fun _ => scale_narrow
  next =>
    refine .bind Scalar.div_narrow fun _ narrow => ?_
    refine .bind (mergeProduct?_narrow narrow (-1)) fun o ho => ?_
    exact orElse_narrow ho (ofDoubles_narrow (· / ·))
  next =>
    refine .after fun r => ?_
    split
    next => exact scale_narrow
    next => exact ofDoubles_narrow (· / ·)

/-! ### Powers -/

theorem powDoubles_narrow : Returns (powDoubles v w) IsNarrow := by
  unfold powDoubles
  refine .ask (.throw _) ?_
  exact .map (Scalar.approximate_narrow _)

/-- An exact root is raised to a power, and one that is not exact is one times a constant. -/
theorem rootPower?_narrow (p q : Fraction) : Returns (rootPower? p q) NarrowOption := by
  unfold rootPower?
  split
  next => exact .none
  refine .after fun _ => .after fun _ => .after fun _ => ?_
  split
  next =>
    refine .after fun f => .bind (Scalar.wholePower_narrow f _) fun r narrow => ?_
    refine .pure fun v same => ?_
    cases same
    exact narrow
  split
  next =>
    refine .after fun _ => .after fun _ => ?_
    exact narrowOption_some (collapse_narrow Scalar.isNarrow_one)
  next => exact .none

/-- The exponent may be a whole one or the order of a root. -/
theorem fractionPower?_narrow (p q : Fraction) : Returns (fractionPower? p q) NarrowOption := by
  unfold fractionPower?
  refine .after fun r => ?_
  split
  next =>
    refine .bind (Scalar.exactPower?_narrow p _) fun o ho => .pure fun v hv => ?_
    obtain ⟨s, found, rfl⟩ := Option.map_eq_some_iff.mp hv
    exact ho s found
  next => exact rootPower?_narrow p r

/-- A power of plain values is a root or a power that was found, or else a double. -/
theorem plainPow_narrow : Returns (plainPow m v) IsNarrow := by
  unfold plainPow
  refine .ask (.pure isNarrow_one) ?_
  dsimp only
  split
  next =>
    refine .bind (fractionPower?_narrow _ _) fun o ho => ?_
    exact orElse_narrow ho powDoubles_narrow
  next =>
    exact .bind .none fun o ho => orElse_narrow ho powDoubles_narrow

/-- A power of a multiple of a constant is a multiple of a power of it, if its exponent can be
moved inside. -/
theorem symbolicPower?_narrow : Returns (symbolicPower? m c n) NarrowOption := by
  have moved (e : Double → Constant) : Returns (do
      let mult ← (← plainPow m (plain n)).toScalar
      some <$> collapse mult (e (← n.toDouble))) NarrowOption := by
    refine .bind plainPow_narrow fun power hp => ?_
    refine .bind (toScalar_narrow hp) fun mult narrow => .after fun _ => ?_
    exact narrowOption_some (collapse_narrow narrow)
  cases c with
  | log a => exact .none
  | power base exponent => exact .ask (moved fun x => .power base (exponent * x)) .none
  | exp a => exact .ask (moved fun x => .exp (a * x)) .none

/-- Every power of values is made. -/
theorem pow_narrow : Returns (v.pow w) IsNarrow := by
  unfold pow
  split
  next => exact plainPow_narrow
  next =>
    split
    next => exact .pure isNarrow_one
    refine .bind symbolicPower?_narrow fun o ho => ?_
    exact orElse_narrow ho powDoubles_narrow
  next => exact .ask (.pure isNarrow_one) powDoubles_narrow

end Value

/-! ## Numbers -/

namespace Number

/-- Both parts are narrow. -/
structure IsNarrow (z : Number) : Prop where
  re : z.re.IsNarrow
  im : z.im.IsNarrow

theorem isNarrow_ofValue {v : Value} (h : v.IsNarrow) : (ofValue v).IsNarrow :=
  ⟨h, Value.isNarrow_zero⟩

theorem isNarrow_zero : zero.IsNarrow := isNarrow_ofValue Value.isNarrow_zero

theorem isNarrow_one : one.IsNarrow := isNarrow_ofValue Value.isNarrow_one

/-- A number from its parts. -/
theorem parts_narrow {x y : Calc Value} (hx : Returns x Value.IsNarrow)
    (hy : Returns y Value.IsNarrow) : Returns (do return (⟨← x, ← y⟩ : Number)) IsNarrow := by
  refine .bind hx fun re narrow => .bind hy fun im narrow' => ?_
  exact .pure ⟨narrow, narrow'⟩

variable [Tolerance] [Exactness] {z w : Number} {u v : Value}

theorem add_narrow (hz : z.IsNarrow) (hw : w.IsNarrow) : Returns (z.add w) IsNarrow :=
  parts_narrow (Value.add_narrow hz.re hw.re) (Value.add_narrow hz.im hw.im)

theorem sub_narrow (hz : z.IsNarrow) (hw : w.IsNarrow) : Returns (z.sub w) IsNarrow :=
  parts_narrow (Value.sub_narrow hz.re hw.re) (Value.sub_narrow hz.im hw.im)

/-- A real factor goes to both parts of the other, and of two others the parts are a difference
and a sum of products, which are narrow before they are put together. -/
theorem mul_narrow : Returns (z.mul w) IsNarrow := by
  unfold mul
  refine .ask ?real (.ask ?real' ?both)
  case real => exact parts_narrow Value.mul_narrow Value.mul_narrow
  case real' => exact parts_narrow Value.mul_narrow Value.mul_narrow
  case both =>
    refine .bind Value.mul_narrow fun p hp => .bind Value.mul_narrow fun q hq => ?_
    refine .bind (Value.sub_narrow hp hq) fun re narrow => ?_
    refine .bind Value.mul_narrow fun p hp => .bind Value.mul_narrow fun q hq => ?_
    refine .bind (Value.add_narrow hp hq) fun im narrow' => ?_
    exact .pure ⟨narrow, narrow'⟩

theorem partOverZero_narrow (v : Value) : Returns (partOverZero v) Value.IsNarrow := by
  unfold partOverZero
  refine .ask (.pure Value.isNarrow_zero) ?_
  exact .map (Scalar.approximate_narrow _)

/-- Every quotient of numbers is made, that by an infinite one as nought. -/
theorem div_narrow : Returns (z.div w) IsNarrow := by
  unfold div
  refine .ask (.ask (.throw _) ?overZero) (.after fun finite => ?_)
  case overZero => exact parts_narrow (partOverZero_narrow _) (partOverZero_narrow _)
  split
  next =>
    refine .after fun finite' => ?_
    split
    next => exact .throw _
    next => exact .pure isNarrow_zero
  next =>
    refine .ask ?real ?complex
    case real => exact parts_narrow Value.div_narrow Value.div_narrow
    case complex =>
      -- the products with the conjugate may be anything, as both parts are divided at the end
      refine .after fun _ => .after fun _ => .after fun _ => .after fun _ => .after fun _ => ?_
      exact parts_narrow Value.div_narrow Value.div_narrow

/-- Of repeated squaring only what has been multiplied so far is narrow, and that is enough. -/
theorem powFrom_narrow (n : ℕ) :
    ∀ {z w : Number}, z.IsNarrow → Returns (powFrom z w n) IsNarrow := by
  induction n using Nat.strong_induction_on with
  | _ n ih =>
    -- by strong induction, since each round halves the exponent
    intro z w hz
    have rest : ∀ a : Number, a.IsNarrow → n ≠ 0 → Returns
        (if n / 2 = 0 then pure a else do powFrom a (← w.mul w) (n / 2)) IsNarrow := by
      intro a ha nonzero
      split
      next => exact .pure ha
      next => exact .after fun _ => ih _ (by omega) ha
    unfold powFrom
    dsimp only
    split
    next => exact .pure hz
    next nonzero =>
      split
      next odd => exact .bind mul_narrow fun a ha => rest a ha nonzero
      next even => exact .bind (.pure hz) fun a ha => rest a ha nonzero

/-- A power with a negative exponent is divided at the end, and another is a product or one. -/
theorem powInt_narrow (n : ℤ) : Returns (z.powInt n) IsNarrow := by
  unfold powInt
  split
  next => exact .after fun _ => div_narrow
  next => exact powFrom_narrow _ isNarrow_one

/-! ### Polar form and roots -/

/-- A power of the length is a power of values in each of its three forms. -/
theorem lengthPow_narrow : Returns (z.lengthPow v) Value.IsNarrow := by
  unfold lengthPow
  refine .ask ?real (.ask ?imaginary ?complex)
  case real => exact .after fun _ => Value.pow_narrow
  case imaginary => exact .after fun _ => Value.pow_narrow
  case complex =>
    refine .after fun _ => .after fun _ => .after fun _ => .after fun _ => ?_
    exact Value.pow_narrow

/-- The argument is nought, a part of π or a double. -/
theorem argument_narrow : Returns z.argument Value.IsNarrow := by
  unfold argument
  -- a real number, an imaginary one, and the angle of both parts
  refine .ask (.after fun sign => ?real) (.ask (.after fun sign => ?imaginary) ?complex)
  case real =>
    split
    next => exact .pure Value.isNarrow_zero
    next => exact .pure Scalar.isNarrow_one
  case imaginary =>
    split
    next => exact Value.mul_narrow
    next => exact .after fun _ => Value.mul_narrow
  case complex =>
    refine .after fun _ => .after fun _ => .after fun found => ?_
    split
    next =>
      refine .after fun _ => ?_
      split
      next => exact Value.mul_narrow
      next => exact .pure True.intro
    next => exact .pure True.intro

/-- Both parts are products of the length, or doubles. -/
theorem fromPolar_narrow : Returns (fromPolar u v) IsNarrow := by
  -- without an angle that is known the parts are doubles, which are narrow at once
  have doubles : Returns (do
      let t ← v.toDouble
      let d ← u.toDouble
      return (⟨.ofDouble (d * t.cos), .ofDouble (d * t.sin)⟩ : Number)) IsNarrow := by
    refine .after fun t => .after fun d => ?_
    exact .pure ⟨True.intro, True.intro⟩
  have nice (c : Value × Value) :
      Returns (do return (⟨← u.mul c.1, ← u.mul c.2⟩ : Number)) IsNarrow :=
    parts_narrow Value.mul_narrow Value.mul_narrow
  unfold fromPolar
  refine .ask (.pure isNarrow_zero) (.after fun finite => ?_)
  split
  next => exact .pure ⟨True.intro, True.intro⟩
  refine .after fun found => ?_
  split
  next => exact .after (.option doubles nice)
  next => exact .after (.option doubles nice)

/-- The first root of a number is the number, and the others come out of their polar forms. -/
theorem rootsNat_narrow (hz : z.IsNarrow) (n : ℕ) :
    Returns (z.rootsNat n) fun rs => ∀ r ∈ rs, r.IsNarrow := by
  unfold rootsNat
  split
  next => exact .pure (List.forall_mem_singleton.mpr hz)
  refine .ask (.pure fun r hr => ?zero) (.after fun _ => .after fun _ => .after fun _ => ?polar)
  case zero =>
    rw [List.eq_of_mem_replicate hr]
    exact isNarrow_zero
  case polar =>
    refine .mapM (fun k => ?_) _
    refine .after fun _ => .after fun _ => .after fun _ => ?_
    exact fromPolar_narrow

/-- Roots of a negative order are the reciprocals of roots. -/
theorem roots_narrow (hz : z.IsNarrow) (n : ℤ) :
    Returns (z.roots n) fun rs => ∀ r ∈ rs, r.IsNarrow := by
  unfold roots
  split
  next => exact .throw _
  split
  next => exact .after fun _ => .mapM (fun _ => div_narrow) _
  next => exact rootsNat_narrow hz _

/-- The root is the first of the roots. -/
theorem root_narrow (hz : z.IsNarrow) (n : ℤ) : Returns (z.root n) IsNarrow := by
  unfold root
  refine .bind (roots_narrow hz n) fun rs hrs => ?_
  cases rs with
  | nil => exact .pure hz
  | cons r rest => exact .pure (hrs r List.mem_cons_self)

/-! ### Logarithm, exponential and powers -/

/-- The logarithm of an exponential may be any integer that is a double. -/
theorem lnValue_returns : Returns (lnValue v) fun r => r.IsNarrow ∨
    ∃ m a, v = .symbolic m (.exp a) ∧ a.isIntegral = true ∧ r = .ofInt a.toInt := by
  -- of a power of e the integer exponent is returned, however wide it is
  have double : Returns (lnValue.lnDouble v) fun r => r.IsNarrow ∨
      ∃ m a, v = .symbolic m (.exp a) ∧ a.isIntegral = true ∧ r = .ofInt a.toInt := by
    unfold lnValue.lnDouble
    refine .after fun d => ?_
    split
    next => exact .throw _
    next => exact .pure (.inl True.intro)
  unfold lnValue
  refine .ask (.pure (.inl True.intro)) ?_
  split
  next =>
    refine .after fun _ => (Value.collapse_narrow Scalar.isNarrow_one).mono fun r narrow => ?_
    exact .inl narrow
  next m a =>
    refine .ask (.pure ?_) double
    split
    next integral => exact .inr ⟨m, a, rfl, integral, rfl⟩
    next => exact .inl True.intro
  next => exact double

/-- A logarithm is narrow, but for an integer that is a double and stands for its real part. -/
def IsLogarithm (z : Number) : Prop :=
  z.im.IsNarrow ∧ (z.re.IsNarrow ∨ ∃ a, Double.isIntegral a = true ∧ z.re = .ofInt a.toInt)

/-- A logarithm has the argument for its imaginary part, which is narrow. -/
theorem ln_returns : Returns z.ln IsLogarithm := by
  have parts : ∀ re : Value, (re.IsNarrow ∨ ∃ a, Double.isIntegral a = true ∧ re = .ofInt a.toInt) →
      Returns (do return ⟨re, ← z.argument⟩) IsLogarithm := by
    intro re h
    refine .bind argument_narrow fun im narrow => ?_
    exact .pure ⟨narrow, h⟩
  unfold ln
  refine .ask ?zero (.ask ?length ?squares)
  case zero => exact .pure ⟨Value.isNarrow_zero, .inl True.intro⟩
  case length =>
    refine .after fun _ => .bind lnValue_returns fun re h => parts re ?_
    exact h.imp_right fun ⟨_, a, _, integral, value⟩ => ⟨a, integral, value⟩
  case squares =>
    -- here the logarithm is halved, and a product is narrow
    refine .after fun _ => .after fun _ => .after fun _ => .after fun _ => ?_
    exact .bind Value.mul_narrow fun re narrow => parts re (.inl narrow)

theorem exp_narrow : Returns z.exp IsNarrow := by
  unfold exp
  exact .after fun _ => fromPolar_narrow

/-- A real power is a whole power, a power of values, a root of a power or an exponential. -/
theorem powReal_narrow : Returns (z.powReal w) IsNarrow := by
  unfold powReal
  refine .ask ?whole (.ask ?real (.after fun found => ?_))
  case whole => exact .after fun _ => powInt_narrow _
  case real => exact .bind Value.pow_narrow fun _ narrow => .pure (isNarrow_ofValue narrow)
  cases found with
  | some r => exact .bind (powInt_narrow _) fun _ narrow => root_narrow narrow _
  | none => exact .after fun _ => .after fun _ => exp_narrow

/-- Every power of numbers is made. -/
theorem pow_narrow : Returns (z.pow w) IsNarrow := by
  unfold pow
  refine .ask ?one (.ask (.after fun sign => ?zero) (.ask ?real ?complex))
  case one => exact .pure isNarrow_one
  case zero =>
    split
    next => exact .pure isNarrow_zero
    next => exact div_narrow
  case real => exact powReal_narrow
  case complex => exact .after fun _ => .after fun _ => exp_narrow

/-! ### Functions -/

theorem abs_narrow : Returns z.abs IsNarrow := by
  unfold abs
  refine .bind lengthPow_narrow fun r narrow => ?_
  exact .pure (isNarrow_ofValue narrow)

/-- A factorial is a fraction as long as it fits, and then a double. -/
theorem factorial_narrow : Returns z.factorial IsNarrow := by
  unfold factorial
  refine .after fun integral => ?_
  split
  next => exact .after fun _ => .throw _
  refine .after fun sign => ?_
  split
  next => exact .after fun _ => .throw _
  refine .after fun d => ?_
  dsimp only
  split
  next => exact .bind (Scalar.ofQuotient_narrow _ _) fun _ narrow => .pure (isNarrow_ofValue narrow)
  next => exact .pure (isNarrow_ofValue True.intro)

/-- The sine is a part of a polar form, which hyperbolic functions multiply. -/
theorem sin_narrow : Returns z.sin IsNarrow := by
  unfold sin
  refine .bind fromPolar_narrow fun turned narrow => ?_
  refine .ask (.pure (isNarrow_ofValue narrow.im)) (.after fun _ => ?_)
  exact parts_narrow Value.mul_narrow Value.mul_narrow

/-- The cosine is the other part, and the opposite of a product is narrow. -/
theorem cos_narrow : Returns z.cos IsNarrow := by
  unfold cos
  refine .bind fromPolar_narrow fun turned narrow => ?_
  refine .ask (.pure (isNarrow_ofValue narrow.re)) (.after fun _ => ?_)
  refine .bind Value.mul_narrow fun re hre => .bind Value.mul_narrow fun product hp => ?_
  refine .bind (Value.neg_narrow hp) fun im him => ?_
  exact .pure ⟨hre, him⟩

/-- A hyperbolic sine is nought, a double or products of doubles. -/
theorem sinh_narrow : Returns z.sinh IsNarrow := by
  unfold sinh
  refine .after fun x => .ask (.ask ?zero ?real) (.after fun y => ?complex)
  case zero => exact .pure isNarrow_zero
  case real => exact .pure (isNarrow_ofValue True.intro)
  case complex => exact parts_narrow Value.mul_narrow Value.mul_narrow

/-- A hyperbolic cosine is one, a double or products of doubles. -/
theorem cosh_narrow : Returns z.cosh IsNarrow := by
  unfold cosh
  refine .after fun x => .ask (.ask ?zero ?real) (.after fun y => ?complex)
  case zero => exact .pure isNarrow_one
  case real => exact .pure (isNarrow_ofValue True.intro)
  case complex => exact parts_narrow Value.mul_narrow Value.mul_narrow

/-- The other functions with a logarithm in them multiply at the end. -/
theorem asin_narrow : Returns z.asin IsNarrow := by
  unfold asin
  refine .after fun _ => .after fun _ => .after fun _ => .after fun _ => .after fun _ => ?_
  exact .after fun _ => .after fun _ => mul_narrow

/-- An arc cosine is what the arc sine leaves of a quarter of a turn. -/
theorem acos_narrow : Returns z.acos IsNarrow := by
  unfold acos
  refine .bind Value.mul_narrow fun quarter hq => .bind asin_narrow fun angle ha => ?_
  exact sub_narrow (isNarrow_ofValue hq) ha

end Number

/-! ## Evaluation -/

variable [Tolerance] [Exactness]

open Number in
/-- Operators make narrow numbers of narrow ones. -/
theorem Binary.evaluate_narrow (op : Binary) {z w : Number} (hz : z.IsNarrow) (hw : w.IsNarrow) :
    Returns (op.evaluate z w) IsNarrow := by
  cases op with
  | equals => exact sub_narrow hz hw
  | add => exact add_narrow hz hw
  | sub => exact sub_narrow hz hw
  | mul => exact mul_narrow
  | div => exact div_narrow
  | pow => exact pow_narrow

/-- Whether the value of the function is a logarithm as it stands. -/
def Func.isLogarithm : Func → Bool
  | ln | asinh | acosh => true
  | _ => false

open Number in
/-- The functions make narrow numbers of any number. -/
theorem Func.evaluate_narrow (f : Func) (hf : f.isLogarithm = false) (z : Number) :
    Returns (f.evaluate z) IsNarrow := by
  cases f with
  | ln | asinh | acosh => cases hf
  | exp => exact exp_narrow
  | abs => exact abs_narrow
  | sin => exact sin_narrow
  | cos => exact cos_narrow
  | tan => exact .after fun _ => .after fun _ => div_narrow
  | asin => exact asin_narrow
  | acos => exact acos_narrow
  | atan => exact .after fun _ => .after fun _ => .after fun _ => .after fun _ => .after fun _ =>
      .after fun _ => mul_narrow
  | sinh => exact sinh_narrow
  | cosh => exact cosh_narrow
  | tanh => exact .after fun _ => .after fun _ => div_narrow
  | atanh => exact .after fun _ => .after fun _ => .after fun _ => .after fun _ => .after fun _ =>
      mul_narrow

open Number in
/-- The functions that are a logarithm at the end. -/
theorem Func.evaluate_logarithm (f : Func) (hf : f.isLogarithm = true) (z : Number) :
    Returns (f.evaluate z) IsLogarithm := by
  cases f with
  | ln => exact ln_returns
  | asinh =>
    exact .after fun _ => .after fun _ => .after fun _ => .after fun _ => ln_returns
  | acosh =>
    exact .after fun _ => .after fun _ => .after fun _ => .after fun _ => .after fun _ =>
      .after fun _ => ln_returns
  | _ => cases hf

namespace Expr

/-- All numbers are narrow, and no function is a logarithm at the end. The coefficient of a
monomial may be any, since it is multiplied with a power. -/
def IsNarrow : Expr → Prop
  | leaf (.number z) => z.IsNarrow
  | node op l r => l.IsNarrow ∧ r.IsNarrow ∧ ∀ f, op = .function f → f.isLogarithm = false
  | _ => True

/-- **Evaluation keeps to the limit**: of narrow numbers it makes narrow numbers, however the
bindings are. -/
theorem evaluate_narrow {t : Expr} (bindings : Bindings) (ht : t.IsNarrow) :
    Returns (t.evaluate bindings) Number.IsNarrow := by
  -- the tree has no logarithm, and everything else keeps its parts narrow
  induction t with
  | absent => exact .throw _
  | leaf a =>
    cases a with
    | number z => exact .pure ht
    | monomial x m p =>
      unfold evaluate Leaf.evaluate
      dsimp only
      split
      next => exact .after fun _ => Number.mul_narrow
      next => exact .throw _
  | node op l r ihl ihr =>
    cases op with
    | binary op =>
      exact .bind (ihl ht.1) fun _ hl => .bind (ihr ht.2.1) fun _ hr => op.evaluate_narrow hl hr
    | factorial => exact .after fun _ => Number.factorial_narrow
    | function f => exact .after fun z => f.evaluate_narrow (ht.2.2 f rfl) z
    | _ => exact .throw _

end Expr

end SymbolicAlgebra
