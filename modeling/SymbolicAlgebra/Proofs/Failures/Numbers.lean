import SymbolicAlgebra.Eval
import SymbolicAlgebra.Proofs.Exact.Calculation

/-!
# How arithmetic fails

The operations on fractions, scalars, values and numbers end in a result or in one of a few
failures (`Failure.IsNumeric`): a quotient or power is undefined, a number is too wide for a
double, a function of doubles has no value, or a fraction became a double where one of its parts
was needed. That a result is not exact is a failure only where a calculation has to stay exact.
So none of them asks for an operand, a variable or a text.

There is one lemma for each operation, along its definition. Comparing and asking are better
behaved: they need doubles at most, and fail only if a number is too wide for one.
-/

namespace SymbolicAlgebra

open Calc (FailsAs)

namespace Calc.FailsAs

variable {α β γ : Type} {P : Failure → Prop} {x : Calc α} {y : Calc β}

theorem map₂ {f : α → β → γ} (hx : x.FailsAs P) (hy : y.FailsAs P) :
    Calc.FailsAs P (do return f (← x) (← y)) :=
  hx.bind fun _ => hy.bind fun _ => .pure _

/-- What depends on whether something was found. -/
theorem option {f : Option α → Calc β} (none : (f .none).FailsAs P)
    (some : ∀ a, (f (.some a)).FailsAs P) (o : Option α) : (f o).FailsAs P := by
  cases o with
  | none => exact none
  | some a => exact some a

end Calc.FailsAs

/-! ## Comparing -/

section

variable {q : Fraction} {a b : Scalar} {v w : Value} {z y : Number}

/-- A quotient beyond the range of doubles is too wide. -/
theorem Fraction.toDouble_failsAs : q.toDouble.FailsAs (· = .tooWide) := by
  unfold toDouble
  split
  next => exact .pure _
  next => exact .throw rfl

theorem Scalar.toDouble_failsAs : a.toDouble.FailsAs (· = .tooWide) := by
  cases a with
  | exact q => exact Fraction.toDouble_failsAs
  | approx v => exact .pure _

theorem Scalar.isFinite_failsAs : a.isFinite.FailsAs (· = .tooWide) :=
  toDouble_failsAs.bind fun _ => .pure _

variable [Tolerance]

/-- A constant has a double, so a multiple of it has one if the multiplier does. -/
theorem Value.toDouble_failsAs : v.toDouble.FailsAs (· = .tooWide) := by
  cases v with
  | plain s => exact Scalar.toDouble_failsAs
  | symbolic mult c => exact Scalar.toDouble_failsAs.bind fun _ => .pure _

theorem Value.isZero_failsAs : v.isZero.FailsAs (· = .tooWide) := by
  cases v with
  | plain s => exact .pure _
  | symbolic mult c => exact toDouble_failsAs.bind fun _ => .pure _

theorem Value.isFinite_failsAs : v.isFinite.FailsAs (· = .tooWide) :=
  toDouble_failsAs.bind fun _ => .pure _

theorem Value.isInt_failsAs : v.isInt.FailsAs (· = .tooWide) := by
  cases v with
  | plain s => exact .pure _
  | symbolic mult c => exact toDouble_failsAs.bind fun _ => .pure _

theorem Value.sgn_failsAs : v.sgn.FailsAs (· = .tooWide) := by
  cases v with
  | plain s => exact .pure _
  | symbolic mult c => exact toDouble_failsAs.bind fun _ => .pure _

theorem Value.toScalar_failsAs : v.toScalar.FailsAs (· = .tooWide) := by
  cases v with
  | plain s => exact .pure _
  | symbolic mult c => exact toDouble_failsAs.bind fun _ => .pure _

/-- Fractions are compared as they are, and everything else by doubles. -/
theorem Scalar.same_failsAs : (a.same b).FailsAs (· = .tooWide) := by
  unfold same
  split
  next => exact .pure _
  next => exact .map₂ toDouble_failsAs toDouble_failsAs

/-- Multiples of one constant are compared by their multipliers. -/
theorem Value.same_failsAs : (v.same w).FailsAs (· = .tooWide) := by
  have doubles : ∀ {v w : Value},
      Calc.FailsAs (· = .tooWide) (do return Double.approxEq (← v.toDouble) (← w.toDouble)) :=
    .map₂ toDouble_failsAs toDouble_failsAs
  unfold same
  split
  next => exact Scalar.same_failsAs
  next =>
    split
    next => exact Scalar.same_failsAs
    next => exact doubles
  next => exact doubles

namespace Number

/-- A question about a number is asked of its parts, one after the other. -/
theorem isZero_failsAs : z.isZero.FailsAs (· = .tooWide) :=
  .both Value.isZero_failsAs Value.isZero_failsAs

theorem isReal_failsAs : z.isReal.FailsAs (· = .tooWide) := Value.isZero_failsAs

theorem isFinite_failsAs : z.isFinite.FailsAs (· = .tooWide) :=
  .both Value.isFinite_failsAs Value.isFinite_failsAs

theorem isInt_failsAs : z.isInt.FailsAs (· = .tooWide) :=
  .both Value.isZero_failsAs Value.isInt_failsAs

/-- The sign is that of the leading part. -/
theorem sgn_failsAs : z.sgn.FailsAs (· = .tooWide) := by
  unfold sgn
  refine .ask Value.isZero_failsAs ?imaginary ?real
  case imaginary => exact Value.sgn_failsAs
  case real => exact Value.sgn_failsAs

theorem same_failsAs : (z.same y).FailsAs (· = .tooWide) :=
  .both Value.same_failsAs Value.same_failsAs

end Number

/-- Two leaves are compared by their numbers, if they are of one kind and name. -/
theorem Leaf.same_failsAs {a b : Leaf} : (a.same b).FailsAs (· = .tooWide) := by
  unfold same
  split
  next => exact Number.same_failsAs
  next =>
    split
    next => exact .both Number.same_failsAs Value.same_failsAs
    next => exact .pure _
  next => exact .pure _

/-- Two trees are compared leaf by leaf. -/
theorem Expr.same_failsAs {t u : Expr} : (t.same u).FailsAs (· = .tooWide) := by
  fun_induction same t u with
  | case1 => exact .pure _
  | case2 => exact Leaf.same_failsAs
  | case3 _ _ _ _ _ left right => exact .both left right
  | case4 => exact .pure _
  | case5 => exact .pure _

theorem Expr.hasNoNaN_failsAs : (hasNoNaN z).FailsAs (· = .tooWide) := by
  refine .both ?re ?im
  case re => exact Value.toDouble_failsAs.bind fun _ => .pure _
  case im => exact Value.toDouble_failsAs.bind fun _ => .pure _

end

/-! ## Calculating -/

section

variable [Exactness]

/-- A failure of arithmetic on numbers. -/
def Failure.IsNumeric : Failure → Prop
  | undefined _ | tooWide | doubleByZero | outsideDomain | widened _ => True
  | inexact => Exactness.required = true
  | _ => False

namespace Calc.FailsAs

variable {α : Type} {x : Calc α}

theorem numeric (h : x.FailsAs (· = .tooWide)) : x.FailsAs Failure.IsNumeric :=
  h.mono fun _ wide => wide ▸ True.intro

theorem undefined (what : Undefined) :
    Calc.FailsAs Failure.IsNumeric (MonadExcept.throw (Failure.undefined what) : Calc α) :=
  .throw True.intro

theorem doubleByZero :
    Calc.FailsAs Failure.IsNumeric (MonadExcept.throw Failure.doubleByZero : Calc α) :=
  .throw True.intro

end Calc.FailsAs

/-! ### Fractions and scalars -/

namespace Fraction

/-- A denominator of zero is refused. -/
theorem ofParts_failsAs (n d : Int) : (ofParts n d).FailsAs Failure.IsNumeric := by
  unfold ofParts
  split
  next => exact .undefined _
  next => exact .pure _

/-- The order of a root is divided by, so it must not be zero; a negative one is refused too. -/
theorem exactRoot?_failsAs (n k : Int) : (exactRoot? n k).FailsAs Failure.IsNumeric := by
  unfold exactRoot?
  split
  next small => exact .pure _
  split
  next wide => exact .pure _
  split
  next order => exact .doubleByZero
  split
  next huge => exact .pure _
  next => exact .pure _

end Fraction

namespace Scalar

variable {a b : Scalar} {q : Fraction}

/-- A double takes the place of an exact result, or is refused where none may. -/
theorem approximate_failsAs {v : Calc Double} (h : v.FailsAs Failure.IsNumeric) :
    (approximate v).FailsAs Failure.IsNumeric := by
  unfold approximate
  split
  next required => exact .throw required
  next => exact h.map

/-- What is too wide for a fraction may be too wide for a double, too. -/
theorem ofQuotient_failsAs (n d : Int) : (ofQuotient n d).FailsAs Failure.IsNumeric := by
  unfold ofQuotient
  split
  next zero => exact .undefined _
  next =>
    dsimp only
    split
    next narrow => exact .pure _
    next => exact approximate_failsAs Fraction.toDouble_failsAs.numeric

theorem reduce_failsAs : (reduce q).FailsAs Failure.IsNumeric := ofQuotient_failsAs _ _

/-- A double has no parts. -/
theorem reduceExact_failsAs (part : String) :
    (reduceExact q part).FailsAs Failure.IsNumeric := by
  unfold reduceExact
  refine reduce_failsAs.bind fun r => ?_
  cases r with
  | exact => exact .pure _
  | approx => exact .throw True.intro

/-- Fractions add up as quotients of integers. Otherwise a zero summand is dropped, or doubles
add up. -/
theorem add_failsAs : (a.add b).FailsAs Failure.IsNumeric := by
  unfold add
  split
  next => exact ofQuotient_failsAs _ _
  next =>
    have zeroBeside (s t : Scalar) :
        Calc.FailsAs Failure.IsNumeric (Calc.both (pure s.isZero) t.isFinite) :=
      .both (.pure _) isFinite_failsAs.numeric
    refine .ask (zeroBeside _ _) (.pure _) ?left
    refine .ask (zeroBeside _ _) (.pure _) ?both
    case both => exact .map₂ toDouble_failsAs.numeric toDouble_failsAs.numeric

/-- Zero absorbs every factor. -/
theorem mul_failsAs : (a.mul b).FailsAs Failure.IsNumeric := by
  unfold mul
  split
  next =>
    split
    next zero => exact .pure _
    next => exact ofQuotient_failsAs _ _
  next =>
    split
    next zero => exact .pure _
    next => exact .map₂ toDouble_failsAs.numeric toDouble_failsAs.numeric

/-- The divisor is asked for its double first. -/
theorem div_failsAs : (a.div b).FailsAs Failure.IsNumeric := by
  unfold div
  refine toDouble_failsAs.numeric.bind fun divisor => ?_
  split
  next zero => exact .undefined _
  split
  next => exact ofQuotient_failsAs _ _
  next => exact .map₂ toDouble_failsAs.numeric toDouble_failsAs.numeric

theorem inv_failsAs : a.inv.FailsAs Failure.IsNumeric := div_failsAs

/-- Zero has no negative power. -/
theorem exactPower?_failsAs (n : Int) : (exactPower? q n).FailsAs Failure.IsNumeric := by
  unfold exactPower?
  split
  next wide => exact .pure _
  split
  next negative =>
    split
    next zero => exact .undefined _
    next => exact (ofQuotient_failsAs _ _).map
  next => exact (ofQuotient_failsAs _ _).map

variable [Tolerance]

/-- A power of doubles is undefined for nought to a negative exponent. -/
theorem approxPower_failsAs : (approxPower a b).FailsAs Failure.IsNumeric := by
  unfold approxPower
  split
  next => exact .undefined _
  next =>
    refine approximate_failsAs ?_
    exact .map₂ toDouble_failsAs.numeric toDouble_failsAs.numeric

/-- Doubles are raised where the exact power is too wide. -/
theorem wholePower_failsAs (n : Int) : (wholePower q n).FailsAs Failure.IsNumeric := by
  unfold wholePower
  split
  next => exact .pure _
  next =>
    refine (exactPower?_failsAs n).bind fun found => ?_
    split
    next => exact .pure _
    next => exact approxPower_failsAs

/-- A convergent may be beyond the range of doubles. -/
theorem expand_failsAs (v : Double) (bound : ℕ) (c : Convergents) :
    (Convergents.expand v bound c).FailsAs Failure.IsNumeric := by
  induction bound generalizing c with
  | zero => exact .pure _
  | succ bound ih =>
    unfold Convergents.expand
    dsimp only
    split
    next value _ =>
      split
      next close => exact .pure _
      next => exact ih _
    next => exact .throw True.intro

/-- The convergent that was found is a quotient of two integers. -/
theorem recover?_failsAs (v : Double) : (recover? v).FailsAs Failure.IsNumeric := by
  unfold recover?
  split
  next infinite => exact .pure _
  next =>
    refine (expand_failsAs _ _ _).bind fun last => ?_
    exact (ofQuotient_failsAs _ _).map

end Scalar

variable [Tolerance]

/-! ### Values -/

namespace Value

variable {v w : Value} {m n : Scalar} {c d : Constant} {p q : Fraction}

/-- The base of a constant is taken for a fraction if its double is that of a convergent. -/
theorem wholeBase?_failsAs (base exponent : Double) :
    (wholeBase? base exponent).FailsAs Failure.IsNumeric := by
  unfold wholeBase?
  split
  next integral =>
    refine (Scalar.recover?_failsAs _).bind fun found => ?_
    split
    next q _ =>
      refine Fraction.toDouble_failsAs.numeric.bind fun _ => ?_
      split <;> exact .pure _
    next => exact .pure _
  next => exact .pure _

/-- Only a power of a fraction calculates; exponentials and logarithms are compared with what
they simplify to. -/
theorem collapse_failsAs : (collapse m c).FailsAs Failure.IsNumeric := by
  unfold collapse
  split
  next zero => exact .pure _
  split
  next base exponent =>
    split
    next => exact .pure _
    next =>
      -- only a power whose base is a fraction is computed, and every other one is kept
      refine (wholeBase?_failsAs _ _).bind fun found => ?_
      split
      next q _ =>
        refine (Scalar.wholePower_failsAs _).bind fun power => ?_
        exact Scalar.mul_failsAs.bind fun _ => .pure _
      next => exact .pure _
  next => split <;> exact .pure _
  next =>
    split
    next => exact .pure _
    next => split <;> exact .pure _

theorem neg_failsAs : v.neg.FailsAs Failure.IsNumeric := by
  cases v with
  | plain s => exact .pure _
  | symbolic mult c => exact collapse_failsAs

/-- An absolute value is the value or its opposite. -/
theorem abs_failsAs : v.abs.FailsAs Failure.IsNumeric := by
  unfold abs
  refine sgn_failsAs.numeric.bind fun sign => ?_
  split
  next => exact neg_failsAs
  next => exact .pure _

/-- The logarithm of zero is there before it is divided by. -/
theorem mergeSum?_failsAs : (mergeSum? m c n d).FailsAs Failure.IsNumeric := by
  unfold mergeSum?
  split
  next same => exact Scalar.add_failsAs.bind fun _ => collapse_failsAs.map
  split
  next a b =>
    refine .ask Scalar.same_failsAs.numeric ?joined (.pure _)
    refine .ask Scalar.same_failsAs.numeric ?product ?quotient
    case product => exact collapse_failsAs.map
    case quotient =>
      split
      next zero => exact .doubleByZero
      next => exact collapse_failsAs.map
  next => exact .pure _

/-- A sum that is no multiple of one constant is one of doubles. -/
theorem add_failsAs : (v.add w).FailsAs Failure.IsNumeric := by
  have zeroBeside (u r : Value) :
      Calc.FailsAs Failure.IsNumeric (Calc.both u.isZero r.isFinite) :=
    .both isZero_failsAs.numeric isFinite_failsAs.numeric
  have doubles : Calc.FailsAs Failure.IsNumeric
      (do return ofDouble ((← v.toDouble) + (← w.toDouble))) :=
    .map₂ toDouble_failsAs.numeric toDouble_failsAs.numeric
  unfold add
  split
  next => exact Scalar.add_failsAs.map
  refine .ask (zeroBeside _ _) (.pure _) ?left
  refine .ask (zeroBeside _ _) (.pure _) ?both
  case both =>
    dsimp only
    split
    next => exact mergeSum?_failsAs.bind (.option doubles fun _ => .pure _)
    next => exact FailsAs.bind (.pure _) (.option doubles fun _ => .pure _)

theorem sub_failsAs : (v.sub w).FailsAs Failure.IsNumeric := by
  unfold sub
  refine neg_failsAs.bind fun opposite => ?_
  exact add_failsAs

/-- Constants that merge are put in their simplest form. -/
theorem mergeProduct?_failsAs (sign : Double) :
    (mergeProduct? m c d sign).FailsAs Failure.IsNumeric := by
  unfold mergeProduct?
  split
  next => exact collapse_failsAs.map
  next =>
    split
    next => exact collapse_failsAs.map
    next => exact .pure _
  next => split <;> exact .pure _
  next => exact .pure _

/-- A plain factor multiplies the multiplier, and two constants may join. -/
theorem mul_failsAs : (v.mul w).FailsAs Failure.IsNumeric := by
  unfold mul
  split
  next => exact Scalar.mul_failsAs.map
  next =>
    split
    next zero => exact .pure _
    next => exact Scalar.mul_failsAs.bind fun _ => collapse_failsAs
  next =>
    split
    next zero => exact .pure _
    next => exact Scalar.mul_failsAs.bind fun _ => collapse_failsAs
  next =>
    -- two symbolic parts merge if they are of one kind, and are doubles otherwise
    refine Scalar.mul_failsAs.bind fun mult => ?_
    refine (mergeProduct?_failsAs _).bind fun found => ?_
    split
    next => exact .pure _
    next => exact .map₂ toDouble_failsAs.numeric toDouble_failsAs.numeric

/-- The multiplier is a product that has to be a scalar. -/
theorem scale_failsAs : (scale m c v).FailsAs Failure.IsNumeric := by
  unfold scale
  refine mul_failsAs.bind fun product => ?_
  refine toScalar_failsAs.numeric.bind fun mult => ?_
  exact collapse_failsAs

/-- The reciprocal of a logarithm is one of doubles. -/
theorem inv_failsAs : v.inv.FailsAs Failure.IsNumeric := by
  unfold inv
  split
  next => exact Scalar.inv_failsAs.map
  next => exact Scalar.inv_failsAs.bind fun _ => collapse_failsAs
  next => exact Scalar.inv_failsAs.bind fun _ => collapse_failsAs
  next =>
    refine toDouble_failsAs.numeric.bind fun double => ?_
    split
    next zero => exact .doubleByZero
    next => exact .pure _

theorem divDoubles_failsAs : (divDoubles v w).FailsAs Failure.IsNumeric :=
  .map₂ toDouble_failsAs.numeric toDouble_failsAs.numeric

/-- A divisor is refused whose double is zero. -/
theorem div_failsAs : (v.div w).FailsAs Failure.IsNumeric := by
  unfold div
  refine toDouble_failsAs.numeric.bind fun divisor => ?_
  split
  next zero => exact .undefined _
  split
  next => exact Scalar.div_failsAs.map
  next => exact Scalar.inv_failsAs.bind fun _ => scale_failsAs
  next =>
    refine Scalar.div_failsAs.bind fun mult => ?_
    refine (mergeProduct?_failsAs _).bind fun found => ?_
    split
    next => exact .pure _
    next => exact divDoubles_failsAs
  -- a symbolic divisor is inverted first
  next =>
    refine inv_failsAs.bind fun inverse => ?_
    split
    next => exact scale_failsAs
    next => exact divDoubles_failsAs

/-- A power of doubles is undefined for nought to a negative exponent. -/
theorem powDoubles_failsAs : (powDoubles v w).FailsAs Failure.IsNumeric := by
  have negative : Calc.FailsAs Failure.IsNumeric (do return decide ((← w.sgn) < 0)) :=
    sgn_failsAs.numeric.bind fun _ => .pure _
  unfold powDoubles
  refine .ask (.both isZero_failsAs.numeric negative) (.undefined _) ?defined
  case defined =>
    refine (Scalar.approximate_failsAs ?_).map
    exact .map₂ toDouble_failsAs.numeric toDouble_failsAs.numeric

/-- Roots are taken of a fraction in lowest terms, so it has to be narrow. -/
theorem rootPower?_failsAs : (rootPower? p q).FailsAs Failure.IsNumeric := by
  unfold rootPower?
  split
  next negative => exact .pure _
  refine (Scalar.reduceExact_failsAs _).bind fun reduced => ?_
  refine (Fraction.exactRoot?_failsAs _ _).bind fun num => ?_
  refine (Fraction.exactRoot?_failsAs _ _).bind fun den => ?_
  split
  next =>
    refine (Fraction.ofParts_failsAs _ _).bind fun root => ?_
    exact (Scalar.wholePower_failsAs _).bind fun _ => .pure _
  next =>
    split
    next half =>
      refine Fraction.toDouble_failsAs.numeric.bind fun base => ?_
      exact Fraction.toDouble_failsAs.numeric.bind fun _ => collapse_failsAs.map
    next => exact .pure _

/-- A power of a fraction may be a whole one or a root. -/
theorem fractionPower?_failsAs : (fractionPower? p q).FailsAs Failure.IsNumeric := by
  unfold fractionPower?
  refine (Scalar.reduceExact_failsAs _).bind fun exponent => ?_
  split
  next whole => exact (Scalar.exactPower?_failsAs _).bind fun _ => .pure _
  next => exact rootPower?_failsAs

/-- A power of plain values fails as one of fractions or of doubles. -/
theorem plainPow_failsAs : (plainPow m v).FailsAs Failure.IsNumeric := by
  unfold plainPow
  refine .ask isZero_failsAs.numeric (.pure _) ?nonzero
  case nonzero =>
    dsimp only
    split
    next => exact fractionPower?_failsAs.bind (.option powDoubles_failsAs fun _ => .pure _)
    next => exact FailsAs.bind (.pure _) (.option powDoubles_failsAs fun _ => .pure _)

/-- Powers and exponentials of the multiplier and of the constant go together. -/
theorem symbolicPower?_failsAs : (symbolicPower? m c n).FailsAs Failure.IsNumeric := by
  have raised (c : Double → Constant) : Calc.FailsAs Failure.IsNumeric (do
      let mult ← (← plainPow m (plain n)).toScalar
      some <$> collapse mult (c (← n.toDouble))) := by
    refine plainPow_failsAs.bind fun power => ?_
    refine toScalar_failsAs.numeric.bind fun mult => ?_
    exact Scalar.toDouble_failsAs.numeric.bind fun _ => collapse_failsAs.map
  unfold symbolicPower?
  split
  next => exact .pure _
  next base exponent =>
    refine .ask Scalar.isFinite_failsAs.numeric ?_ (.pure _)
    exact raised fun d => .power base (exponent * d)
  next a =>
    refine .ask Scalar.isFinite_failsAs.numeric ?_ (.pure _)
    exact raised fun d => .exp (a * d)

/-- **A power of values fails only as arithmetic does.** -/
theorem pow_failsAs : (v.pow w).FailsAs Failure.IsNumeric := by
  unfold pow
  split
  next => exact plainPow_failsAs
  next =>
    split
    next zero => exact .pure _
    next =>
      refine symbolicPower?_failsAs.bind fun found => ?_
      split
      next => exact .pure _
      next => exact powDoubles_failsAs
  next => exact .ask isZero_failsAs.numeric (.pure _) powDoubles_failsAs

end Value

/-! ### Numbers -/

namespace Number

variable {z w : Number} {v u : Value}

theorem neg_failsAs : z.neg.FailsAs Failure.IsNumeric :=
  .map₂ Value.neg_failsAs Value.neg_failsAs

theorem conj_failsAs : z.conj.FailsAs Failure.IsNumeric :=
  Value.neg_failsAs.bind fun _ => .pure _

theorem add_failsAs : (z.add w).FailsAs Failure.IsNumeric :=
  .map₂ Value.add_failsAs Value.add_failsAs

theorem sub_failsAs : (z.sub w).FailsAs Failure.IsNumeric :=
  .map₂ Value.sub_failsAs Value.sub_failsAs

/-- A real factor multiplies the two parts of the other one. -/
theorem mul_failsAs : (z.mul w).FailsAs Failure.IsNumeric := by
  unfold mul
  refine .ask isReal_failsAs.numeric ?right ?notRight
  case right => exact .map₂ Value.mul_failsAs Value.mul_failsAs
  refine .ask isReal_failsAs.numeric ?left ?complex
  case left => exact .map₂ Value.mul_failsAs Value.mul_failsAs
  case complex =>
    refine Value.mul_failsAs.bind fun _ => Value.mul_failsAs.bind fun _ => ?_
    refine Value.sub_failsAs.bind fun re => ?_
    refine Value.mul_failsAs.bind fun _ => Value.mul_failsAs.bind fun _ => ?_
    exact Value.add_failsAs.bind fun im => .pure _

/-- A part over nought is infinite, unless it is nought. -/
theorem partOverZero_failsAs : (partOverZero v).FailsAs Failure.IsNumeric := by
  unfold partOverZero
  refine .ask Value.isZero_failsAs.numeric (.pure _) ?infinite
  case infinite =>
    refine (Scalar.approximate_failsAs ?_).map
    exact Value.toDouble_failsAs.numeric.bind fun _ => .pure _

/-- Zero by zero and infinity by infinity are refused. What is divided else is divided part by
part, or with the conjugate of the divisor. -/
theorem div_failsAs : (z.div w).FailsAs Failure.IsNumeric := by
  unfold div
  refine .ask isZero_failsAs.numeric ?byZero ?defined
  case byZero =>
    refine .ask isZero_failsAs.numeric (.undefined _) ?_
    exact .map₂ partOverZero_failsAs partOverZero_failsAs
  -- zero and infinity are told apart before anything is divided
  refine isFinite_failsAs.numeric.bind fun finite => ?_
  split
  next byInfinity =>
    refine isFinite_failsAs.numeric.bind fun finite => ?_
    split
    next => exact .undefined _
    next => exact .pure _
  refine .ask isReal_failsAs.numeric ?real ?complex
  case real => exact .map₂ Value.div_failsAs Value.div_failsAs
  case complex =>
    refine Value.mul_failsAs.bind fun _ => Value.mul_failsAs.bind fun _ => ?_
    refine Value.add_failsAs.bind fun square => ?_
    refine conj_failsAs.bind fun conjugate => ?_
    refine mul_failsAs.bind fun product => ?_
    exact .map₂ Value.div_failsAs Value.div_failsAs

/-- Repeated squaring multiplies only. -/
theorem powFrom_failsAs (n : ℕ) : ∀ {z w : Number}, (powFrom z w n).FailsAs Failure.IsNumeric := by
  induction n using Nat.strong_induction_on with
  | _ n ih =>
    intro z w
    -- what is left to do with the bits above the lowest one
    have rest : ∀ a : Number, n ≠ 0 → Calc.FailsAs Failure.IsNumeric
        (if n / 2 = 0 then pure a else do powFrom a (← w.mul w) (n / 2)) := by
      intro a nonzero
      split
      next => exact .pure _
      next => exact mul_failsAs.bind fun _ => ih _ (by omega)
    unfold powFrom
    dsimp only
    split
    next => exact .pure _
    next nonzero =>
      split
      next odd => exact mul_failsAs.bind fun a => rest a nonzero
      next even => exact FailsAs.bind (.pure _) fun a => rest a nonzero

theorem powNat_failsAs (n : ℕ) : (z.powNat n).FailsAs Failure.IsNumeric := powFrom_failsAs n

/-- A negative power is the reciprocal of a whole one. -/
theorem powInt_failsAs (n : ℤ) : (z.powInt n).FailsAs Failure.IsNumeric := by
  unfold powInt
  split
  next negative => exact (powNat_failsAs _).bind fun _ => div_failsAs
  next => exact powNat_failsAs _

/-! ### Polar form -/

/-- On the axes the length is a magnitude, and elsewhere it is a root of the squares. -/
theorem lengthPow_failsAs : (z.lengthPow v).FailsAs Failure.IsNumeric := by
  unfold lengthPow
  refine .ask Value.isZero_failsAs.numeric ?real ?notReal
  case real => exact Value.abs_failsAs.bind fun _ => Value.pow_failsAs
  refine .ask Value.isZero_failsAs.numeric ?imaginary ?complex
  case imaginary => exact Value.abs_failsAs.bind fun _ => Value.pow_failsAs
  case complex =>
    refine Value.mul_failsAs.bind fun _ => Value.mul_failsAs.bind fun _ => ?_
    refine Value.add_failsAs.bind fun square => ?_
    exact Value.mul_failsAs.bind fun _ => Value.pow_failsAs

/-- An angle is a fraction of a half turn if one was found. -/
theorem argumentOf_failsAs (theta : Double) : (argumentOf theta).FailsAs Failure.IsNumeric := by
  unfold argumentOf
  refine (Scalar.recover?_failsAs _).bind fun found => ?_
  split
  next k _ =>
    refine Fraction.toDouble_failsAs.numeric.bind fun _ => ?_
    split
    next nice => exact Value.mul_failsAs
    next => exact .pure _
  next => exact .pure _

/-- On the axes the argument is a multiple of a right angle. -/
theorem argument_failsAs : z.argument.FailsAs Failure.IsNumeric := by
  unfold argument
  refine .ask Value.isZero_failsAs.numeric ?real ?notReal
  case real =>
    refine Value.sgn_failsAs.numeric.bind fun sign => ?_
    split <;> exact .pure _
  refine .ask Value.isZero_failsAs.numeric ?imaginary ?complex
  case imaginary =>
    refine Value.sgn_failsAs.numeric.bind fun sign => ?_
    split
    next => exact Value.mul_failsAs
    next => exact Value.neg_failsAs.bind fun _ => Value.mul_failsAs
  case complex =>
    refine Value.toDouble_failsAs.numeric.bind fun y => ?_
    exact Value.toDouble_failsAs.numeric.bind fun x => argumentOf_failsAs _

/-- Quarters of a turn exchange the parts and change their signs. -/
theorem turned_failsAs (quarters : ℤ) : (turned quarters v u).FailsAs Failure.IsNumeric := by
  unfold turned
  split
  next => exact .pure _
  split
  next => exact Value.neg_failsAs.bind fun _ => .pure _
  split
  next => exact .map₂ Value.neg_failsAs Value.neg_failsAs
  next => exact Value.neg_failsAs.bind fun _ => .pure _

/-- An angle is a fraction of the half turn as it stands, or by its double. -/
theorem halfTurns?_failsAs : (halfTurns? v).FailsAs Failure.IsNumeric := by
  unfold halfTurns?
  refine Value.div_failsAs.bind fun k => ?_
  split
  next => exact .pure _
  refine .ask Value.isFinite_failsAs.numeric ?finite (.pure _)
  case finite =>
    refine Value.toDouble_failsAs.numeric.bind fun _ => ?_
    refine (Scalar.recover?_failsAs _).bind fun found => ?_
    split
    next q =>
      refine Fraction.toDouble_failsAs.numeric.bind fun _ => ?_
      refine Value.toDouble_failsAs.numeric.bind fun _ => ?_
      split <;> exact .pure _
    next => exact .pure _

/-- The parts of the fraction are asked for twice, and each time they may be too wide. -/
theorem niceCircle?_failsAs (k : Fraction) : (niceCircle? k).FailsAs Failure.IsNumeric := by
  unfold niceCircle?
  refine (Scalar.reduceExact_failsAs _).bind fun k => ?_
  refine (Scalar.ofQuotient_failsAs _ _).bind fun turn => ?_
  split
  next => exact .throw True.intro
  refine Scalar.add_failsAs.bind fun rest => ?_
  split
  next => exact .throw True.intro
  split
  next => exact (turned_failsAs _).map
  next => exact .pure _

/-- A point in polar form is one of the nice points of the circle, or one of doubles. -/
theorem fromPolar_failsAs : (fromPolar v u).FailsAs Failure.IsNumeric := by
  have doubles : Calc.FailsAs Failure.IsNumeric (do
      let t ← u.toDouble
      let d ← v.toDouble
      return (⟨.ofDouble (d * t.cos), .ofDouble (d * t.sin)⟩ : Number)) := by
    refine Value.toDouble_failsAs.numeric.bind fun angle => ?_
    exact Value.toDouble_failsAs.numeric.bind fun _ => .pure _
  have nice (c : Value × Value) :
      Calc.FailsAs Failure.IsNumeric (do return ⟨← v.mul c.1, ← v.mul c.2⟩ : Calc Number) :=
    .map₂ Value.mul_failsAs Value.mul_failsAs
  -- with an angle that is known the parts are exact, and doubles without one
  unfold fromPolar
  refine .ask Value.isZero_failsAs.numeric (.pure _) ?nonzero
  refine Value.isFinite_failsAs.numeric.bind fun finite => ?_
  split
  next => exact .pure _
  refine halfTurns?_failsAs.bind fun found => ?_
  split
  next => exact (niceCircle?_failsAs _).bind (.option doubles nice)
  next => exact FailsAs.bind (.pure _) (.option doubles nice)

/-! ### Roots, logarithm, exponential and powers -/

/-- A root is a polar form with a part of the turn. -/
theorem rootAt_failsAs (n k : ℕ) : (rootAt v u n k).FailsAs Failure.IsNumeric := by
  unfold rootAt
  refine Value.mul_failsAs.bind fun turns => ?_
  refine Value.add_failsAs.bind fun full => ?_
  exact Value.div_failsAs.bind fun _ => fromPolar_failsAs

/-- Roots of positive order: the length has a root, and each of them has an angle. -/
theorem rootsNat_failsAs (n : ℕ) : (z.rootsNat n).FailsAs Failure.IsNumeric := by
  unfold rootsNat
  split
  next => exact .pure _
  refine .ask isZero_failsAs.numeric (.pure _) ?nonzero
  case nonzero =>
    refine (Fraction.ofParts_failsAs _ _).bind fun order => ?_
    refine lengthPow_failsAs.bind fun length => ?_
    refine argument_failsAs.bind fun argument => ?_
    exact .mapM (fun _ => rootAt_failsAs _ _) _

/-- Only the roots of order zero are refused. -/
theorem root_failsAs {n : ℤ} (h : n ≠ 0) : (z.root n).FailsAs Failure.IsNumeric := by
  have roots : (z.roots n).FailsAs Failure.IsNumeric := by
    unfold roots
    rw [if_neg h]
    split
    next negative => exact (rootsNat_failsAs _).bind fun _ => .mapM (fun _ => div_failsAs) _
    next => exact rootsNat_failsAs _
  unfold root
  refine roots.bind fun found => ?_
  split <;> exact .pure _

/-- The logarithm of doubles has no value at zero and below. -/
theorem lnDouble_failsAs : (lnValue.lnDouble v).FailsAs Failure.IsNumeric := by
  unfold lnValue.lnDouble
  refine Value.toDouble_failsAs.numeric.bind fun double => ?_
  split
  next => exact .throw True.intro
  next => exact .pure _

/-- A logarithm of a constant is looked up, and one of a double may have no value. -/
theorem lnValue_failsAs : (lnValue v).FailsAs Failure.IsNumeric := by
  unfold lnValue
  refine .ask Value.isZero_failsAs.numeric (.pure _) ?positive
  case positive =>
    split
    next => exact Fraction.toDouble_failsAs.numeric.bind fun _ => Value.collapse_failsAs
    next =>
      refine .ask Scalar.same_failsAs.numeric ?exponential lnDouble_failsAs
      case exponential => split <;> exact .pure _
    next => exact lnDouble_failsAs

/-- The exponential of a fraction is a constant, and so is that of a logarithm. Any other is that of
a double. -/
theorem expValue_failsAs : (expValue v).FailsAs Failure.IsNumeric := by
  unfold expValue
  split
  next => exact Fraction.toDouble_failsAs.numeric.bind fun _ => Value.collapse_failsAs
  next => exact Scalar.toDouble_failsAs.numeric.bind fun _ => Value.collapse_failsAs
  next => exact Value.toDouble_failsAs.numeric.bind fun _ => .pure _

/-- Off the real axis the logarithm is half that of the square of the length. -/
theorem ln_failsAs : z.ln.FailsAs Failure.IsNumeric := by
  have withArgument (re : Value) :
      Calc.FailsAs Failure.IsNumeric (do return (⟨re, ← z.argument⟩ : Number)) :=
    argument_failsAs.bind fun _ => .pure _
  unfold ln
  refine .ask isZero_failsAs.numeric (.pure _) ?nonzero
  refine .ask Value.isZero_failsAs.numeric ?real ?complex
  case real =>
    refine Value.abs_failsAs.bind fun magnitude => ?_
    exact lnValue_failsAs.bind withArgument
  case complex =>
    refine Value.mul_failsAs.bind fun _ => Value.mul_failsAs.bind fun _ => ?_
    refine Value.add_failsAs.bind fun square => ?_
    refine lnValue_failsAs.bind fun logarithm => ?_
    exact Value.mul_failsAs.bind withArgument

theorem exp_failsAs : z.exp.FailsAs Failure.IsNumeric :=
  expValue_failsAs.bind fun _ => fromPolar_failsAs

/-- The denominator of an exponent is asked for in lowest terms. -/
theorem rootExponent?_failsAs : (rootExponent? v).FailsAs Failure.IsNumeric := by
  -- a fraction whose denominator is above the limit is taken for no root
  have root (q : Fraction) : Calc.FailsAs Failure.IsNumeric (do
      let r ← Scalar.reduceExact q "den"
      if r.den ≤ rootLimit then
        if Double.approxEq (← r.toDouble) (← v.toDouble) then pure (some r) else pure none
      else pure none) := by
    refine (Scalar.reduceExact_failsAs _).bind fun r => ?_
    split
    next small =>
      refine Fraction.toDouble_failsAs.numeric.bind fun _ => ?_
      refine Value.toDouble_failsAs.numeric.bind fun _ => ?_
      split <;> exact .pure _
    next => exact .pure _
  unfold rootExponent?
  dsimp only
  split
  next => exact root _
  next =>
    refine Value.toDouble_failsAs.numeric.bind fun _ => ?_
    refine (Scalar.recover?_failsAs _).bind (.option (.pure _) fun found => ?_)
    cases found with
    | exact q => exact root q
    | approx => exact .pure _

/-- A power as the exponential of a product with a logarithm. -/
theorem powLn_failsAs : (z.powLn w).FailsAs Failure.IsNumeric := by
  unfold powLn
  refine ln_failsAs.bind fun logarithm => ?_
  exact mul_failsAs.bind fun _ => exp_failsAs

/-- A small integer multiplies, a positive base is raised as a value, and a fraction is a root; the
logarithm does the rest. -/
theorem powReal_failsAs : (z.powReal w).FailsAs Failure.IsNumeric := by
  have small : Calc.FailsAs Failure.IsNumeric
      (Calc.both w.re.isInt (return decide ((← w.re.toDouble).abs ≤ powLimit))) :=
    .both Value.isInt_failsAs.numeric (Value.toDouble_failsAs.numeric.bind fun _ => .pure _)
  have positive : Calc.FailsAs Failure.IsNumeric
      (Calc.both z.isReal (return decide (0 < (← z.re.sgn)))) :=
    .both isReal_failsAs.numeric (Value.sgn_failsAs.numeric.bind fun _ => .pure _)
  unfold powReal
  refine .ask small ?whole ?notWhole
  case whole => exact Value.toDouble_failsAs.numeric.bind fun _ => powInt_failsAs _
  refine .ask positive ?value ?general
  case value => exact Value.pow_failsAs.bind fun _ => .pure _
  case general =>
    refine rootExponent?_failsAs.bind fun found => ?_
    split
    next r => exact (powInt_failsAs _).bind fun _ => root_failsAs (Fraction.den_ne_zero _)
    next => exact powLn_failsAs

/-- **A power of numbers fails only as arithmetic does.** -/
theorem pow_failsAs : (z.pow w).FailsAs Failure.IsNumeric := by
  unfold pow
  refine .ask isZero_failsAs.numeric (.pure _) ?nonzero
  refine .ask isZero_failsAs.numeric ?ofZero ?general
  case ofZero =>
    refine Value.sgn_failsAs.numeric.bind fun sign => ?_
    split
    next => exact .pure _
    next => exact div_failsAs
  case general => exact .ask isReal_failsAs.numeric powReal_failsAs powLn_failsAs

/-! ### Functions

The trigonometric and hyperbolic functions are points in polar form, and their inverses are
logarithms.
-/

theorem sqrt_failsAs : z.sqrt.FailsAs Failure.IsNumeric := root_failsAs (by decide)

theorem abs_failsAs : z.abs.FailsAs Failure.IsNumeric := lengthPow_failsAs.bind fun _ => .pure _

theorem circle_failsAs : z.circle.FailsAs Failure.IsNumeric := fromPolar_failsAs

/-- A real number has a real sine, and a complex one takes hyperbolic functions of its imaginary
part. -/
theorem sin_failsAs : z.sin.FailsAs Failure.IsNumeric := by
  unfold sin
  refine circle_failsAs.bind fun p => ?_
  refine .ask Value.isZero_failsAs.numeric (.pure _) ?complex
  case complex =>
    refine Value.toDouble_failsAs.numeric.bind fun y => ?_
    exact .map₂ Value.mul_failsAs Value.mul_failsAs

/-- The cosine of a complex number has products with hyperbolic functions for its parts. -/
theorem cos_failsAs : z.cos.FailsAs Failure.IsNumeric := by
  unfold cos
  refine circle_failsAs.bind fun p => ?_
  refine .ask Value.isZero_failsAs.numeric (.pure _) ?complex
  case complex =>
    refine Value.toDouble_failsAs.numeric.bind fun y => ?_
    refine Value.mul_failsAs.bind fun re => ?_
    refine Value.mul_failsAs.bind fun im => ?_
    exact Value.neg_failsAs.bind fun _ => .pure _

theorem tan_failsAs : z.tan.FailsAs Failure.IsNumeric :=
  sin_failsAs.bind fun _ => cos_failsAs.bind fun _ => div_failsAs

/-- The double of the real part is asked for in any case. -/
theorem sinh_failsAs : z.sinh.FailsAs Failure.IsNumeric := by
  unfold sinh
  refine Value.toDouble_failsAs.numeric.bind fun x => ?_
  refine .ask Value.isZero_failsAs.numeric ?real ?complex
  case real => exact .ask Value.isZero_failsAs.numeric (.pure _) (.pure _)
  case complex =>
    refine fromPolar_failsAs.bind fun p => ?_
    exact .map₂ Value.mul_failsAs Value.mul_failsAs

/-- The hyperbolic cosine of a complex number has products with the circle for its parts. -/
theorem cosh_failsAs : z.cosh.FailsAs Failure.IsNumeric := by
  unfold cosh
  refine Value.toDouble_failsAs.numeric.bind fun x => ?_
  refine .ask Value.isZero_failsAs.numeric ?real ?complex
  case real => exact .ask Value.isZero_failsAs.numeric (.pure _) (.pure _)
  case complex =>
    refine fromPolar_failsAs.bind fun p => ?_
    exact .map₂ Value.mul_failsAs Value.mul_failsAs

theorem tanh_failsAs : z.tanh.FailsAs Failure.IsNumeric :=
  sinh_failsAs.bind fun _ => cosh_failsAs.bind fun _ => div_failsAs

/-- `-i ln (iz + √(1 - z²))`. -/
theorem asin_failsAs : z.asin.FailsAs Failure.IsNumeric := by
  unfold asin
  refine mul_failsAs.bind fun iz => ?_
  refine mul_failsAs.bind fun square => ?_
  refine sub_failsAs.bind fun radicand => ?_
  refine sqrt_failsAs.bind fun root => ?_
  refine add_failsAs.bind fun sum => ?_
  refine ln_failsAs.bind fun logarithm => ?_
  exact neg_failsAs.bind fun _ => mul_failsAs

theorem acos_failsAs : z.acos.FailsAs Failure.IsNumeric := by
  unfold acos
  refine Value.mul_failsAs.bind fun quarter => ?_
  exact asin_failsAs.bind fun _ => sub_failsAs

/-- `i/2 (ln (1 - iz) - ln (1 + iz))`. -/
theorem atan_failsAs : z.atan.FailsAs Failure.IsNumeric := by
  unfold atan
  refine mul_failsAs.bind fun iz => ?_
  refine sub_failsAs.bind fun _ => ln_failsAs.bind fun below => ?_
  refine add_failsAs.bind fun _ => ln_failsAs.bind fun above => ?_
  exact sub_failsAs.bind fun _ => mul_failsAs

/-- `ln (z + √(z² + 1))`. -/
theorem asinh_failsAs : z.asinh.FailsAs Failure.IsNumeric := by
  unfold asinh
  refine mul_failsAs.bind fun square => ?_
  refine add_failsAs.bind fun radicand => ?_
  refine sqrt_failsAs.bind fun root => ?_
  exact add_failsAs.bind fun _ => ln_failsAs

/-- `ln (z + √(z + 1) √(z - 1))`. -/
theorem acosh_failsAs : z.acosh.FailsAs Failure.IsNumeric := by
  unfold acosh
  refine add_failsAs.bind fun _ => sqrt_failsAs.bind fun above => ?_
  refine sub_failsAs.bind fun _ => sqrt_failsAs.bind fun below => ?_
  refine mul_failsAs.bind fun product => ?_
  exact add_failsAs.bind fun _ => ln_failsAs

/-- `1/2 (ln (1 + z) - ln (1 - z))`. -/
theorem atanh_failsAs : z.atanh.FailsAs Failure.IsNumeric := by
  unfold atanh
  refine add_failsAs.bind fun _ => ln_failsAs.bind fun above => ?_
  refine sub_failsAs.bind fun _ => ln_failsAs.bind fun below => ?_
  exact sub_failsAs.bind fun _ => mul_failsAs

end Number

/-! ### Operators -/

variable {z w : Number}

/-- An equation is evaluated as a difference. -/
theorem Binary.evaluate_failsAs (op : Binary) : (op.evaluate z w).FailsAs Failure.IsNumeric := by
  cases op with
  | equals => exact Number.sub_failsAs
  | add => exact Number.add_failsAs
  | sub => exact Number.sub_failsAs
  | mul => exact Number.mul_failsAs
  | div => exact Number.div_failsAs
  | pow => exact Number.pow_failsAs

/-- **Every named function fails only as arithmetic does.** -/
theorem Func.evaluate_failsAs (f : Func) : (f.evaluate z).FailsAs Failure.IsNumeric := by
  cases f with
  | ln => exact Number.ln_failsAs
  | exp => exact Number.exp_failsAs
  | abs => exact Number.abs_failsAs
  | sin => exact Number.sin_failsAs
  | cos => exact Number.cos_failsAs
  | tan => exact Number.tan_failsAs
  | asin => exact Number.asin_failsAs
  | acos => exact Number.acos_failsAs
  | atan => exact Number.atan_failsAs
  | sinh => exact Number.sinh_failsAs
  | cosh => exact Number.cosh_failsAs
  | tanh => exact Number.tanh_failsAs
  | asinh => exact Number.asinh_failsAs
  | acosh => exact Number.acosh_failsAs
  | atanh => exact Number.atanh_failsAs

end

/-- A failure of a calculation that is free to go on with doubles is one in any case. -/
theorem Failure.IsNumeric.of_free [Exactness] {e : Failure} (h : @IsNumeric .free e) :
    e.IsNumeric := by
  cases e with
  | inexact => cases h
  | _ => exact h

/-! ## Texts

A text is made of fractions in lowest terms, or of doubles where those are too wide. It is the
same whether a calculation has to stay exact or not.
-/

/-- A fraction is reduced before it is shown. -/
theorem Scalar.text_failsAs {a : Scalar} : a.text.FailsAs Failure.IsNumeric := by
  cases a with
  | exact q =>
    refine Scalar.reduce_failsAs.bind fun r => ?_
    cases r <;> exact .pure _
  | approx v => exact .pure _

variable [Tolerance] {z : Number}

/-- A multiplier that is a fraction stands on both sides of the constant, so its parts are asked
for. -/
theorem Value.symbolicText_failsAs {m : Scalar} (core : String) :
    (symbolicText m core).FailsAs Failure.IsNumeric := by
  unfold symbolicText
  refine .ask Scalar.same_failsAs.numeric (.pure _) ?notOne
  refine .ask Scalar.same_failsAs.numeric (.pure _) ?notNegOne
  case notNegOne =>
    split
    next =>
      split
      next => exact Scalar.text_failsAs.bind fun _ => .pure _
      next => exact (Scalar.reduceExact_failsAs _).bind fun _ => .pure _
    next => exact .pure _

theorem Value.text_failsAs {v : Value} : v.text.FailsAs Failure.IsNumeric := by
  cases v with
  | plain s => exact Scalar.text_failsAs
  | symbolic m c => exact symbolicText_failsAs _

/-- A part that is zero is not shown. -/
theorem Number.text_failsAs : z.text.FailsAs Failure.IsNumeric := by
  have imaginary : ∀ im : Value, (imaginaryText im).FailsAs Failure.IsNumeric := by
    intro im
    unfold imaginaryText
    refine .ask Value.same_failsAs.numeric (.pure _) ?notOne
    case notOne =>
      refine Value.text_failsAs.bind fun s => ?_
      split <;> exact .pure _
  unfold text
  refine .ask Value.isZero_failsAs.numeric Value.text_failsAs ?complex
  refine Value.abs_failsAs.bind fun magnitude => ?_
  refine (imaginary _).bind fun im => ?_
  refine .ask Value.isZero_failsAs.numeric ?alone ?behind
  case alone => exact Value.sgn_failsAs.numeric.bind fun _ => .pure _
  case behind =>
    refine Value.text_failsAs.bind fun re => ?_
    exact Value.sgn_failsAs.numeric.bind fun _ => .pure _

theorem Value.describe_failsAs {v : Value} : v.describe.FailsAs Failure.IsNumeric :=
  Value.text_failsAs.bind fun _ => .pure _

theorem Number.describe_failsAs : z.describe.FailsAs Failure.IsNumeric :=
  Number.text_failsAs.bind fun _ => .pure _

/-- Beside the failures of arithmetic, the factorial has one of its own. -/
theorem Number.factorial_failsAs [Exactness] :
    z.factorial.FailsAs fun e => e.IsNumeric ∨ ∃ s, e = .factorial s := by
  have numeric : ∀ {α : Type} {x : Calc α}, x.FailsAs Failure.IsNumeric →
      x.FailsAs fun e => e.IsNumeric ∨ ∃ s, e = .factorial s := fun h =>
    h.mono fun _ he => .inl he
  -- the argument is named in the failure, and its text may fail first
  have refused : Calc.FailsAs (fun e => e.IsNumeric ∨ ∃ s, e = .factorial s)
      (do throw (.factorial (← z.text)) : Calc Number) := by
    refine Calc.FailsAs.bind ?_ fun s => .throw (.inr ⟨s, rfl⟩)
    exact text_failsAs.mono fun _ he => .inl he.of_free
  unfold factorial
  refine (numeric isInt_failsAs.numeric).bind fun integer => ?_
  split
  next => exact refused
  refine (numeric Value.sgn_failsAs.numeric).bind fun sign => ?_
  split
  next negative => exact refused
  refine numeric (Value.toDouble_failsAs.numeric.bind fun double => ?_)
  dsimp only
  split
  next => exact (Scalar.ofQuotient_failsAs _ _).bind fun _ => .pure _
  next => exact .pure _

end SymbolicAlgebra
