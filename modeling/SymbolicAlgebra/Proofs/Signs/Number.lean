import SymbolicAlgebra.Expr.Basic
import SymbolicAlgebra.Proofs.Exact.Calculation
import SymbolicAlgebra.Proofs.Signs.Double

/-!
# Signs of numbers

The opposite of a negative number need not be positive: a number that is given may hold a double
below the zero bound, which its opposite drops, or a constant that collapses only when it is
negated. But what has been negated once is *settled*: its doubles are snapped and its constants
do not collapse, so to negate it again changes nothing but signs (`Value.neg_opposed`), and a
negative number that is settled has an opposite that is neither negative nor zero
(`Leaf.neg_of_sgn`).

No fact about the exponential, the logarithm or the power of doubles is needed for it. They are
factors, and the sign of a product turns over with that of the other factor.
-/

namespace SymbolicAlgebra

/-! ## Scalars -/

namespace Double

variable {v : Double}

/-- Zero is below the zero bound. -/
theorem abs_lt_epsilon_of_isZero (h : v.isZero = true) : v.abs < epsilon := by
  have bits : v.bits &&& 0x7fffffffffffffff = 0 := by
    rw [← UInt64.toNat_inj, UInt64.toNat_and]
    exact (Nat.and_two_pow_sub_one_eq_mod _ 63).trans (beq_iff_eq.mp h)
  have zero : v.abs = ⟨0⟩ := congrArg Double.mk bits
  rw [zero]
  decide +kernel

/-- Snapping twice is snapping once. -/
theorem snap_snap (v : Double) : snap (snap v) = snap v := by
  by_cases h : v.abs < epsilon
  · have zero : snap v = 0 := if_pos h
    rw [zero]
    exact if_pos (abs_lt_epsilon_of_isZero rfl)
  · have same : snap v = v := if_neg h
    rw [same, same]

/-- A snapped double is zero or not below the bound, and its opposite is likewise. -/
theorem snap_neg (h : snap v = v) : snap (-v) = if v.isZero then 0 else -v := by
  split
  next zero => exact if_pos (abs_lt_epsilon_of_isZero ((isZero_neg v).trans zero))
  next nonzero =>
    refine if_neg fun small => nonzero ?_
    rw [abs_neg] at small
    rw [← h, snap, if_pos small]
    rfl

end Double

/-- To negate a fraction other than zero negates its double. -/
theorem Fraction.toDouble_neg {q : Fraction} (h : q.isZero = false) :
    q.neg.toDouble = (-·) <$> q.toDouble := by
  have num : q.num ≠ 0 := beq_eq_false_iff_ne.mp h
  have sign : (decide (-q.num < 0) != decide (q.den < 0)) =
      !(decide (q.num < 0) != decide (q.den < 0)) := by
    rcases lt_or_gt_of_ne num with below | above
    · rw [decide_eq_true below, decide_eq_false (by omega)]
      cases decide (q.den < 0) <;> rfl
    · rw [decide_eq_true (by omega : -q.num < 0), decide_eq_false (by omega : ¬q.num < 0)]
      cases decide (q.den < 0) <;> rfl
  unfold toDouble neg Double.ratio? Double.quotient?
  simp only [sign, Int.natAbs_neg, if_neg (Int.natAbs_ne_zero.mpr num)]
  by_cases finite : Double.quotientBits q.num.natAbs q.den.natAbs < Double.infinityBits
  · simp only [if_pos finite, Double.signed_not _ finite]
    rfl
  · simp only [if_neg finite]
    rfl

namespace Scalar

variable {s : Scalar}

/-- A double below the zero bound is zero. -/
def IsSnapped : Scalar → Prop
  | exact _ => True
  | approx v => Double.snap v = v

theorem isSnapped_ofDouble (v : Double) : (ofDouble v).IsSnapped := Double.snap_snap v

theorem isSnapped_neg (s : Scalar) : s.neg.IsSnapped := by
  cases s with
  | exact q => exact True.intro
  | approx v => exact isSnapped_ofDouble _

/-- A snapped scalar is zero where its opposite is. -/
theorem isZero_neg (h : s.IsSnapped) : s.neg.isZero = s.isZero := by
  cases s with
  | exact q => exact Bool.eq_iff_iff.mpr (by simp [neg, isZero, Fraction.isZero, Fraction.neg])
  | approx v =>
    show (Double.snap (-v)).isZero = v.isZero
    rw [Double.snap_neg h]
    split
    next zero => exact zero.symm
    next => exact Double.isZero_neg v

/-- A snapped scalar and its opposite are not both negative. -/
theorem neg_not_both (h : s.IsSnapped) : ¬(s.neg.sgn < 0 ∧ s.sgn < 0) := by
  cases s with
  | exact q =>
    show ¬(q.neg.sgn < 0 ∧ q.sgn < 0)
    unfold Fraction.sgn Fraction.neg
    dsimp only
    rw [Int.sign_neg]
    split <;> omega
  | approx v =>
    show ¬((Double.snap (-v)).sign < 0 ∧ v.sign < 0)
    rw [Double.snap_neg h]
    split
    next => exact fun both => absurd both.1 (by decide +kernel)
    next => exact Double.Mirrors.not_both (.inl rfl)

/-- To negate a snapped scalar other than zero negates its double. -/
theorem toDouble_neg (h : s.IsSnapped) (nonzero : s.isZero = false) :
    s.neg.toDouble = (-·) <$> s.toDouble := by
  cases s with
  | exact q => exact Fraction.toDouble_neg nonzero
  | approx v =>
    show Except.ok (Double.snap (-v)) = Except.ok (-v)
    have number : v.isZero = false := nonzero
    rw [Double.snap_neg h, number]
    rfl

variable [Exactness]

/-- What a quotient of integers becomes is snapped. -/
theorem ofQuotient_isSnapped (n d : ℤ) : Returns (ofQuotient n d) IsSnapped := by
  unfold ofQuotient
  split
  · exact Returns.throw _
  · dsimp only
    split
    · exact Returns.pure True.intro
    · unfold approximate
      split
      · exact Returns.throw _
      · exact Returns.map fun v _ => isSnapped_ofDouble v

/-- Products are snapped. -/
theorem mul_isSnapped (a b : Scalar) : Returns (a.mul b) IsSnapped := by
  unfold mul
  split
  · split
    · exact Returns.pure True.intro
    · exact ofQuotient_isSnapped _ _
  · split
    · exact Returns.pure True.intro
    · exact Returns.after fun _ => Returns.after fun _ => Returns.pure (isSnapped_ofDouble _)

end Scalar

/-! ## Values -/

variable [Tolerance]

/-- The multiplier turns the sign of the multiple of a constant. -/
theorem Constant.mirrors_times (c : Constant) (m : Double) :
    Double.Mirrors (c.times (-m)) (c.times m) := by
  cases c with
  | power => exact Double.mirrors_mul m _
  | log => exact Double.mirrors_mul m _
  | exp a =>
    simp only [times]
    split
    · rw [Double.isNegative_neg]
      exact Double.mirrors_infinity _
    · exact Double.mirrors_mul m _

variable [Exactness]

namespace Value

variable {u v : Value}

/-- The doubles are snapped, and the constant does not collapse. -/
def IsSettled : Value → Prop
  | plain s => s.IsSnapped
  | symbolic m c => m.IsSnapped ∧ m.isZero = false ∧
      ∀ n : Scalar, n.isZero = false → collapse n c = .ok (symbolic n c)

/-- The values are both zero or both not, and not both are negative. -/
structure Opposed (u v : Value) : Prop where
  isZero : u.isZero = v.isZero
  notBoth {m n : ℤ} : u.sgn = .ok m → v.sgn = .ok n → ¬(m < 0 ∧ n < 0)

omit [Exactness] in
theorem isZero_symbolic (m : Scalar) (c : Constant) :
    isZero (symbolic m c) = m.toDouble >>= fun d => pure (c.times d).isZero := by
  unfold isZero toDouble
  exact bind_assoc ..

omit [Exactness] in
theorem sgn_symbolic (m : Scalar) (c : Constant) :
    sgn (symbolic m c) = m.toDouble >>= fun d => pure (c.times d).sign := by
  unfold sgn toDouble
  exact bind_assoc ..

/-- What has not collapsed does not, whatever multiplies it. -/
theorem collapse_isSettled {m : Scalar} {c : Constant} (h : m.IsSnapped) :
    Returns (collapse m c) IsSettled := by
  -- the multiplier is asked whether it is zero and nothing else, so any other passes as well
  cases hm : m.isZero with
  | true =>
    unfold collapse
    rw [if_pos hm]
    exact Returns.pure True.intro
  | false =>
    have nonzero {n : Scalar} (hn : n.isZero = false) : ¬n.isZero = true := Bool.eq_false_iff.mp hn
    unfold collapse
    rw [if_neg (nonzero hm)]
    cases c with
    | power base exponent =>
      dsimp only
      split
      next => exact Returns.pure h
      next general =>
        refine Returns.bind (P := (wholeBase? base exponent = .ok ·)) (fun _ => id) fun o ho => ?_
        cases o with
        | some q =>
          refine Returns.after fun power => ?_
          refine Returns.bind (Scalar.mul_isSnapped m _) fun s product => ?_
          exact Returns.pure product
        | none =>
          refine Returns.pure ⟨h, hm, fun n hn => ?_⟩
          unfold collapse
          rw [if_neg (nonzero hn)]
          dsimp only
          rw [if_neg general, ho]
          rfl
    | exp a =>
      dsimp only
      split
      next => exact Returns.pure h
      next general =>
        refine Returns.pure ⟨h, hm, fun n hn => ?_⟩
        unfold collapse
        rw [if_neg (nonzero hn)]
        exact if_neg general
    | log a =>
      dsimp only
      split
      next => exact Returns.pure True.intro
      next notOne =>
        split
        next => exact Returns.pure h
        next general =>
          refine Returns.pure ⟨h, hm, fun n hn => ?_⟩
          unfold collapse
          rw [if_neg (nonzero hn)]
          exact (if_neg notOne).trans (if_neg general)

theorem neg_isSettled (v : Value) : Returns v.neg IsSettled := by
  cases v with
  | plain s => exact Returns.pure s.isSnapped_neg
  | symbolic m c => exact collapse_isSettled m.isSnapped_neg

omit [Exactness] in
/-- A negative value is not zero. -/
theorem isZero_of_sgn {n : ℤ} (h : v.sgn = .ok n) (negative : n < 0) : v.isZero = .ok false := by
  cases v with
  | plain s =>
    cases h
    refine congrArg Except.ok ?_
    cases s with
    | exact q =>
      refine beq_eq_false_iff_ne.mpr fun zero => ?_
      simp [Scalar.sgn, Fraction.sgn, zero] at negative
    | approx d => exact Double.isZero_of_lt_zero (Double.lt_zero_of_sign negative)
  | symbolic m c =>
    rw [sgn_symbolic] at h
    rw [isZero_symbolic]
    obtain ⟨d, hd, h⟩ := Calc.bind_eq_ok.mp h
    cases h
    rw [hd]
    exact congrArg Except.ok (Double.isZero_of_lt_zero (Double.lt_zero_of_sign negative))

/-- To negate a settled value changes nothing but its sign. -/
theorem neg_opposed (h : v.IsSettled) : Returns v.neg (Opposed · v) := by
  cases v with
  | plain s =>
    refine Returns.pure ⟨congrArg Except.ok (Scalar.isZero_neg h), ?_⟩
    rintro m n ⟨rfl⟩ ⟨rfl⟩
    exact Scalar.neg_not_both h
  | symbolic m c =>
    obtain ⟨snapped, nonzero, kept⟩ := h
    have negated : neg (symbolic m c) = .ok (symbolic m.neg c) :=
      kept _ ((Scalar.isZero_neg snapped).trans nonzero)
    rw [negated]
    refine Returns.pure ?_
    -- both are asked for their doubles, and those mirror each other
    have doubles := Scalar.toDouble_neg snapped nonzero
    cases hd : m.toDouble with
    | error e =>
      rw [hd] at doubles
      refine ⟨?_, fun h => ?_⟩
      · rw [isZero_symbolic, isZero_symbolic, doubles, hd]
        rfl
      · rw [sgn_symbolic, doubles] at h
        cases h
    | ok d =>
      rw [hd] at doubles
      have mirrors := c.mirrors_times d
      refine ⟨?_, fun h h' => ?_⟩
      · rw [isZero_symbolic, isZero_symbolic, doubles, hd]
        exact congrArg Except.ok mirrors.isZero_eq
      · rw [sgn_symbolic, doubles] at h
        rw [sgn_symbolic, hd] at h'
        cases h
        cases h'
        exact mirrors.not_both

end Value

/-! ## Complex numbers and leaves -/

namespace Number

variable {z : Number}

/-- Both parts are settled. -/
def IsSettled (z : Number) : Prop := z.re.IsSettled ∧ z.im.IsSettled

theorem neg_isSettled (z : Number) : Returns z.neg IsSettled := by
  refine Returns.bind z.re.neg_isSettled fun re hre => ?_
  refine Returns.bind z.im.neg_isSettled fun im him => ?_
  exact Returns.pure ⟨hre, him⟩

/-- The opposite of a negative number that is settled is not negative, and not zero. -/
theorem neg_of_sgn (h : z.IsSettled) {n : ℤ} (hn : z.sgn = .ok n) (negative : n < 0) :
    Returns z.neg fun w => (∀ m, w.sgn = .ok m → ¬m < 0) ∧ w.isZero = .ok false := by
  refine Returns.bind (Value.neg_opposed h.1) fun re hre => ?_
  refine Returns.bind (Value.neg_opposed h.2) fun im him => Returns.pure ?_
  unfold sgn isZero
  dsimp only
  rw [hre.isZero, him.isZero]
  -- the real parts are both zero or both not, so the same part has the sign
  obtain ⟨zero, hzero, hn⟩ := Calc.bind_eq_ok.mp hn
  rw [hzero]
  cases zero with
  | true =>
    exact ⟨fun m hm both => him.notBoth hm hn ⟨both, negative⟩, Value.isZero_of_sgn hn negative⟩
  | false =>
    exact ⟨fun m hm both => hre.notBoth hm hn ⟨both, negative⟩, rfl⟩

end Number

namespace Leaf

variable {a : Leaf}

/-- The number or coefficient is settled. -/
def IsSettled : Leaf → Prop
  | number z => z.IsSettled
  | monomial _ mult _ => mult.IsSettled

theorem neg_isSettled (a : Leaf) : Returns a.neg IsSettled := by
  cases a with
  | number z => exact Returns.map z.neg_isSettled
  | monomial x mult p => exact Returns.bind mult.neg_isSettled fun _ h => Returns.pure h

/-- The opposite of a negative leaf that is settled is not negative, and not the number zero. -/
theorem neg_of_sgn (h : a.IsSettled) {n : ℤ} (hn : a.sgn = .ok n) (negative : n < 0) :
    Returns a.neg fun b => (∀ m, b.sgn = .ok m → ¬m < 0) ∧ b.isNumberZero = .ok false := by
  cases a with
  | number z => exact Returns.map (Number.neg_of_sgn h hn negative)
  | monomial x mult p =>
    exact Returns.bind (Number.neg_of_sgn h hn negative) fun _ hw => Returns.pure ⟨hw.1, rfl⟩

end Leaf

end SymbolicAlgebra
