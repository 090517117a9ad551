import SymbolicAlgebra.Proofs.Exact.Machine

/-!
# Quotients by doubles

A double below the zero bound is made zero, and it matters when that happens. A plain number is
divided by a double in one operation, so its quotient is zero only if the double of that is below
the bound (`Value.div_plain`). A multiple of a constant is multiplied by the reciprocal of the
divisor instead. The reciprocal is made zero on its own, and so is the product
(`Value.div_symbolic`).

So a divisor from `2 ^ 30` on makes zero of every multiple of a constant, however large that is,
and also where the multiplier alone would have a quotient far above the bound
(`Value.div_symbolic_of_large`).
-/

namespace SymbolicAlgebra

namespace Double

variable {v w x : Double} {r : ℚ}

/-! ## The zero bound -/

/-- What is rounded does not pass a double in magnitude. -/
theorem IsNearest.magnitude_le (h : v.IsNearest r) (finite : w.isFinite = true)
    (above : |r| ≤ w.value) : |v.value| ≤ w.value := by
  have positive := h.value_le finite ((le_abs_self r).trans above)
  have negative := h.neg.value_le finite ((neg_le_abs r).trans above)
  rw [value_neg] at negative
  exact abs_le'.mpr ⟨positive, negative⟩

/-- The zero bound. -/
theorem epsilon_mem : 1 / 2 ^ 106 ≤ epsilon.value ∧ epsilon.value ≤ 2 ^ 30 := by decide +kernel

theorem epsilon_pos : 0 < epsilon.value := lt_of_lt_of_le (by norm_num) epsilon_mem.1

/-- A finite double is made zero exactly below the zero bound. -/
theorem isZero_snap_iff (h : v.isFinite = true) :
    (snap v).isZero = true ↔ |v.value| < epsilon.value := by
  rw [snap_eq h]
  split
  next small => exact iff_of_true rfl small
  next large =>
    refine iff_of_false (fun zero => large ?_) large
    rw [value_of_isZero zero, abs_zero]
    exact epsilon_pos

/-- Doubles that are not made zero have no zero among them. -/
theorem value_ne_zero (h : epsilon.value ≤ |v.value|) : v.value ≠ 0 :=
  abs_pos.mp (epsilon_pos.trans_le h)

theorem isZero_eq_false (h : epsilon.value ≤ |v.value|) : v.isZero = false :=
  Bool.eq_false_iff.mpr fun zero => value_ne_zero h (value_of_isZero zero)

/-- The reciprocal of a double that is not made zero. -/
theorem inv_isNearest_of_epsilon (finite : v.isFinite = true) (h : epsilon.value ≤ |v.value|) :
    (1 / v).IsNearest (1 / v.value) :=
  inv_isNearest finite (epsilon_mem.1.trans h)

/-- Zero absorbs every finite factor. -/
theorem isZero_snap_mul_zero (h : x.isFinite = true) (finite : w.isFinite = true)
    (zero : w.value = 0) : (snap (x * w)).isZero = true := by
  have product := mul_isNearest h finite (by rw [zero, mul_zero, abs_zero]; exact range_pos)
  rw [zero, mul_zero] at product
  rw [isZero_snap_iff product.finite, product.eq_value zero_isNearest.finite value_zero, abs_zero]
  exact epsilon_pos

/-! ## The two ways to divide -/

/-- The product with the reciprocal, which is made zero on its own. -/
def byReciprocal (x v : Double) : Double := x * snap (1 / v)

/-- It becomes zero if the reciprocal is below the zero bound. -/
theorem isZero_byReciprocal (hx : x.isFinite = true) (finite : (1 / v).isFinite = true)
    (small : |(1 / v).value| < epsilon.value) : (snap (x.byReciprocal v)).isZero = true := by
  unfold byReciprocal
  rw [snap_eq finite, if_pos small]
  exact isZero_snap_mul_zero hx zero_spec.1 zero_spec.2

/-- **It becomes zero where the reciprocal is below the zero bound, or the product is.** -/
theorem isZero_byReciprocal_iff (hx : x.isFinite = true) (inv : (1 / v).isFinite = true)
    (finite : (x * (1 / v)).isFinite = true) : (snap (x.byReciprocal v)).isZero = true ↔
      |(1 / v).value| < epsilon.value ∨ |(x * (1 / v)).value| < epsilon.value := by
  by_cases small : |(1 / v).value| < epsilon.value
  · exact iff_of_true (isZero_byReciprocal hx inv small) (.inl small)
  · unfold byReciprocal
    rw [snap_eq inv, if_neg small, isZero_snap_iff finite]
    exact (or_iff_right small).symm

/-- The reciprocal of a number from `2 ^ 30` on is below the zero bound. -/
theorem inv_lt_epsilon (hv : v.isFinite = true) (large : 2 ^ 30 ≤ |v.value|) :
    |(1 / v).value| < epsilon.value := by
  have least : epsilon.value ≤ |v.value| := epsilon_mem.2.trans large
  have value : (⟨0x3e10000000000000⟩ : Double).value = 1 / 2 ^ 30 := by decide +kernel
  have bound : |1 / v.value| ≤ (⟨0x3e10000000000000⟩ : Double).value := by
    rw [value, abs_div, abs_one]
    exact one_div_le_one_div_of_le (by norm_num) large
  exact ((inv_isNearest_of_epsilon hv least).magnitude_le rfl bound).trans_lt
    (by decide +kernel)

end Double

namespace Scalar

variable {m : Scalar} {v x : Double}

/-- Division by a double divides once. -/
theorem div_approx (hm : m.toDouble = .ok x) (nonzero : v.isZero = false) :
    m.div (.approx v) = .ok (ofDouble (x / v)) := by
  show (if v.isZero = true then _ else _) = _
  rw [nonzero]
  cases m <;> exact congrArg (fun d : Calc Double => do return ofDouble ((← d) / v)) hm

/-- Multiplication with a double multiplies once. -/
theorem mul_approx (hm : m.toDouble = .ok x) (other : m.isExactZero = false) :
    m.mul (.approx v) = .ok (ofDouble (x * v)) := by
  have absorbed : ¬(m.isExactZero || (approx v).isExactZero) = true := by
    rw [other]
    exact Bool.false_ne_true
  have product := congrArg (fun d : Calc Double => do return ofDouble ((← d) * v)) hm
  cases m <;> exact (if_neg (t := pure zero) absorbed).trans product

end Scalar

namespace Value

variable [Tolerance] {m : Scalar} {c : Constant} {v x : Double}

/-- A plain number is divided by a double in one operation. -/
theorem div_plain (hm : m.toDouble = .ok x) (nonzero : v.isZero = false) :
    (plain m).div (plain (.approx v)) = .ok (ofDouble (x / v)) := by
  show (if v.isZero = true then _ else _) = _
  rw [nonzero]
  exact congrArg (plain <$> ·) (Scalar.div_approx hm nonzero)

/-- **A multiple of a constant is multiplied by the reciprocal of a double.** -/
theorem div_symbolic (hm : m.toDouble = .ok x) (other : m.isExactZero = false)
    (nonzero : v.isZero = false) :
    (symbolic m c).div (plain (.approx v)) = collapse (.ofDouble (x.byReciprocal v)) c := by
  have one : Scalar.one.toDouble = .ok 1 := rfl
  have inverse : Scalar.inv (.approx v) = .ok (.ofDouble (1 / v)) := Scalar.div_approx one nonzero
  have product : m.mul (.ofDouble (1 / v)) = .ok (.ofDouble (x.byReciprocal v)) :=
    Scalar.mul_approx hm other
  show (if v.isZero = true then _ else _) = _
  rw [nonzero]
  show (do scale m c (plain (← Scalar.inv (.approx v)))) = _
  rw [inverse]
  show (do collapse (← (← plain <$> m.mul (.ofDouble (1 / v))).toScalar) c) = _
  rw [product]
  rfl

/-- **A double from `2 ^ 30` on makes zero of every multiple of a constant**, but of a plain number
only if their quotient is below the zero bound. -/
theorem div_symbolic_of_large (hm : m.toDouble = .ok x) (other : m.isExactZero = false)
    (hx : x.isFinite = true) (hv : v.isFinite = true) (large : 2 ^ 30 ≤ |v.value|) :
    (symbolic m c).div (plain (.approx v)) = .ok zero ∧
      ((x / v).isFinite = true → Double.epsilon.value ≤ |(x / v).value| →
        ∃ s, (plain m).div (plain (.approx v)) = .ok (plain s) ∧ s.isZero = false) := by
  have least : Double.epsilon.value ≤ |v.value| := Double.epsilon_mem.2.trans large
  have nonzero := Double.isZero_eq_false least
  constructor
  · have vanished : (Scalar.ofDouble (x.byReciprocal v)).isZero = true :=
      Double.isZero_byReciprocal hx (Double.inv_isNearest_of_epsilon hv least).finite
        (Double.inv_lt_epsilon hv large)
    rw [div_symbolic hm other nonzero]
    exact if_pos vanished
  · intro finite above
    refine ⟨_, div_plain hm nonzero, ?_⟩
    exact Bool.eq_false_iff.mpr (mt (Double.isZero_snap_iff finite).mp (not_lt.mpr above))

/-- A hundred thousand times the circle constant, and a hundred thousand, by ten to the tenth. -/
example :
    letI := Double.standardTolerance
    let n : Scalar := .ofInt 100000
    (symbolic n (.power Double.pi 1)).div (plain (.approx 1e10)) = .ok zero ∧
      (plain n).div (plain (.approx 1e10)) = .ok (ofDouble 1e-5) := by
  decide +kernel

end Value

end SymbolicAlgebra
