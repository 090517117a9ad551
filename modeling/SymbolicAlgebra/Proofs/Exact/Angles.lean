import SymbolicAlgebra.Proofs.Exact.Powers
import SymbolicAlgebra.Proofs.Exact.Product

/-!
# Nice angles

The way from length and argument to a number is exact at every multiple of a quarter and of a sixth
of `π` (`Number.fromPolar_nice`). Both parts are rational multiples of one, `√2` or `√3` then, and as
real numbers they are what cosine and sine say.

The angle goes there and back. A multiple of the circle constant keeps its factor apart from the
constant (`Value.IsHalfTurns`), so the quotient by the constant is the factor again, for its double
is finite. Integer division takes off full turns and then quarter turns, with remainders that are
not negative, also for angles that are (`full_turns`, `quarter_turns`). Of the angles below a quarter
turn four are left (`OnGrid.nice`), and a table has their cosines and sines. Last, the quarter turns
are put on again, which swaps the two with signs (`Number.turned_eq`).

A length takes one bit less than the limit of exact arithmetic, because the coordinates of the table
are halves.
-/

namespace SymbolicAlgebra

/-! ## Factors of one -/

namespace Scalar

variable [Exactness] {k : Fraction}

/-- A narrow fraction over one is the fraction in lowest terms. -/
theorem exact_div_one (narrow : Narrow k.toRat) :
    (exact k).div one = .ok (exact (.ofRat k.toRat)) := by
  have unit : (Fraction.ofInt 1).toRat = 1 := by rw [Fraction.toRat_ofInt, Int.cast_one]
  have value : k.toRat / (Fraction.ofInt 1).toRat = k.toRat := by rw [unit, div_one]
  have quotient := exact_div (g := .ofInt 1) rfl (unit.trans_ne one_ne_zero) (value.symm ▸ narrow)
  rwa [value] at quotient

theorem one_inv : one.inv = .ok one := by
  have unit : (Fraction.ofInt 1).toRat = 1 := by rw [Fraction.toRat_ofInt, Int.cast_one]
  have quotient := exact_div_one (k := .ofInt 1) (unit.symm ▸ by norm_num [Narrow])
  rwa [unit] at quotient

end Scalar

/-! ## Multiples of the circle constant -/

namespace Double

variable [Tolerance]

/-- The power one of the circle constant is the constant: nothing is computed. -/
theorem power_pi_one : power pi 1 = pi := by
  unfold power
  rw [if_neg (by decide +kernel), if_neg (by decide +kernel)]
  decide +kernel

theorem approxEq_pi : approxEq pi pi = true := if_pos rfl

theorem isNamed_pi : isNamed pi = true := by
  unfold isNamed named
  rw [List.any_cons, approxEq_pi, Bool.true_or]

end Double

/-- The double of a narrow fraction is far inside the range. -/
theorem Fraction.toDouble_lt {f : Fraction} {v : Double} (narrow : f.isNarrow = true)
    (double : f.toDouble = .ok v) : |v.value| < 2 ^ 200 := by
  have width : (f.num.natAbs : ℚ) ≤ 2 ^ 53 := by
    exact_mod_cast ((isNarrow_iff f).mp narrow).1
  have bound : |f.toRat| ≤ 2 ^ 53 := (abs_div_le_natAbs _ f.den_ne_zero).trans width
  have error := toDouble_error narrow double
  have triangle := abs_sub_abs_le_abs_sub v.value f.toRat
  calc |v.value| ≤ 2 ^ 53 + 1 := by linarith
    _ < 2 ^ 200 := by norm_num

namespace Value

/-- The value is a rational multiple of the circle constant, as arithmetic makes it. -/
inductive IsHalfTurns (q : ℚ) : Value → Prop
  /-- No turn at all. -/
  | zero (h : q = 0) : IsHalfTurns q zero
  /-- A multiple that is not zero. -/
  | multiple {m : Scalar} (hm : m.Is q) (nonzero : q ≠ 0) :
    IsHalfTurns q (symbolic m (.power Double.pi 1))

variable [Tolerance] {k : Fraction} {theta : Value} {q : ℚ}

theorem toDouble_pi : pi.toDouble = .ok Double.pi := by
  show (do return (← Scalar.one.toDouble) * Double.power Double.pi 1 : Calc Double) = _
  rw [Double.power_pi_one]
  decide +kernel

/-- A number of half turns is finite: the double of a narrow fraction times pi stays in range. -/
theorem IsHalfTurns.isFinite_eq (h : theta.IsHalfTurns q) : theta.isFinite = .ok true := by
  cases h with
  | zero => exact is_zero.isFinite_eq
  | multiple hm nonzero =>
    obtain ⟨f, rfl, narrow, rfl⟩ := hm
    obtain ⟨v, double, finite, -⟩ := Fraction.toDouble_narrow narrow
    have product := Double.isFinite_mul finite (b := Double.pi) rfl
      (Fraction.toDouble_lt narrow double) (by decide +kernel)
    have angle : (symbolic (.exact f) (.power Double.pi 1)).toDouble = .ok (v * Double.pi) := by
      show (do return (← f.toDouble) * Double.power Double.pi 1 : Calc Double) = _
      rw [double, Double.power_pi_one]
      rfl
    unfold isFinite
    rw [angle]
    exact congrArg Except.ok product

variable [Exactness]

/-- The circle constant has a name, so its integer powers are not computed. -/
theorem collapse_pi {m : Scalar} {exponent : Double} (nonzero : m.isZero = false)
    (h : exponent.isZero = false) :
    collapse m (.power Double.pi exponent) = .ok (symbolic m (.power Double.pi exponent)) := by
  have one : Double.pi.equals 1 = false := rfl
  have kept : wholeBase? Double.pi exponent = .ok none := by
    unfold wholeBase?
    rw [Double.isNamed_pi, Bool.not_true, Bool.and_false]
    rfl
  unfold collapse
  rw [nonzero]
  dsimp only
  rw [h, one, kept]
  rfl

/-- The reciprocal of the circle constant is kept as its power minus one. -/
theorem inv_pi : pi.inv = .ok (symbolic .one (.power Double.pi (-1))) := by
  have nonzero : Scalar.one.isZero = false := rfl
  exact Calc.bind_eq_ok.mpr ⟨_, Scalar.one_inv, collapse_pi nonzero rfl⟩

/-- A multiple of the circle constant is a number of half turns. -/
theorem pi_mul (narrow : Narrow k.toRat) :
    ∃ theta, pi.mul (exact k) = .ok theta ∧ theta.IsHalfTurns k.toRat := by
  by_cases zero : k.toRat = 0
  · exact ⟨_, if_pos (k.isZero_iff.mpr zero), .zero zero⟩
  · obtain ⟨_, ⟨rfl⟩, multiplier⟩ := is_ofRat narrow
    have nonzero := Bool.eq_false_iff.mpr (mt multiplier.isZero_iff.mp zero)
    refine ⟨_, (if_neg (mt k.isZero_iff.mp zero)).trans ?_, .multiple multiplier zero⟩
    exact Calc.bind_eq_ok.mpr
      ⟨_, Scalar.one_mul_exact narrow, collapse_pi nonzero rfl⟩

/-- The exponents of the constant cancel, and the power zero leaves the multiplier alone. -/
theorem mergeProduct?_pi {m : Scalar} (nonzero : m.isZero = false) :
    mergeProduct? m (.power Double.pi 1) (.power Double.pi 1) (-1) = .ok (some (plain m)) := by
  have cancelled : ((1 : Double) + -1 * 1).isZero = true := rfl
  show (if Double.approxEq Double.pi Double.pi then some <$> collapse _ _ else pure none) = _
  rw [if_pos Double.approxEq_pi]
  unfold collapse
  rw [nonzero]
  dsimp only
  rw [cancelled]
  rfl

/-- The quotient by the circle constant is the fraction again. -/
theorem IsHalfTurns.div_pi (h : theta.IsHalfTurns q) :
    ∃ k, theta.div pi = .ok (exact k) ∧ k.toRat = q := by
  have divides : ¬Double.pi.isZero = true := by decide +kernel
  cases h with
  | zero h =>
    -- zero does not keep the constant, so it is multiplied by the reciprocal
    refine ⟨.ofInt 0, Calc.bind_eq_ok.mpr ⟨_, toDouble_pi, ?_⟩, ?_⟩
    · rw [if_neg divides]
      exact Calc.bind_eq_ok.mpr ⟨_, inv_pi, rfl⟩
    · rw [h, Fraction.toRat_ofInt, Int.cast_zero]
  | multiple hm nonzero =>
    obtain ⟨f, rfl, narrow, rfl⟩ := hm
    have narrow := Fraction.narrow_toRat narrow
    obtain ⟨_, ⟨rfl⟩, multiplier⟩ := is_ofRat narrow
    have merged := mergeProduct?_pi (Bool.eq_false_iff.mpr (mt multiplier.isZero_iff.mp nonzero))
    refine ⟨_, Calc.bind_eq_ok.mpr ⟨_, toDouble_pi, ?_⟩, Fraction.toRat_ofRat f.toRat⟩
    rw [if_neg divides]
    refine Calc.bind_eq_ok.mpr ⟨_, Scalar.exact_div_one narrow, ?_⟩
    exact Calc.bind_eq_ok.mpr ⟨_, merged, rfl⟩

end Value

/-! ## Multiples of square roots -/

theorem Scalar.is_half : (exact (.halves 1)).Is (1 / 2) :=
  ⟨_, rfl, by decide, by norm_num [Fraction.toRat, Fraction.halves]⟩

namespace Value

/-- The value is the rational multiple `q √n` of one, of `√2` or of `√3`. A root is kept as the power
one half. -/
inductive IsRootMultiple (q : ℚ) : ℕ → Value → Prop
  /-- A rational number. -/
  | rational {v : Value} (h : v.Is q) : IsRootMultiple q 1 v
  /-- A multiple of a root. -/
  | root {m : Scalar} {base exponent : Double} {n : ℕ} (hm : m.Is q) (nonzero : q ≠ 0)
    (irrational : n = 2 ∨ n = 3) (hb : base.value = n) (he : exponent.value = 1 / 2) :
    IsRootMultiple q n (symbolic m (.power base exponent))

/-- The value is a rational multiple of one, `√2` or `√3`, and stands for the real number. -/
def IsSurd (v : Value) (x : ℝ) : Prop := ∃ q n, v.IsRootMultiple q n ∧ x = q * √n

/-- The value is a number of halves of such a root, two at most. That is what cosine and sine are at
the nice angles. -/
def IsCoordinate (v : Value) (x : ℝ) : Prop :=
  ∃ (j : ℤ) (n : ℕ), j.natAbs ≤ 2 ∧ v.IsRootMultiple (j / 2) n ∧ x = (j / 2 : ℚ) * √n

theorem isCoordinate_zero : zero.IsCoordinate 0 :=
  ⟨0, 1, by decide, .rational (by simpa using is_zero), by simp⟩

theorem isCoordinate_one : one.IsCoordinate 1 :=
  ⟨2, 1, by decide, .rational (by simpa using is_one), by simp⟩

theorem isCoordinate_half : half.IsCoordinate (1 / 2) :=
  ⟨1, 1, by decide, .rational ⟨_, rfl, by simpa using Scalar.is_half⟩, by simp⟩

/-- Half the square root of two is a coordinate, kept as a power. -/
theorem isCoordinate_halfRootTwo : halfRootTwo.IsCoordinate (√2 / 2) := by
  refine ⟨1, 2, by decide, .root (by simpa using Scalar.is_half) (by norm_num) (.inl rfl) ?_ ?_, ?_⟩
  · decide +kernel
  · decide +kernel
  · push_cast
    ring

/-- Half the square root of three is a coordinate, kept as a power. -/
theorem isCoordinate_halfRootThree : halfRootThree.IsCoordinate (√3 / 2) := by
  refine ⟨1, 3, by decide, .root (by simpa using Scalar.is_half) (by norm_num) (.inr rfl) ?_ ?_, ?_⟩
  · decide +kernel
  · decide +kernel
  · push_cast
    ring

variable [Tolerance] [Exactness] {v w : Value} {p q : ℚ} {n : ℕ} {x : ℝ}

/-- A multiple of a root stays one: its exponent is no integer, so the root is not computed. -/
theorem collapse_root {m : Scalar} {base exponent : Double} (hm : m.Is q) (nonzero : q ≠ 0)
    (irrational : n = 2 ∨ n = 3) (hb : base.value = n) (he : exponent.value = 1 / 2) :
    ∃ v, collapse m (.power base exponent) = .ok v ∧ v.IsRootMultiple q n := by
  refine ⟨_, collapse_power (Bool.eq_false_iff.mpr (mt hm.isZero_iff.mp nonzero)) ?_ fun k => ?_,
    .root hm nonzero irrational hb he⟩
  · rw [hb]
    rcases irrational with rfl | rfl <;> norm_num
  · rw [he]
    intro whole
    -- one half is no integer, so the root is not computed
    have odd : (1 : ℤ) = 2 * k := by
      exact_mod_cast (by linarith : (1 : ℚ) = 2 * k)
    omega

/-- The opposite of a multiple of a root. -/
theorem IsRootMultiple.neg (h : v.IsRootMultiple q n) :
    ∃ w, v.neg = .ok w ∧ w.IsRootMultiple (-q) n := by
  cases h with
  | rational h =>
    obtain ⟨w, neg, hw⟩ := h.neg
    exact ⟨w, neg, .rational hw⟩
  | root hm nonzero irrational hb he =>
    exact collapse_root hm.neg (neg_ne_zero.mpr nonzero) irrational hb he

/-- A rational multiple of a multiple of a root, where the factors make a narrow one. -/
theorem IsRootMultiple.mul (h : w.IsRootMultiple q n) (hv : v.IsRat p) (nonzero : p ≠ 0)
    (narrow : Narrow (p * q)) : ∃ r, v.mul w = .ok r ∧ r.IsRootMultiple (p * q) n := by
  cases h with
  | rational h =>
    obtain ⟨r, mul, hr⟩ := hv.mul h.isRat narrow
    exact ⟨r, mul, .rational hr⟩
  | root hm nonzero' irrational hb he =>
    obtain ⟨f, rfl, rfl⟩ := hv
    obtain ⟨g, rfl, -, rfl⟩ := hm
    rw [mul_comm] at narrow ⊢
    obtain ⟨_, ⟨rfl⟩, hm⟩ := is_ofRat narrow
    obtain ⟨r, collapsed, hr⟩ := collapse_root hm (mul_ne_zero nonzero' nonzero) irrational hb he
    refine ⟨r, (if_neg (mt f.isZero_iff.mp nonzero)).trans ?_, hr⟩
    exact Calc.bind_eq_ok.mpr ⟨_, Scalar.exact_mul narrow, collapsed⟩

/-- The opposite of a coordinate is one. -/
theorem IsCoordinate.neg (h : v.IsCoordinate x) : ∃ w, v.neg = .ok w ∧ w.IsCoordinate (-x) := by
  obtain ⟨j, n, small, hv, rfl⟩ := h
  obtain ⟨w, neg, hw⟩ := hv.neg
  refine ⟨w, neg, -j, n, (Int.natAbs_neg j).trans_le small, ?_, ?_⟩
  · rwa [Int.cast_neg, neg_div]
  · push_cast
    ring

/-- A length with a bit to spare times a coordinate. -/
theorem IsCoordinate.mul {r : Fraction} (h : v.IsCoordinate x) (nonzero : r.toRat ≠ 0)
    (hnum : r.num.natAbs ≤ 2 ^ 52) (hden : r.den.natAbs ≤ 2 ^ 52) :
    ∃ w, (exact r).mul v = .ok w ∧ w.IsSurd (r.toRat * x) := by
  obtain ⟨j, n, small, hv, rfl⟩ := h
  -- the numerator doubles at most, and so does the denominator
  have narrow : Narrow (r.toRat * (j / 2)) := by
    have value : r.toRat * (j / 2) = (r.num * j : ℤ) / (r.den * 2 : ℤ) := by
      unfold Fraction.toRat
      push_cast
      rw [div_mul_div_comm]
    rw [value]
    refine Fraction.narrow_div (mul_ne_zero r.den_ne_zero two_ne_zero) ?_ ?_
    · rw [Int.natAbs_mul]
      exact (Nat.mul_le_mul hnum small).trans (by norm_num)
    · rw [Int.natAbs_mul]
      exact (Nat.mul_le_mul hden le_rfl).trans (by norm_num)
  obtain ⟨w, mul, hw⟩ := hv.mul ⟨r, rfl, rfl⟩ nonzero narrow
  refine ⟨w, mul, _, n, hw, ?_⟩
  push_cast
  ring

end Value

/-! ## Turns -/

/-- The number is a multiple of a quarter or of a sixth. -/
def OnGrid (x : ℚ) : Prop := ∃ b : ℤ, x = b / 4 ∨ x = b / 6

section

variable {x t : ℚ}

/-- The denominators of the nice angles divide four or six. -/
theorem onGrid_of_den (h : x.den ∈ [1, 2, 3, 4, 6]) : OnGrid x := by
  have whole := x.mul_den_eq_num
  have divides : x.den ∣ 4 ∨ x.den ∣ 6 := by
    simp only [List.mem_cons, List.not_mem_nil, or_false] at h
    rcases h with h | h | h | h | h <;> rw [h] <;> decide
  rcases divides with ⟨c, hc⟩ | ⟨c, hc⟩
  · have four : (4 : ℚ) = x.den * c := by exact_mod_cast hc
    refine ⟨x.num * c, .inl ?_⟩
    push_cast
    linear_combination (c * whole + x * four) / 4
  · have six : (6 : ℚ) = x.den * c := by exact_mod_cast hc
    refine ⟨x.num * c, .inr ?_⟩
    push_cast
    linear_combination (c * whole + x * six) / 6

/-- Half turns do not leave the grid. -/
theorem OnGrid.sub_halves (h : OnGrid x) (w : ℤ) : OnGrid (x - w / 2) := by
  obtain ⟨b, rfl | rfl⟩ := h
  · refine ⟨b - 2 * w, .inl ?_⟩
    push_cast
    ring
  · refine ⟨b - 3 * w, .inr ?_⟩
    push_cast
    ring

/-- Below a quarter turn there are four such angles. -/
theorem OnGrid.nice (h : OnGrid x) (nonneg : 0 ≤ x) (below : x < 1 / 2) :
    x = 0 ∨ x = 1 / 6 ∨ x = 1 / 4 ∨ x = 1 / 3 := by
  obtain ⟨b, rfl | rfl⟩ := h
  · have low : (0 : ℚ) ≤ b := by linarith
    have high : (b : ℚ) < 2 := by linarith
    norm_cast at low high
    obtain rfl | rfl : b = 0 ∨ b = 1 := by omega
    all_goals norm_num
  · have low : (0 : ℚ) ≤ b := by linarith
    have high : (b : ℚ) < 3 := by linarith
    norm_cast at low high
    obtain rfl | rfl | rfl : b = 0 ∨ b = 1 ∨ b = 2 := by omega
    all_goals norm_num

/-- Within a full turn they are narrow. -/
theorem OnGrid.narrow (h : OnGrid x) (nonneg : 0 ≤ x) (below : x < 2) : Narrow x := by
  obtain ⟨b, rfl | rfl⟩ := h
  · have low : (0 : ℚ) ≤ b := by linarith
    have high : (b : ℚ) < 8 := by linarith
    norm_cast at low high
    exact Fraction.narrow_div (b := 4) (by decide) (by omega) (by decide)
  · have low : (0 : ℚ) ≤ b := by linarith
    have high : (b : ℚ) < 12 := by linarith
    norm_cast at low high
    exact Fraction.narrow_div (b := 6) (by decide) (by omega) (by decide)

/-- The remainder of the numerator takes the full turns off. -/
theorem full_turns (q : ℚ) : ∃ (t : ℚ) (j : ℤ),
    t = (q.num % (2 * q.den) : ℤ) / (q.den : ℤ) ∧ q = t + 2 * j ∧ 0 ≤ t ∧ t < 2 := by
  have positive : (0 : ℚ) < q.den := Nat.cast_pos.mpr q.den_pos
  have double : 0 < 2 * (q.den : ℤ) := by exact_mod_cast Nat.mul_pos two_pos q.den_pos
  have split : (q.num % (2 * q.den) : ℤ) + 2 * q.den * (q.num / (2 * q.den) : ℤ) = q.num :=
    Int.emod_add_mul_ediv _ _
  have nonneg := Int.emod_nonneg q.num double.ne'
  have below := Int.emod_lt_of_pos q.num double
  generalize q.num % (2 * q.den) = n at split nonneg below ⊢
  generalize q.num / (2 * q.den) = j at split
  -- all that counts of the remainder is how it splits the numerator, and its bounds
  refine ⟨_, j, rfl, ?_, ?_, ?_⟩
  · have split : (n : ℚ) + 2 * q.den * j = q.num := by exact_mod_cast split
    rw [Int.cast_natCast, ← mul_right_inj' positive.ne', mul_add, mul_div_cancel₀ _ positive.ne',
      mul_comm, q.mul_den_eq_num, ← split]
    ring
  · exact div_nonneg (Int.cast_nonneg nonneg) positive.le
  · rw [Int.cast_natCast, div_lt_iff₀ positive]
    exact_mod_cast below

/-- The integer quotient of twice the parts counts the quarter turns. -/
theorem quarter_turns (nonneg : 0 ≤ t) (below : t < 2) : ∃ w : ℤ,
    w = 2 * t.num / t.den ∧ 0 ≤ w ∧ w < 4 ∧ 0 ≤ t - w / 2 ∧ t - w / 2 < 1 / 2 := by
  have floor : 2 * t.num / t.den = ⌊2 * t⌋ := by
    have value : 2 * t = (2 * t.num : ℤ) / (t.den : ℕ) := by
      push_cast
      rw [mul_div_assoc, t.num_div_den]
    rw [value, Rat.floor_intCast_div_natCast]
  have low := Int.floor_le (2 * t)
  have high := Int.lt_floor_add_one (2 * t)
  refine ⟨_, floor.symm, Int.floor_nonneg.mpr (by linarith), Int.floor_lt.mpr ?_, ?_, ?_⟩
  · push_cast
    linarith
  · linarith
  · linarith

end

/-! ## Coordinates -/

namespace Number

open scoped Real

/-- The table of the four nice angles below a quarter turn. -/
theorem niceAngle?_eq {x : ℚ} (nice : x = 0 ∨ x = 1 / 6 ∨ x = 1 / 4 ∨ x = 1 / 3) :
    ∃ c s, niceAngle? x.num x.den = some (c, s) ∧
      c.IsCoordinate (Real.cos (x * π)) ∧ s.IsCoordinate (Real.sin (x * π)) := by
  rcases nice with rfl | rfl | rfl | rfl
  · refine ⟨.one, .zero, rfl, ?_, ?_⟩
    · simpa using Value.isCoordinate_one
    · simpa using Value.isCoordinate_zero
  · have angle : ((1 / 6 : ℚ) : ℝ) * π = π / 6 := by
      push_cast
      ring
    rw [angle, Real.cos_pi_div_six, Real.sin_pi_div_six]
    exact ⟨.halfRootThree, .half, by norm_num [niceAngle?], Value.isCoordinate_halfRootThree,
      Value.isCoordinate_half⟩
  · have angle : ((1 / 4 : ℚ) : ℝ) * π = π / 4 := by
      push_cast
      ring
    rw [angle, Real.cos_pi_div_four, Real.sin_pi_div_four]
    exact ⟨.halfRootTwo, .halfRootTwo, by norm_num [niceAngle?], Value.isCoordinate_halfRootTwo,
      Value.isCoordinate_halfRootTwo⟩
  · have angle : ((1 / 3 : ℚ) : ℝ) * π = π / 3 := by
      push_cast
      ring
    rw [angle, Real.cos_pi_div_three, Real.sin_pi_div_three]
    exact ⟨.half, .halfRootThree, by norm_num [niceAngle?], Value.isCoordinate_half,
      Value.isCoordinate_halfRootThree⟩

section

variable [Tolerance] [Exactness] {c s : Value} {k r : Fraction}

/-- Each quarter turn takes cosine and sine to minus sine and cosine. -/
theorem turned_eq {quarters : ℤ} {a : ℝ} (hc : c.IsCoordinate (Real.cos a))
    (hs : s.IsCoordinate (Real.sin a)) (nonneg : 0 ≤ quarters) (below : quarters < 4) :
    ∃ c' s', turned quarters c s = .ok (c', s') ∧
      c'.IsCoordinate (Real.cos (a + quarters * (π / 2))) ∧
      s'.IsCoordinate (Real.sin (a + quarters * (π / 2))) := by
  obtain ⟨c', negC, hc'⟩ := hc.neg
  obtain ⟨s', negS, hs'⟩ := hs.neg
  obtain rfl | rfl | rfl | rfl : quarters = 0 ∨ quarters = 1 ∨ quarters = 2 ∨ quarters = 3 := by
    omega
  · refine ⟨c, s, rfl, ?_, ?_⟩ <;> simpa
  · have angle : a + (1 : ℤ) * (π / 2) = a + π / 2 := by
      push_cast
      ring
    rw [angle, Real.cos_add_pi_div_two, Real.sin_add_pi_div_two]
    exact ⟨s', c, Calc.bind_eq_ok.mpr ⟨_, negS, rfl⟩, hs', hc⟩
  · have angle : a + (2 : ℤ) * (π / 2) = a + π := by
      push_cast
      ring
    rw [angle, Real.cos_add_pi, Real.sin_add_pi]
    exact ⟨c', s', Calc.bind_eq_ok.mpr ⟨_, negC, Calc.bind_eq_ok.mpr ⟨_, negS, rfl⟩⟩, hc', hs'⟩
  · have angle : a + (3 : ℤ) * (π / 2) = a + π / 2 + π := by
      push_cast
      ring
    rw [angle, Real.cos_add_pi, Real.sin_add_pi, Real.cos_add_pi_div_two, Real.sin_add_pi_div_two,
      neg_neg]
    exact ⟨s, c', Calc.bind_eq_ok.mpr ⟨_, negC, rfl⟩, hs, hc'⟩

/-- The point of the unit circle at an angle on the grid. -/
theorem niceCircle?_eq (narrow : Narrow k.toRat) (grid : OnGrid k.toRat) :
    ∃ c s, niceCircle? k = .ok (some (c, s)) ∧ c.IsCoordinate (Real.cos (k.toRat * π)) ∧
      s.IsCoordinate (Real.sin (k.toRat * π)) := by
  have bottom : (k.toRat.den : ℤ) ≠ 0 := Int.natCast_ne_zero.mpr k.toRat.den_ne_zero
  -- `t` is the angle within a full turn, and `w` counts the quarter turns in that
  obtain ⟨t, j, ht, full, t0, t2⟩ := full_turns k.toRat
  obtain ⟨w, hw, w0, w4, x0, x1⟩ := quarter_turns t0 t2
  have gridT : OnGrid t := by
    have turns : t = k.toRat - (4 * j : ℤ) / 2 := by
      rw [full]
      push_cast
      ring
    exact turns ▸ grid.sub_halves _
  have gridX : OnGrid (t - w / 2) := gridT.sub_halves w
  have turn : Scalar.ofQuotient (k.toRat.num % (2 * k.toRat.den)) k.toRat.den =
      .ok (.exact (.ofRat t)) := by
    rw [ht]
    exact Scalar.ofQuotient_eq _ bottom (ht ▸ gridT.narrow t0 t2)
  have rest : (Scalar.exact (.ofRat t)).add (.neg (.exact (.halves w))) =
      .ok (.exact (.ofRat (t - w / 2))) := by
    have value : (Fraction.ofRat t).toRat + (Fraction.halves w).neg.toRat = t - w / 2 := by
      rw [Fraction.toRat_ofRat, Fraction.toRat_neg, ← sub_eq_add_neg]
      rfl
    have sum := Scalar.exact_add (value.symm ▸ gridX.narrow x0 (by linarith))
    rwa [value] at sum
  obtain ⟨c, s, angle, hc, hs⟩ := niceAngle?_eq (gridX.nice x0 x1)
  have table : niceAngle? (Fraction.ofRat (t - w / 2)).num (Fraction.ofRat (t - w / 2)).den =
    some (c, s) := angle
  obtain ⟨c', s', quarters, hc', hs'⟩ := turned_eq hc hs w0 w4
  have total : (k.toRat : ℝ) * π = (t - w / 2 : ℚ) * π + w * (π / 2) + j * (2 * π) := by
    rw [full]
    push_cast
    ring
  rw [total, Real.cos_add_int_mul_two_pi, Real.sin_add_int_mul_two_pi]
  subst hw
  refine ⟨c', s', ?_, hc', hs'⟩
  refine Calc.bind_eq_ok.mpr ⟨_, Scalar.reduceExact_of_narrow narrow "num", ?_⟩
  refine Calc.bind_eq_ok.mpr ⟨_, turn, ?_⟩
  refine Calc.bind_eq_ok.mpr ⟨_, rest, ?_⟩
  dsimp only
  rw [table]
  exact congrArg (some <$> ·) quarters

/-- **At the nice angles the way back from length and argument is exact.** The length may be
negative, and the angle may go round many times and backwards. -/
theorem fromPolar_nice (hk : k.num.natAbs ≤ 2 ^ 52 ∧ k.den.natAbs ≤ 2 ^ 52)
    (nice : k.toRat.den ∈ [1, 2, 3, 4, 6])
    (hr : r.num.natAbs ≤ 2 ^ 52 ∧ r.den.natAbs ≤ 2 ^ 52) (nonzero : r.toRat ≠ 0) :
    ∃ theta z, Value.pi.mul (.exact k) = .ok theta ∧ fromPolar (.exact r) theta = .ok z ∧
      z.re.IsSurd (r.toRat * Real.cos (k.toRat * π)) ∧
      z.im.IsSurd (r.toRat * Real.sin (k.toRat * π)) := by
  have narrow : Narrow k.toRat := Fraction.narrow_div k.den_ne_zero (by omega) (by omega)
  obtain ⟨theta, angle, turns⟩ := Value.pi_mul narrow
  -- this fraction is in lowest terms, unlike the one that the angle was made of
  obtain ⟨k', divided, same⟩ := turns.div_pi
  have recovered : halfTurns? theta = .ok (some k') := Calc.bind_eq_ok.mpr ⟨_, divided, rfl⟩
  obtain ⟨c, s, circle, hc, hs⟩ := niceCircle?_eq (k := k') (same ▸ narrow)
    (same ▸ onGrid_of_den nice)
  rw [same] at hc hs
  obtain ⟨x, re, hx⟩ := hc.mul nonzero hr.1 hr.2
  obtain ⟨y, im, hy⟩ := hs.mul nonzero hr.1 hr.2
  refine ⟨theta, ⟨x, y⟩, angle, ?_, hx, hy⟩
  have length : (Value.exact r).isZero = .ok false :=
    congrArg Except.ok (Bool.eq_false_iff.mpr (mt r.isZero_iff.mp nonzero))
  -- neither a length of zero nor an infinite angle, and the circle is in the table
  refine Calc.bind_eq_ok.mpr ⟨_, length, ?_⟩
  refine Calc.bind_eq_ok.mpr ⟨_, turns.isFinite_eq, ?_⟩
  refine Calc.bind_eq_ok.mpr ⟨_, recovered, ?_⟩
  refine Calc.bind_eq_ok.mpr ⟨_, circle, ?_⟩
  refine Calc.bind_eq_ok.mpr ⟨_, re, ?_⟩
  exact Calc.bind_eq_ok.mpr ⟨_, im, rfl⟩

end

/-- The length `3 / (-2)` at `-51 / 18` half turns, more than one turn backwards. Neither is in
lowest terms. -/
theorem fromPolar_nice_backwards :
    letI := Double.standardTolerance
    let k : Fraction := ⟨-51, 18, by decide⟩
    let r : Fraction := ⟨3, -2, by decide⟩
    let theta := Value.symbolic (.exact ⟨-17, 6, by decide⟩) (.power Double.pi 1)
    let z : Number := ⟨.symbolic (.exact ⟨3, 4, by decide⟩) (.power 3 0.5), .exact ⟨3, 4, by decide⟩⟩
    (k.num.natAbs ≤ 2 ^ 52 ∧ k.den.natAbs ≤ 2 ^ 52) ∧ k.toRat.den ∈ [1, 2, 3, 4, 6] ∧
      (r.num.natAbs ≤ 2 ^ 52 ∧ r.den.natAbs ≤ 2 ^ 52) ∧ r.toRat ≠ 0 ∧
      Value.pi.mul (.exact k) = .ok theta ∧ fromPolar (.exact r) theta = .ok z ∧
      z.re.IsSurd (r.toRat * Real.cos (k.toRat * π)) ∧
      z.im.IsSurd (r.toRat * Real.sin (k.toRat * π)) := by
  let := Double.standardTolerance
  intro k r theta z
  have hk : k.num.natAbs ≤ 2 ^ 52 ∧ k.den.natAbs ≤ 2 ^ 52 := by decide
  have nice : k.toRat.den ∈ [1, 2, 3, 4, 6] := by decide +kernel
  have hr : r.num.natAbs ≤ 2 ^ 52 ∧ r.den.natAbs ≤ 2 ^ 52 := by decide
  have nonzero : r.toRat ≠ 0 := by decide +kernel
  have angle : Value.pi.mul (.exact k) = .ok theta := by decide +kernel
  have number : fromPolar (.exact r) theta = .ok z := by decide +kernel
  obtain ⟨theta', z', angle', number', re, im⟩ := fromPolar_nice hk nice hr nonzero
  obtain rfl := Except.ok.inj (angle.symm.trans angle')
  obtain rfl := Except.ok.inj (number.symm.trans number')
  exact ⟨hk, nice, hr, nonzero, angle, number, re, im⟩

end Number

end SymbolicAlgebra
