import SymbolicAlgebra.Proofs.Exact.Machine
import SymbolicAlgebra.Proofs.Exact.Range
import SymbolicAlgebra.Proofs.Exact.Rational

/-!
# Continued fractions of doubles

A double is expanded into a continued fraction on doubles: its integer part is split off, and what
is left is turned around. Splitting off an integer part loses nothing but the last bits
(`Double.sub_floor_isNearest`), and what is left is never so small that turning it around leaves the
range (`Double.inv_sub_floor`). The numerators and denominators themselves are integers, and the
quotients of these stay below the integer part of the double plus one
(`Scalar.Convergents.Bounded`). So every step has a double to compare, and every positive double up
to the width limit is recovered, as a fraction or as the double of one (`Scalar.recover?_ok`).
-/

namespace SymbolicAlgebra

namespace Double

variable {v x : Double}

/-! ## Integer parts -/

/-- What stands for an integer counts as one. -/
theorem isIntegral_iff (h : v.isFinite = true) : v.isIntegral = true ↔ ∃ k : ℤ, v.value = k := by
  refine ⟨value_of_isIntegral, ?_⟩
  rintro ⟨k, integer⟩
  obtain ⟨m, e, -, -, content⟩ := content_of_isFinite h
  obtain ⟨positive, quotient⟩ := scale_div m e
  have nonzero : ((scale m e).2 : ℚ) ≠ 0 := Nat.cast_ne_zero.mpr positive.ne'
  have magnitude :
      (((scale m e).1 : ℤ) : ℚ) = (if v.isNegative then -k else k : ℤ) * (scale m e).2 := by
    unfold value at integer
    rw [content] at integer
    rw [← div_eq_iff nonzero, Int.cast_natCast, quotient]
    cases sign : v.isNegative <;> rw [sign] at integer <;> simp at integer ⊢ <;> linarith
  have multiple : ((scale m e).2 : ℤ) ∣ (scale m e).1 :=
    ⟨if v.isNegative then -k else k, by rw [mul_comm]; exact_mod_cast magnitude⟩
  unfold isIntegral
  rw [content]
  exact beq_iff_eq.mpr (Nat.mod_eq_zero_of_dvd (Int.natCast_dvd_natCast.mp multiple))

/-- The floor of a double is that of the number it stands for. -/
theorem floor_eq (h : v.isFinite = true) : v.floor = ⌊v.value⌋ := by
  obtain ⟨m, e, -, -, content⟩ := content_of_isFinite h
  obtain ⟨positive, quotient⟩ := scale_div m e
  have parts : v.value = ((if v.isNegative then -((scale m e).1 : ℤ) else (scale m e).1 : ℤ) : ℚ) /
      ((scale m e).2 : ℕ) := by
    unfold value
    rw [content]
    dsimp only
    rw [← quotient]
    cases v.isNegative <;> simp [neg_div]
  rw [parts, Rat.floor_intCast_div_natCast]
  unfold floor
  rw [content]
  exact Int.fdiv_eq_ediv_of_nonneg _ (Int.natCast_nonneg _)

/-- A double from `2 ^ 52` on is an integer. -/
theorem lt_of_not_isIntegral (h : v.isFinite = true) (broken : v.isIntegral = false) :
    |v.value| < 2 ^ 52 := by
  have grid := grid_or_below h 0
  rw [zpow_zero, div_one] at grid
  rcases grid with integer | ⟨-, small⟩
  · rw [← isIntegral_iff h, broken] at integer
    exact absurd integer Bool.false_ne_true
  · exact small

/-- What is left behind the integer part of a number that is not too small. -/
theorem fract_ge (h : x.isFinite = true) (least : 1 / 2 ^ 53 ≤ x.value)
    (broken : x.isIntegral = false) : 1 / 2 ^ 106 ≤ x.value - x.floor := by
  have unit : (2 : ℚ) ^ (-106 : ℤ) = 1 / 2 ^ 106 := by norm_num
  rcases grid_or_below h (-106) with ⟨j, hj⟩ | ⟨-, small⟩
  · rw [unit, div_eq_iff (by norm_num)] at hj
    have left : x.value - x.floor = (j - x.floor * 2 ^ 106 : ℤ) * (1 / 2 ^ 106) := by
      rw [hj]
      push_cast
      ring
    have positive : 0 < x.value - x.floor := by
      refine lt_of_le_of_ne ?_ fun zero => ?_
      · rw [floor_eq h]
        exact sub_nonneg.mpr (Int.floor_le _)
      · have integral := (isIntegral_iff h).mpr ⟨x.floor, by linarith⟩
        rw [broken] at integral
        exact Bool.false_ne_true integral
    rw [left] at positive ⊢
    have one_le : (1 : ℚ) ≤ (j - x.floor * 2 ^ 106 : ℤ) := by
      have : 0 < j - x.floor * 2 ^ 106 := by
        exact_mod_cast pos_of_mul_pos_left positive (by norm_num)
      exact_mod_cast this
    exact le_mul_of_one_le_left (by norm_num) one_le
  · rw [unit, abs_div, div_lt_iff₀ (by norm_num)] at small
    have := le_abs_self x.value
    norm_num at small least
    linarith

/-- The integer part is taken off as exactly as the machine can. -/
theorem sub_floor_isNearest (h : x.isFinite = true) (broken : x.isIntegral = false) :
    (x - ofInt x.floor).IsNearest (x.value - x.floor) := by
  have small := lt_of_not_isIntegral h broken
  have low := Int.floor_le x.value
  have high := Int.lt_floor_add_one x.value
  rw [← floor_eq h] at low high
  have width : x.floor.natAbs < 2 ^ 53 := by
    obtain ⟨above, below⟩ := abs_lt.mp small
    have : (x.floor : ℚ) < 2 ^ 52 := low.trans_lt below
    have top : x.floor < 2 ^ 52 := by exact_mod_cast this
    have : (-2 ^ 52 : ℚ) < x.floor + 1 := above.trans high
    have bottom : -2 ^ 52 < x.floor + 1 := by exact_mod_cast this
    omega
  obtain ⟨finite, value⟩ := value_ofInt width
  have inside : |x.value - (ofInt x.floor).value| < range := by
    rw [value, abs_of_nonneg (by linarith)]
    linarith [one_lt_range]
  rw [← value]
  exact sub_isNearest h finite inside

/-- What is left behind the integer part is neither tiny nor above one. -/
theorem sub_floor_mem (h : x.isFinite = true) (least : 1 / 2 ^ 53 ≤ x.value)
    (broken : x.isIntegral = false) :
    1 / 2 ^ 106 ≤ (x - ofInt x.floor).value ∧ (x - ofInt x.floor).value ≤ 1 := by
  have nearest := sub_floor_isNearest h broken
  have high := Int.lt_floor_add_one x.value
  rw [← floor_eq h] at high
  obtain ⟨finite, one, -⟩ := one_spec
  have tiny : (⟨0x3950000000000000⟩ : Double).value = 1 / 2 ^ 106 := by decide +kernel
  constructor
  · rw [← tiny]
    exact nearest.le_value rfl (tiny ▸ fract_ge h least broken)
  · rw [← one]
    exact nearest.value_le finite (by rw [one]; linarith)

/-- The expansion goes on with a number that is at least one. -/
theorem inv_sub_floor (h : x.isFinite = true) (least : 1 / 2 ^ 53 ≤ x.value)
    (broken : x.isIntegral = false) :
    (1 / (x - ofInt x.floor)).IsNearest (1 / (x - ofInt x.floor).value) ∧
      1 ≤ (1 / (x - ofInt x.floor)).value := by
  obtain ⟨low, high⟩ := sub_floor_mem h least broken
  have positive : 0 < (x - ofInt x.floor).value := lt_of_lt_of_le (by norm_num) low
  obtain ⟨finite, one, -⟩ := one_spec
  have nearest := inv_isNearest (sub_floor_isNearest h broken).finite (low.trans (le_abs_self _))
  refine ⟨nearest, ?_⟩
  have above : (1 : Double).value ≤ 1 / (x - ofInt x.floor).value := by
    rw [one, le_div_iff₀ positive, one_mul]
    exact high
  rw [← one]
  exact nearest.le_value finite above

/-! ## Positive doubles -/

/-- The sign bit of a positive number is not set. -/
theorem isNegative_eq_false (finite : v.isFinite = true) (positive : 0 < v.value) :
    v.isNegative = false := by
  obtain ⟨m, e, -, -, value⟩ := value_eq finite
  rw [Bool.eq_false_iff]
  intro negative
  rw [negative, if_pos rfl] at value
  have : (0 : ℚ) ≤ m * 2 ^ e := by positivity
  linarith

theorem abs_eq_of_value_pos (finite : v.isFinite = true) (positive : 0 < v.value) : v.abs = v := by
  refine eq_of_isNegative_of_magnitude ?_ (magnitude_abs v)
  rw [isNegative_abs, isNegative_eq_false finite positive]

end Double

namespace Scalar

namespace Convergents

variable {c : Convergents} {v : Double} {t M : ℤ} {bound : ℕ}

/-! ## Convergents -/

/-- The last two convergents, and the quotient of the sums of their parts, are at most `M`. -/
structure Bounded (M : ℤ) (c : Convergents) : Prop where
  den : 0 < c.k1
  num : 0 ≤ c.h1
  le : c.h1 ≤ M * c.k1
  den' : 0 ≤ c.k0
  num' : 0 ≤ c.h0
  sum_le : c.h0 + c.h1 ≤ M * (c.k0 + c.k1)

/-- The first convergent is the first quotient over one. -/
theorem bounded_first (v : Double) (ht : 0 ≤ t) : Bounded (t + 1) ((start v).extend t) where
  den := by simp [extend, start]
  num := by simpa [extend, start] using ht
  le := by simp [extend, start]
  den' := by simp [extend, start]
  num' := by simp [extend, start]
  sum_le := by simp [extend, start]; omega

/-- One more quotient keeps the bound, if it is at least one. -/
theorem Bounded.extend (h : Bounded M c) (ht : 1 ≤ t) : Bounded M (c.extend t) := by
  obtain ⟨den, num, le, den', num', sum_le⟩ := h
  constructor <;> simp only [Convergents.extend]
  · nlinarith
  · nlinarith
  · nlinarith
  · exact den.le
  · exact num
  · nlinarith

theorem Bounded.invert (h : Bounded M c) : Bounded M c.invert :=
  ⟨h.den, h.num, h.le, h.den', h.num', h.sum_le⟩

theorem Bounded.abs_le (h : Bounded M c) : |(c.h1 / c.k1 : ℚ)| ≤ M := by
  have positive : (0 : ℚ) < c.k1 := Int.cast_pos.mpr h.den
  rw [abs_of_nonneg (div_nonneg (Int.cast_nonneg h.num) positive.le), div_le_iff₀ positive]
  exact_mod_cast h.le

/-- A bounded convergent has a double. -/
theorem Bounded.ratio? (h : Bounded M c) (inside : (M : ℚ) < Double.range) :
    ∃ value, Double.ratio? c.h1 c.k1 = some value := by
  have present := (Double.ratio?_eq_none_iff (n := c.h1) h.den.ne').not.mpr
    (not_le.mpr (h.abs_le.trans_lt inside))
  exact Option.ne_none_iff_exists'.mp present

variable [Tolerance]

/-- One step of the expansion. -/
theorem expand_succ {value : Double} (h : Double.ratio? c.step.h1 c.step.k1 = some value) :
    expand v (bound + 1) c =
      if Double.approxEq value v || c.rest.isIntegral then pure c.step
      else expand v bound c.step.invert := by
  rw [expand, h]

/-- A number from one on has convergents within the bounds, and they have doubles. -/
theorem expand_ok (h : Bounded M c) (inside : (M : ℚ) < Double.range)
    (finite : c.rest.isFinite = true) (least : 1 ≤ c.rest.value) (v : Double) (bound : ℕ) :
    ∃ c', expand v bound c = .ok c' ∧ Bounded M c' := by
  induction bound generalizing c with
  | zero => exact ⟨c, rfl, h⟩
  | succ bound ih =>
    have quotient : 1 ≤ c.rest.floor := by
      rw [Double.floor_eq finite]
      exact Int.le_floor.mpr (by exact_mod_cast least)
    have next : Bounded M c.step := h.extend quotient
    obtain ⟨value, found⟩ := next.ratio? inside
    rw [expand_succ found]
    split
    · exact ⟨_, rfl, next⟩
    next go =>
      rw [Bool.or_eq_true, not_or, Bool.not_eq_true] at go
      have broken : c.rest.isIntegral = false := Bool.eq_false_iff.mpr go.2
      obtain ⟨nearest, least⟩ := Double.inv_sub_floor finite
        ((show (1 / 2 ^ 53 : ℚ) ≤ 1 by norm_num).trans least) broken
      exact ih next.invert nearest.finite least

end Convergents

variable [Tolerance] {v : Double}

/-- Of a positive number the expansion itself is taken. -/
theorem recover?_of_pos [Exactness] (finite : v.isFinite = true) (positive : 0 < v.value) :
    recover? v = (do
      let c ← Convergents.expand v Convergents.stepLimit (.start v)
      some <$> ofQuotient c.h1 c.k1) := by
  have sign : ¬v < 0 := by
    rw [Double.lt_iff_value finite Double.zero_spec.1, Double.zero_spec.2]
    exact not_lt.mpr positive.le
  unfold recover?
  rw [finite, Double.abs_eq_of_value_pos finite positive]
  simp only [if_neg sign]
  rfl

/-- **Every positive double that is not tiny has a convergent that is returned**, as a fraction or
as the double of one. -/
theorem recover?_ok (finite : v.isFinite = true) (least : 1 / 2 ^ 53 ≤ v.value)
    (most : v.value ≤ 2 ^ 53) : ∃ s q, recover? v = .ok (some s) ∧ s.Rounds q := by
  have positive : 0 < v.value := lt_of_lt_of_le (by norm_num) least
  have quotient : 0 ≤ v.floor := by
    rw [Double.floor_eq finite]
    exact Int.floor_nonneg.mpr positive.le
  have inside : ((v.floor + 1 : ℤ) : ℚ) < Double.range := by
    have low := Int.floor_le v.value
    rw [← Double.floor_eq finite] at low
    have wide := Double.two_pow_lt_range
    push_cast
    linarith
  have first : Convergents.Bounded (v.floor + 1) (Convergents.start v).step :=
    Convergents.bounded_first v quotient
  -- the first integer part may be zero, all others are at least one
  obtain ⟨c, expanded, bounded⟩ : ∃ c,
      Convergents.expand v Convergents.stepLimit (.start v) = .ok c ∧ c.Bounded (v.floor + 1) := by
    obtain ⟨value, found⟩ := first.ratio? inside
    unfold Convergents.stepLimit
    rw [Convergents.expand_succ found]
    split
    · exact ⟨_, rfl, first⟩
    next go =>
      rw [Bool.or_eq_true, not_or, Bool.not_eq_true] at go
      obtain ⟨nearest, least⟩ := Double.inv_sub_floor finite least (Bool.eq_false_iff.mpr go.2)
      exact Convergents.expand_ok first.invert inside nearest.finite least v 29
  obtain ⟨s, found, rounds⟩ :=
    ofQuotient_rounds_of_lt bounded.den.ne' (bounded.abs_le.trans_lt inside)
  refine ⟨s, _, ?_, rounds⟩
  rw [recover?_of_pos finite positive, expanded]
  exact congrArg (some <$> ·) found

/-- Zero is recovered at once. -/
theorem recover?_zero : recover? (0 : Double) = .ok (some zero) := rfl

/-- Numbers below the zero bound are recovered as zero. -/
theorem recover?_snap_ok (finite : v.isFinite = true) (least : 1 / 2 ^ 53 ≤ v.value)
    (most : v.value ≤ 2 ^ 53) : ∃ s q, recover? (.snap v) = .ok (some s) ∧ s.Rounds q := by
  rw [Double.snap_eq finite]
  split
  · exact ⟨zero, 0, recover?_zero, fun _ => rfl, fun wide => absurd Narrow.zero wide⟩
  · exact recover?_ok finite least most

end Scalar

end SymbolicAlgebra
