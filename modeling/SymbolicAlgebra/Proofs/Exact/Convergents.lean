import SymbolicAlgebra.Proofs.Exact.Closeness
import SymbolicAlgebra.Proofs.Exact.Expansion

/-!
# Convergents are in lowest terms

Every partial quotient turns the sign of the determinant of the last two convergents around and
leaves its magnitude, whatever the quotient is (`Scalar.Convergents.det_extend`). It is one at the
start, where the second convergent has the denominator zero. So the parts of each convergent have
no common factor, and its denominator is positive as soon as there is a quotient, because all but
the first one are positive.

That is so for the quotients of a double because each rest but the first is one or more
(`Scalar.Convergents.Round.sound`). The first one may be so small that its reciprocal is infinite,
but a number below the zero bound counts as equal to its first convergent, which is zero
(`Double.approxEq_zero_of_lt`), and the expansion ends there.

So nothing is left to reduce in the fraction that is made of the last convergent, and it has the
sign of the double (`Scalar.expansion_lowestTerms`).
-/

namespace SymbolicAlgebra

namespace Double

variable [Tolerance] {v : Double}

/-- A number below the zero bound counts as zero. -/
theorem approxEq_zero_of_lt (finite : v.isFinite = true) (small : |v.value| < epsilon.value) :
    approxEq (signed false 0) v = true := by
  have zero : (signed false 0).isFinite = true := rfl
  have opposite : (-v).isFinite = true := by
    rwa [isFinite_neg]
  -- the difference to zero is the double itself, so it is not rounded
  have size : |0 - v.value| = |v.value| := by simp
  have difference : (signed false 0 - v).IsNearest (0 - v.value) := by
    rw [← value_zero]
    refine sub_isNearest zero finite ?_
    rw [value_zero, size]
    linarith [abs_value_lt finite]
  have exact : (signed false 0 - v).value = 0 - v.value :=
    difference.eq_value opposite (by rw [value_neg, zero_sub])
  have close : (signed false 0 - v).abs < epsilon := by
    rw [lt_iff_value ((isFinite_abs _).trans difference.finite) (by decide +kernel), value_abs,
      exact, size]
    exact small
  unfold approxEq
  rw [finite, zero]
  split
  · rfl
  · show (decide ((signed false 0 - v).abs < epsilon) || _) = true
    rw [decide_eq_true close, Bool.true_or]

end Double

namespace Scalar

namespace Convergents

variable {c : Convergents} {v : Double} {t : ℤ} {n : ℕ}

/-! ## The determinant -/

/-- The determinant of the last two convergents. -/
def det (c : Convergents) : ℤ := c.h1 * c.k0 - c.h0 * c.k1

/-- One more quotient turns the sign of the determinant. -/
theorem det_extend (c : Convergents) (t : ℤ) : (c.extend t).det = -c.det := by
  simp only [det, extend]
  ring

/-- Whatever the partial quotients are, the determinant keeps its magnitude. -/
theorem abs_det_foldl (c : Convergents) (quotients : List ℤ) :
    |(quotients.foldl extend c).det| = |c.det| := by
  induction quotients generalizing c with
  | nil => rfl
  | cons t rest ih => rw [List.foldl_cons, ih, det_extend, abs_neg]

theorem abs_det_start (v : Double) : |(start v).det| = 1 := rfl

/-- Positive quotients keep the denominators positive. -/
theorem den_foldl {quotients : List ℤ} (den : 1 ≤ c.k1) (den' : 0 ≤ c.k0)
    (positive : ∀ t ∈ quotients, 1 ≤ t) : 1 ≤ (quotients.foldl extend c).k1 := by
  induction quotients generalizing c with
  | nil => exact den
  | cons t rest ih =>
    rw [List.forall_mem_cons] at positive
    refine ih ?_ (zero_le_one.trans den) positive.2
    show 1 ≤ t * c.k1 + c.k0
    nlinarith

/-- After the first quotient, which may be any, the others have to be positive. -/
theorem den_foldl_start (v : Double) (first : ℤ) {quotients : List ℤ}
    (positive : ∀ t ∈ quotients, 1 ≤ t) :
    1 ≤ ((first :: quotients).foldl extend (start v)).k1 := by
  rw [List.foldl_cons]
  -- the quotient counts the denominator in front, which is zero
  refine den_foldl ?_ le_rfl positive
  show 1 ≤ first * 0 + 1
  omega

/-- The parts of a convergent have no common factor. -/
theorem isCoprime_of_det (unit : |c.det| = 1) : IsCoprime c.h1 c.k1 := by
  rcases eq_or_eq_neg_of_abs_eq unit with det | det
  · exact ⟨c.k0, -c.h0, by rw [← det, Convergents.det]; ring⟩
  · exact ⟨-c.k0, c.h0, by rw [← neg_eq_iff_eq_neg.mpr det, Convergents.det]; ring⟩

/-! ## Rounds -/

/-- What holds after every round. -/
structure Sound (v : Double) (c : Convergents) : Prop where
  bounded : Bounded (v.floor + 1) c
  unit : |c.det| = 1
  finite : c.rest.isFinite = true
  rest : 1 ≤ c.rest.value ∨ c = (start v).step

/-- A round has a quotient to compare. -/
theorem Sound.ratio? (h : Sound v c) (finite : v.isFinite = true) (nonneg : 0 ≤ v.value) :
    ∃ value, Double.ratio? c.h1 c.k1 = some value := by
  refine h.bounded.ratio? ?_
  have low := Int.floor_le v.value
  rw [← Double.floor_eq finite] at low
  have wide := Double.abs_value_lt finite
  rw [abs_of_nonneg nonneg] at wide
  push_cast
  linarith

variable [Tolerance]

/-- The expansion does not end with these convergents: their quotient does not count as equal to
the number, and the rest is no integer. -/
def GoesOn (v : Double) (c : Convergents) : Prop :=
  ∃ value, Double.ratio? c.h1 c.k1 = some value ∧ Double.approxEq value v = false ∧
    c.rest.isIntegral = false

/-- The convergents of a number after so many rounds of the expansion. -/
inductive Round (v : Double) : ℕ → Convergents → Prop
  | first : Round v 1 (start v).step
  | next {n : ℕ} {c : Convergents} (h : Round v n c) (on : c.GoesOn v) :
    Round v (n + 1) c.invert.step

/-- Where the expansion goes on after the first round, the number is not tiny. -/
theorem least_of_goesOn (finite : v.isFinite = true) (nonneg : 0 ≤ v.value)
    (on : (start v).step.GoesOn v) : 1 / 2 ^ 53 ≤ v.value := by
  by_contra small
  rw [not_le] at small
  have bound : (1 / 2 ^ 53 : ℚ) ≤ Double.epsilon.value := by decide +kernel
  have floor : v.floor = 0 := by
    rw [Double.floor_eq finite, Int.floor_eq_zero_iff]
    exact ⟨nonneg, small.trans (by norm_num)⟩
  -- the first convergent is zero, and that counts as equal to a tiny number
  have first : (start v).step = ⟨v, 1, 0, 0, 1⟩ := by
    unfold step start
    rw [floor]
    rfl
  obtain ⟨value, found, apart, -⟩ := on
  rw [first] at found
  obtain rfl : Double.signed false 0 = value := Option.some.inj found
  rw [Double.approxEq_zero_of_lt finite (by rw [abs_of_nonneg nonneg]; linarith)] at apart
  cases apart

/-- Where the expansion goes on, the rest is not tiny. -/
theorem Sound.rest_of_goesOn (h : Sound v c) (finite : v.isFinite = true) (nonneg : 0 ≤ v.value)
    (on : c.GoesOn v) : 1 / 2 ^ 53 ≤ c.rest.value := by
  rcases h.rest with above | rfl
  · exact (show (1 / 2 ^ 53 : ℚ) ≤ 1 by norm_num).trans above
  · exact least_of_goesOn finite nonneg on

/-- Where the expansion goes on, the integer part leaves no zero to divide by. -/
theorem Sound.left_of_goesOn (h : Sound v c) (finite : v.isFinite = true) (nonneg : 0 ≤ v.value)
    (on : c.GoesOn v) : (c.rest - Double.ofInt c.rest.floor).isZero = false := by
  have least := h.rest_of_goesOn finite nonneg on
  obtain ⟨-, -, -, broken⟩ := on
  obtain ⟨low, -⟩ := Double.sub_floor_mem h.finite least broken
  rw [Bool.eq_false_iff]
  intro zero
  rw [Double.value_of_isZero zero] at low
  norm_num at low

/-- Every round keeps it. -/
theorem Round.sound (h : Round v n c) (finite : v.isFinite = true) (nonneg : 0 ≤ v.value) :
    Sound v c := by
  -- on the rounds: each keeps the determinant, and the rest stays above one after the first
  induction h with
  | first =>
    have quotient : 0 ≤ v.floor := by
      rw [Double.floor_eq finite]
      exact Int.floor_nonneg.mpr nonneg
    refine ⟨bounded_first v quotient, ?_, finite, .inr rfl⟩
    rw [step, det_extend, abs_neg, abs_det_start]
  | @next n c _ on ih =>
    have least := ih.rest_of_goesOn finite nonneg on
    obtain ⟨-, -, -, broken⟩ := on
    obtain ⟨nearest, above⟩ := Double.inv_sub_floor ih.finite least broken
    have quotient : 1 ≤ (1 / (c.rest - Double.ofInt c.rest.floor)).floor := by
      rw [Double.floor_eq nearest.finite]
      exact Int.le_floor.mpr (by exact_mod_cast above)
    refine ⟨ih.bounded.invert.extend quotient, ?_, nearest.finite, .inl above⟩
    rw [step, det_extend, abs_neg]
    exact ih.unit

/-- The expansion ends with the convergents of one of its rounds. -/
theorem expand_round (bound : ℕ) (finite : v.isFinite = true) (nonneg : 0 ≤ v.value)
    (h : Round v n c.step) : ∃ c' d m, expand v (bound + 1) c = .ok c' ∧ Round v m d ∧
      m ≤ n + bound ∧ c'.h1 = d.h1 ∧ c'.k1 = d.k1 := by
  -- on the bound: the expansion stops at some round within it
  induction bound generalizing n c with
  | zero =>
    obtain ⟨value, found⟩ := (h.sound finite nonneg).ratio? finite nonneg
    rw [expand_succ found]
    split
    · exact ⟨_, _, n, rfl, h, le_rfl, rfl, rfl⟩
    · exact ⟨_, _, n, rfl, h, le_rfl, rfl, rfl⟩
  | succ bound ih =>
    obtain ⟨value, found⟩ := (h.sound finite nonneg).ratio? finite nonneg
    rw [expand_succ found]
    split
    · exact ⟨_, _, n, rfl, h, Nat.le_add_right _ _, rfl, rfl⟩
    next go =>
      rw [Bool.or_eq_true, not_or, Bool.not_eq_true, Bool.not_eq_true] at go
      obtain ⟨c', d, m, run, round, within, parts⟩ := ih (.next h ⟨value, found, go⟩)
      exact ⟨c', d, m, run, round, by omega, parts⟩

/-- Of zero there is one round, with the convergent zero. -/
theorem Round.num_eq_zero (h : Round v n c) (finite : v.isFinite = true) (zero : v.value = 0) :
    c.h1 = 0 := by
  have only : c = (start v).step := by
    induction h with
    | first => rfl
    | next _ on ih =>
      obtain ⟨-, -, -, broken⟩ := on
      rw [ih] at broken
      have integer : v.isIntegral = true := (Double.isIntegral_iff finite).mpr ⟨0, by simp [zero]⟩
      exact absurd (broken.symm.trans integer) Bool.false_ne_true
  have num : c.h1 = v.floor * 1 + 0 := by rw [only]; rfl
  rw [num, Double.floor_eq finite, zero, Int.floor_zero]
  rfl

/-- The last numerator, with the sign of a double. -/
def numerator (v : Double) (c : Convergents) : ℤ := if v < 0 then -c.h1 else c.h1

end Convergents

/-! ## Fractions -/

/-- The fraction has nothing to reduce, a positive denominator and, unless it is zero, the sign of
the double. -/
structure LowestTerms (v : Double) (n d : ℤ) : Prop where
  den : 0 < d
  coprime : Int.gcd n d = 1
  sign : n ≠ 0 → n.sign = v.sign

/-- To bring it to lowest terms changes nothing. -/
theorem LowestTerms.lowest_eq {v : Double} {n d : ℤ} (h : LowestTerms v n d) :
    Fraction.lowest n d h.den.ne' = ⟨n, d, h.den.ne'⟩ := by
  have factor : Fraction.commonFactor n d = 1 := by
    unfold Fraction.commonFactor
    rw [if_neg h.den.le.not_gt, h.coprime]
    rfl
  unfold Fraction.lowest
  simp only [factor, Int.ediv_one]

section

variable [Tolerance] {v : Double}

open Convergents (Round)

/-- The convergents of the magnitude of a double make a fraction of the double. -/
theorem Convergents.Round.lowestTerms {n : ℕ} {c : Convergents} (h : Round v.abs n c)
    (finite : v.isFinite = true) : LowestTerms v (c.numerator v) c.k1 := by
  have finite' : v.abs.isFinite = true := (Double.isFinite_abs v).trans finite
  have value : v.abs.value = |v.value| := Double.value_abs v
  have sound := h.sound finite' (value ▸ abs_nonneg _)
  have coprime := Convergents.isCoprime_of_det sound.unit
  have num := sound.bounded.num
  have below := Double.lt_iff_value finite Double.zero_spec.1
  have above := Double.lt_iff_value Double.zero_spec.1 finite
  rw [Double.zero_spec.2] at below above
  unfold Convergents.numerator
  refine ⟨sound.bounded.den, ?_, fun nonzero => ?_⟩
  · -- a determinant of one makes the two parts coprime
    rw [← Int.isCoprime_iff_gcd_eq_one]
    split
    · exact coprime.neg_left
    · exact coprime
  · unfold Double.sign
    by_cases negative : v < 0
    · have order : ¬v > 0 := fun positive => absurd (above.mp positive) (below.mp negative).not_gt
      rw [if_pos negative] at nonzero ⊢
      rw [if_neg order, if_pos negative, Int.sign_eq_neg_one_iff_neg]
      omega
    · rw [if_neg negative] at nonzero ⊢
      have positive : v > 0 := by
        refine above.mpr (lt_of_le_of_ne (not_lt.mp (mt below.mpr negative)) fun zero => nonzero ?_)
        exact h.num_eq_zero finite' (by rw [value, ← zero, abs_zero])
      rw [if_pos positive, Int.sign_eq_one_iff_pos]
      omega

/-- **The expansion of a double keeps lowest terms.** Whatever the partial quotients are, the
determinant is `1` or `-1`, and as soon as there is one and all behind the first are positive, so is
the denominator. It is after every round of the expansion of a finite double, so the convergent has
a quotient, and where the expansion goes on the integer part leaves no zero to divide by. The
fraction that is made in the end has nothing to reduce, a positive denominator and, unless it is
zero, the sign of the double. -/
theorem expansion_lowestTerms [Exactness] (finite : v.isFinite = true) :
    (∀ quotients, let c := List.foldl Convergents.extend (.start v.abs) quotients
      |c.det| = 1 ∧ (quotients ≠ [] → (∀ t ∈ quotients.tail, 1 ≤ t) → 1 ≤ c.k1)) ∧
    (∀ n c, Round v.abs n c → |c.det| = 1 ∧ 1 ≤ c.k1 ∧
      (∃ value, Double.ratio? c.h1 c.k1 = some value) ∧
      (c.GoesOn v.abs → (c.rest - Double.ofInt c.rest.floor).isZero = false)) ∧
    ∃ n c, n ≤ Convergents.stepLimit ∧ Round v.abs n c ∧ LowestTerms v (c.numerator v) c.k1 ∧
      recover? v = some <$> ofQuotient (c.numerator v) c.k1 ∧
      ∃ h, Fraction.lowest (c.numerator v) c.k1 h = ⟨c.numerator v, c.k1, h⟩ := by
  have finite' : v.abs.isFinite = true := (Double.isFinite_abs v).trans finite
  have nonneg : 0 ≤ v.abs.value := Double.value_abs v ▸ abs_nonneg _
  refine ⟨fun quotients => ⟨Convergents.abs_det_foldl _ _, fun some positive => ?_⟩,
    fun n c h => ?_, ?_⟩
  · obtain ⟨first, rest, rfl⟩ := List.exists_cons_of_ne_nil some
    exact Convergents.den_foldl_start v.abs first positive
  · have sound := h.sound finite' nonneg
    exact ⟨sound.unit, sound.bounded.den, sound.ratio? finite' nonneg,
      sound.left_of_goesOn finite' nonneg⟩
  · obtain ⟨c', c, n, run, round, within, num, den⟩ :=
      Convergents.expand_round 29 finite' nonneg .first
    have expanded : Convergents.expand v.abs Convergents.stepLimit (.start v.abs) = .ok c' := run
    have terms := round.lowestTerms finite
    refine ⟨n, c, within, round, terms, ?_, _, terms.lowest_eq⟩
    unfold recover? Convergents.numerator
    rw [finite, expanded, ← num, ← den]
    rfl

end

/-- A tenth below zero. -/
theorem expansion_lowestTerms_tenth :
    letI := Double.standardTolerance
    letI := Exactness.free
    let v : Double := ⟨0xbfb999999999999a⟩
    v.isFinite = true ∧ recover? v = .ok (some (.exact ⟨-1, 10, by decide⟩)) ∧
      ∃ n c, n ≤ Convergents.stepLimit ∧ Convergents.Round v.abs n c ∧
        LowestTerms v (c.numerator v) c.k1 ∧
        recover? v = some <$> ofQuotient (c.numerator v) c.k1 ∧
        ∃ h, Fraction.lowest (c.numerator v) c.k1 h = ⟨c.numerator v, c.k1, h⟩ := by
  have finite : (⟨0xbfb999999999999a⟩ : Double).isFinite = true := by decide +kernel
  exact ⟨finite, by decide +kernel,
    (@expansion_lowestTerms Double.standardTolerance _ Exactness.free finite).2.2⟩

end Scalar

end SymbolicAlgebra
