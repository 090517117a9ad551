import SymbolicAlgebra.Proofs.Exact.Double

/-!
# Fractions as rationals

`Fraction.toRat` is the rational number that a fraction stands for, however it is written.
The tests and operations on fractions are read as those on rationals here, lowest terms keep
the number, and a fraction narrow enough for exact arithmetic has a double that is right
wherever exact arithmetic looks at it.
-/

namespace SymbolicAlgebra

/-- Both parts of the rational number stay within the limit of exact arithmetic. -/
def Narrow (q : ℚ) : Prop := q.num.natAbs ≤ 2 ^ 53 ∧ q.den ≤ 2 ^ 53

/-- A number and its absolute value have the same parts, up to the sign. -/
theorem Narrow.abs {q : ℚ} (h : Narrow q) : Narrow |q| := by
  unfold Narrow
  rw [Rat.num_abs_eq_abs_num, Rat.den_abs_eq_den, Int.natAbs_abs]
  exact h

theorem Narrow.neg {q : ℚ} (h : Narrow q) : Narrow (-q) := by
  unfold Narrow
  rw [Rat.num_neg_eq_neg_num, Rat.den_neg_eq_den, Int.natAbs_neg]
  exact h

namespace Fraction

/-- The rational number that a fraction stands for. -/
def toRat (q : Fraction) : ℚ := q.num / q.den

theorem den_cast_ne_zero (q : Fraction) : (q.den : ℚ) ≠ 0 := Int.cast_ne_zero.mpr q.den_ne_zero

theorem toRat_ofInt (n : Int) : (ofInt n).toRat = n := by
  simp [toRat, ofInt]

theorem toRat_neg (q : Fraction) : q.neg.toRat = -q.toRat := by
  simp [toRat, neg, neg_div]

theorem toRat_eq_zero_iff (q : Fraction) : q.toRat = 0 ↔ q.num = 0 := by
  simp [toRat, q.den_cast_ne_zero]

/-- A fraction is asked whether it is nought, and gives the right answer. -/
theorem isZero_iff (q : Fraction) : q.isZero = true ↔ q.toRat = 0 := by
  rw [toRat_eq_zero_iff]
  exact beq_iff_eq

/-- Fractions are compared by their cross products, whatever their terms are. -/
theorem same_iff (p q : Fraction) : p.same q = true ↔ p.toRat = q.toRat := by
  unfold same toRat
  rw [beq_iff_eq, div_eq_div_iff p.den_cast_ne_zero q.den_cast_ne_zero]
  exact_mod_cast Iff.rfl

/-- The sign, which counts that of the denominator, is positive just if the number is. -/
theorem sgn_pos_iff (q : Fraction) : 0 < q.sgn ↔ 0 < q.toRat := by
  unfold sgn toRat
  split
  next h =>
    have hq : (0 : ℚ) < q.den := by exact_mod_cast h
    rw [Int.sign_pos_iff, div_pos_iff_of_pos_right hq]
    exact_mod_cast Iff.rfl
  next h =>
    have hd : q.den < 0 := lt_of_le_of_ne (not_lt.mp h) q.den_ne_zero
    have hq : (q.den : ℚ) < 0 := by exact_mod_cast hd
    rw [neg_pos, Int.sign_neg_iff, div_pos_iff, and_iff_left hq,
      or_iff_right fun both => lt_asymm both.2 hq]
    exact_mod_cast Iff.rfl

/-- The sign is negative just if the number is. -/
theorem sgn_neg_iff (q : Fraction) : q.sgn < 0 ↔ q.toRat < 0 := by
  have opposite : q.neg.sgn = -q.sgn := by
    unfold sgn neg
    dsimp only
    rw [Int.sign_neg]
    split <;> rfl
  rw [← neg_pos, ← opposite, sgn_pos_iff, toRat_neg, neg_pos]

/-! ## Arithmetic, by the parts -/

/-- A sum as the quotient of two integers. -/
theorem toRat_add (p q : Fraction) :
    p.toRat + q.toRat = ((p.num * q.den + q.num * p.den : Int) : ℚ) / (p.den * q.den : Int) := by
  have hp := p.den_cast_ne_zero
  have hq := q.den_cast_ne_zero
  unfold toRat
  push_cast
  field_simp

/-- A product as the quotient of two integers. -/
theorem toRat_mul (p q : Fraction) :
    p.toRat * q.toRat = ((p.num * q.num : Int) : ℚ) / (p.den * q.den : Int) := by
  unfold toRat
  push_cast
  rw [div_mul_div_comm]

/-- A quotient of fractions as one of two integers. -/
theorem toRat_div (p q : Fraction) :
    p.toRat / q.toRat = ((p.num * q.den : Int) : ℚ) / (p.den * q.num : Int) := by
  unfold toRat
  push_cast
  rw [div_div_div_eq]

/-- A fraction that is an integer, by its parts. -/
theorem num_eq_mul_den {q : Fraction} {k : Int} (h : q.toRat = k) : q.num = k * q.den := by
  unfold toRat at h
  rw [div_eq_iff q.den_cast_ne_zero] at h
  exact_mod_cast h

/-- The denominator divides the numerator just if the number is an integer. -/
theorem isInt_iff (q : Fraction) : q.isInt = true ↔ q.toRat.den = 1 := by
  unfold isInt toRat
  rw [beq_iff_eq, ← Int.dvd_iff_emod_eq_zero,
    Rat.den_div_intCast_eq_one_iff q.num q.den q.den_ne_zero]

/-! ## Lowest terms -/

/-- The common factor divides the numerator. -/
theorem commonFactor_dvd_left (n d : Int) : commonFactor n d ∣ n := by
  unfold commonFactor
  split
  · exact Int.neg_dvd.mpr (Int.gcd_dvd_left ..)
  · exact Int.gcd_dvd_left ..

theorem commonFactor_ne_zero (n : Int) {d : Int} (h : d ≠ 0) : commonFactor n d ≠ 0 :=
  fun hz => h (Int.zero_dvd.mp (hz ▸ commonFactor_dvd_right n d))

/-- Putting two integers in lowest terms keeps their quotient. -/
theorem toRat_lowest (n : Int) {d : Int} (h : d ≠ 0) : (lowest n d h).toRat = n / d := by
  have hc : (commonFactor n d : ℚ) ≠ 0 := Int.cast_ne_zero.mpr (commonFactor_ne_zero n h)
  unfold toRat lowest
  rw [Int.cast_div (commonFactor_dvd_left n d) hc, Int.cast_div (commonFactor_dvd_right n d) hc,
    div_div_div_cancel_right₀ hc]

theorem toRat_reduced (q : Fraction) : q.reduced.toRat = q.toRat := toRat_lowest _ _

/-- The parts of a quotient in lowest terms are those of its rational number. -/
theorem lowest_parts (n : Int) {d : Int} (h : d ≠ 0) :
    (lowest n d h).num = (n / d : ℚ).num ∧ (lowest n d h).den = (n / d : ℚ).den := by
  have value := toRat_lowest n h
  have gcd : 0 < (Int.gcd n d : ℤ) := Int.natCast_pos.mpr (Int.gcd_pos_iff.mpr (.inr h))
  have num : (lowest n d h).num = n / commonFactor n d := rfl
  have den : (lowest n d h).den = d / commonFactor n d := rfl
  have positive : 0 < (lowest n d h).den := by
    rw [den, commonFactor]
    split
    next negative =>
      rw [Int.ediv_neg, Int.neg_pos]
      exact Int.ediv_neg_of_neg_of_pos negative gcd
    next hd =>
      have hd : 0 < d := lt_of_le_of_ne (not_lt.mp hd) h.symm
      exact Int.ediv_pos_of_pos_of_dvd hd gcd.le (Int.gcd_dvd_right ..)
  have coprime : (lowest n d h).num.natAbs.Coprime (lowest n d h).den.natAbs := by
    have parts := Int.gcd_ediv_gcd_ediv_gcd (Int.natCast_pos.mp gcd)
    rw [num, den, commonFactor]
    split
    · rw [Int.ediv_neg, Int.ediv_neg, Int.natAbs_neg, Int.natAbs_neg]
      exact parts
    · exact parts
  rw [← value]
  exact ⟨(Rat.num_div_eq_of_coprime positive coprime).symm,
    (Rat.den_div_eq_of_coprime positive coprime).symm⟩

/-- The parts of a fraction in lowest terms are those of its rational number. -/
theorem reduced_parts (q : Fraction) : q.reduced.num = q.toRat.num ∧ q.reduced.den = q.toRat.den :=
  lowest_parts q.num q.den_ne_zero

/-- A fraction that is an integer has that integer for its lowest terms. -/
theorem reduced_of_int {q : Fraction} {k : Int} (h : q.toRat = k) :
    q.reduced.num = k ∧ q.reduced.den = 1 := by
  have num := num_eq_mul_den h
  have factor : commonFactor q.num q.den = q.den := by
    unfold commonFactor
    rw [num, Int.gcd_mul_left_left]
    split <;> omega
  unfold reduced lowest
  simp only [factor]
  rw [num, Int.mul_ediv_cancel _ q.den_ne_zero, Int.ediv_self q.den_ne_zero]
  exact ⟨rfl, rfl⟩

/-! ## Narrow fractions -/

theorem isNarrow_iff (q : Fraction) :
    q.isNarrow = true ↔ q.num.natAbs ≤ 2 ^ 53 ∧ q.den.natAbs ≤ 2 ^ 53 := by
  unfold isNarrow widthLimit
  rw [Bool.and_eq_true, decide_eq_true_iff, decide_eq_true_iff, Nat.pow_eq]

theorem isNarrow_ofInt {n : Int} (h : n.natAbs ≤ 2 ^ 53) : (ofInt n).isNarrow = true :=
  (isNarrow_iff _).mpr ⟨h, Int.natAbs_one.trans_le (by norm_num)⟩

theorem isNarrow_neg {q : Fraction} (h : q.isNarrow = true) : q.neg.isNarrow = true := by
  rw [isNarrow_iff] at h ⊢
  simpa [neg] using h

/-- Lowest terms are no wider. -/
theorem isNarrow_reduced {q : Fraction} (h : q.isNarrow = true) : q.reduced.isNarrow = true := by
  rw [isNarrow_iff] at h ⊢
  exact ⟨(Int.natAbs_ediv_le_natAbs _ _).trans h.1, (Int.natAbs_ediv_le_natAbs _ _).trans h.2⟩

/-- The number of a narrow fraction is narrow. -/
theorem narrow_toRat {q : Fraction} (h : q.isNarrow = true) : Narrow q.toRat := by
  obtain ⟨num, den⟩ := q.reduced_parts
  have bounds := (isNarrow_iff _).mp (isNarrow_reduced h)
  rw [num, den, Int.natAbs_natCast] at bounds
  exact bounds

/-- A quotient of narrow integers is narrow. -/
theorem narrow_div {a b : Int} (hb : b ≠ 0) (ha : a.natAbs ≤ 2 ^ 53) (hb' : b.natAbs ≤ 2 ^ 53) :
    Narrow (a / b) :=
  narrow_toRat (q := ⟨a, b, hb⟩) ((isNarrow_iff _).mpr ⟨ha, hb'⟩)

/-- A narrow fraction has a double, which is finite and zero only for zero. -/
theorem toDouble_narrow {q : Fraction} (h : q.isNarrow = true) :
    ∃ v, q.toDouble = .ok v ∧ v.isFinite = true ∧ v.isZero = q.isZero := by
  rw [isNarrow_iff] at h
  obtain ⟨v, hv, finite, zero⟩ := Double.ratio?_narrow q.den_ne_zero h.1 h.2
  refine ⟨v, ?_, finite, zero⟩
  unfold toDouble
  rw [hv]
  rfl

/-- A narrow integer other than zero has the double that is this integer, and the same one
in lowest terms. -/
theorem toDouble_int {q : Fraction} (h : q.isNarrow = true) {k : Int} (hq : q.toRat = k)
    (hk : k ≠ 0) : ∃ v, q.toDouble = .ok v ∧ q.reduced.toDouble = .ok v ∧ v.isFinite = true ∧
      v.toInt = k ∧ v.roundEven = k := by
  obtain ⟨v, hv, finite, -⟩ := toDouble_narrow h
  rw [isNarrow_iff] at h
  have num := num_eq_mul_den hq
  have narrow : k.natAbs ≤ 2 ^ 53 := by
    have : k.natAbs * 1 ≤ k.natAbs * q.den.natAbs :=
      Nat.mul_le_mul_left _ (Int.natAbs_pos.mpr q.den_ne_zero)
    rw [← Int.natAbs_mul, ← num] at this
    omega
  obtain ⟨w, hw, int⟩ := Double.toInt_ratio? narrow
  have reduced : q.reduced.toDouble = .ok w := by
    obtain ⟨num', den'⟩ := reduced_of_int hq
    unfold toDouble
    rw [num', den', hw]
    rfl
  have same : Double.ratio? q.num q.den = some w := by
    have cancel := Double.ratio?_mul hk one_ne_zero q.den_ne_zero
    rw [one_mul] at cancel
    rw [num, cancel, hw]
  have double : q.toDouble = .ok w := by
    unfold toDouble
    rw [same]
    rfl
  cases double.symm.trans hv
  exact ⟨v, hv, reduced, finite, int⟩

end Fraction

end SymbolicAlgebra
