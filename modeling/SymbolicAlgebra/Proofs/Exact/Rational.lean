import SymbolicAlgebra.Proofs.Exact.Number
import SymbolicAlgebra.Proofs.Exact.Rounding

/-!
# Rational numbers of any width

`Value.IsRat v q` and `Number.IsRat z q` say that a value or a real number is exact and stands for
the rational `q`. `Value.Is` asks beside this that the fraction is narrow as it is written, which a
fraction from outside need not be. Comparisons, signs and opposites do without that. A sum or a
product is exact as soon as the rational number that comes out is narrow, however wide the operands
are (`Scalar.ofQuotient_eq`), and it is narrow as it is written.

For Gaussian rationals the same holds part by part, where one factor or the divisor is real.
-/

namespace SymbolicAlgebra

theorem Narrow.zero : Narrow 0 := by
  norm_num [Narrow]

namespace Scalar

variable [Exactness] {f g : Fraction}

/-- A quotient that is narrow in lowest terms stays a fraction. -/
theorem ofQuotient_eq (n : Int) {d : Int} (h : d ≠ 0) (narrow : Narrow (n / d : ℚ)) :
    ofQuotient n d = .ok (exact (.ofRat (n / d))) := by
  unfold ofQuotient
  rw [dif_neg h, Fraction.lowest_eq_ofRat n h]
  exact if_pos ((Fraction.isNarrow_ofRat _).mpr narrow)

theorem exact_add (narrow : Narrow (f.toRat + g.toRat)) :
    (exact f).add (exact g) = .ok (exact (.ofRat (f.toRat + g.toRat))) := by
  rw [f.toRat_add g] at narrow ⊢
  exact ofQuotient_eq _ (mul_ne_zero f.den_ne_zero g.den_ne_zero) narrow

/-- A product that fits the limit is the fraction in lowest terms. -/
theorem exact_mul (narrow : Narrow (f.toRat * g.toRat)) :
    (exact f).mul (exact g) = .ok (exact (.ofRat (f.toRat * g.toRat))) := by
  unfold mul
  by_cases zero : (f.isZero || g.isZero) = true
  · simp only [if_pos zero]
    rw [Bool.or_eq_true, f.isZero_iff, g.isZero_iff, ← mul_eq_zero] at zero
    rw [zero]
    rfl
  · simp only [if_neg zero]
    rw [f.toRat_mul g] at narrow ⊢
    exact ofQuotient_eq _ (mul_ne_zero f.den_ne_zero g.den_ne_zero) narrow

/-- The factor one puts a fraction into lowest terms. -/
theorem one_mul_exact (narrow : Narrow f.toRat) :
    one.mul (exact f) = .ok (exact (.ofRat f.toRat)) := by
  have value : (Fraction.ofInt 1).toRat * f.toRat = f.toRat := by
    rw [Fraction.toRat_ofInt, Int.cast_one, one_mul]
  have product := exact_mul (value.symm ▸ narrow)
  rwa [value] at product

/-- The divisor needs a double that is not zero. -/
theorem exact_div (hg : g.isNarrow = true) (nonzero : g.toRat ≠ 0)
    (narrow : Narrow (f.toRat / g.toRat)) :
    (exact f).div (exact g) = .ok (exact (.ofRat (f.toRat / g.toRat))) := by
  refine (Fraction.divisor_eq hg _).trans ?_
  rw [if_neg nonzero]
  rw [f.toRat_div g] at narrow ⊢
  exact ofQuotient_eq _ (mul_ne_zero f.den_ne_zero (mt g.toRat_eq_zero_iff.mpr nonzero)) narrow

end Scalar

namespace Value

/-- The value is exact and stands for a rational. -/
def IsRat (v : Value) (q : ℚ) : Prop := ∃ f : Fraction, v = exact f ∧ f.toRat = q

theorem isRat_ofInt (n : Int) : (ofInt n).IsRat n := ⟨.ofInt n, rfl, Fraction.toRat_ofInt n⟩

theorem isRat_zero : zero.IsRat 0 := by
  rw [← Int.cast_zero]
  exact isRat_ofInt 0

theorem isRat_one : one.IsRat 1 := by
  rw [← Int.cast_one]
  exact isRat_ofInt 1

theorem Is.isRat {v : Value} {q : ℚ} (h : v.Is q) : v.IsRat q := by
  obtain ⟨s, rfl, f, rfl, -, value⟩ := h
  exact ⟨f, rfl, value⟩

/-- Lowest terms that are narrow are so as they are written. -/
theorem is_ofRat {q : ℚ} (narrow : Narrow q) : (exact (.ofRat q)).Is q :=
  ⟨_, rfl, _, rfl, (Fraction.isNarrow_ofRat q).mpr narrow, Fraction.toRat_ofRat q⟩

variable [Tolerance] {v w : Value} {p q : ℚ}

/-- A rational value is asked whether it is nought, and gives the right answer. -/
theorem IsRat.isZero_eq (h : v.IsRat q) : v.isZero = .ok (decide (q = 0)) := by
  obtain ⟨f, rfl, rfl⟩ := h
  show Except.ok f.isZero = _
  rw [Bool.eq_iff_iff.mpr (f.isZero_iff.trans decide_eq_true_iff.symm)]

/-- A rational value has a negative sign just if its number is negative. -/
theorem IsRat.sgn_eq (h : v.IsRat q) : ∃ n, v.sgn = .ok n ∧ (n < 0 ↔ q < 0) := by
  obtain ⟨f, rfl, rfl⟩ := h
  exact ⟨f.sgn, rfl, f.sgn_neg_iff⟩

/-- Rational values are the same just if their numbers are. -/
theorem IsRat.same_eq (hv : v.IsRat p) (hw : w.IsRat q) : v.same w = .ok (decide (p = q)) := by
  obtain ⟨f, rfl, rfl⟩ := hv
  obtain ⟨g, rfl, rfl⟩ := hw
  show Except.ok (f.same g) = _
  rw [Bool.eq_iff_iff.mpr ((f.same_iff g).trans decide_eq_true_iff.symm)]

variable [Exactness]

theorem IsRat.neg (h : v.IsRat q) : ∃ r, v.neg = .ok r ∧ r.IsRat (-q) := by
  obtain ⟨f, rfl, rfl⟩ := h
  exact ⟨_, rfl, f.neg, rfl, f.toRat_neg⟩

theorem Is.neg (h : v.Is q) : ∃ r, v.neg = .ok r ∧ r.Is (-q) := by
  obtain ⟨s, rfl, hs⟩ := h
  exact ⟨_, rfl, _, rfl, hs.neg⟩

/-- A sum of rational values that fits is in lowest terms. -/
theorem IsRat.add (hv : v.IsRat p) (hw : w.IsRat q) (narrow : Narrow (p + q)) :
    ∃ r, v.add w = .ok r ∧ r.Is (p + q) := by
  obtain ⟨f, rfl, rfl⟩ := hv
  obtain ⟨g, rfl, rfl⟩ := hw
  exact ⟨_, congrArg (plain <$> ·) (Scalar.exact_add narrow), is_ofRat narrow⟩

/-- A difference of rational values that fits is in lowest terms. -/
theorem IsRat.sub (hv : v.IsRat p) (hw : w.IsRat q) (narrow : Narrow (p - q)) :
    ∃ r, v.sub w = .ok r ∧ r.Is (p - q) := by
  obtain ⟨w', neg, hw'⟩ := hw.neg
  rw [sub_eq_add_neg] at narrow ⊢
  obtain ⟨r, add, hr⟩ := hv.add hw' narrow
  exact ⟨r, Calc.bind_eq_ok.mpr ⟨w', neg, add⟩, hr⟩

/-- A product of rational values that fits is in lowest terms. -/
theorem IsRat.mul (hv : v.IsRat p) (hw : w.IsRat q) (narrow : Narrow (p * q)) :
    ∃ r, v.mul w = .ok r ∧ r.Is (p * q) := by
  obtain ⟨f, rfl, rfl⟩ := hv
  obtain ⟨g, rfl, rfl⟩ := hw
  exact ⟨_, congrArg (plain <$> ·) (Scalar.exact_mul narrow), is_ofRat narrow⟩

/-- A quotient of rational values that fits is in lowest terms. -/
theorem IsRat.div (hv : v.IsRat p) (hw : w.Is q) (hq : q ≠ 0) (narrow : Narrow (p / q)) :
    ∃ r, v.div w = .ok r ∧ r.Is (p / q) := by
  obtain ⟨f, rfl, rfl⟩ := hv
  obtain ⟨_, rfl, g, rfl, hg, rfl⟩ := hw
  refine ⟨_, (Fraction.divisor_eq hg _).trans ?_, is_ofRat narrow⟩
  rw [if_neg hq]
  exact congrArg (plain <$> ·) (Scalar.exact_div hg hq narrow)

end Value

namespace Number

/-- The number is real and exact and stands for a rational. -/
def IsRat (z : Number) (q : ℚ) : Prop := z.re.IsRat q ∧ z.im.IsRat 0

theorem isRat_ofInt (n : Int) : (ofInt n).IsRat n := ⟨Value.isRat_ofInt n, Value.isRat_zero⟩

theorem isRat_zero : zero.IsRat 0 := ⟨Value.isRat_zero, Value.isRat_zero⟩

theorem isRat_one : one.IsRat 1 := ⟨Value.isRat_one, Value.isRat_zero⟩

variable [Tolerance] {z w : Number} {p q : ℚ}

theorem IsRat.isReal_eq (h : z.IsRat q) : z.isReal = .ok true := h.2.isZero_eq

theorem IsRat.isZero_eq (h : z.IsRat q) : z.isZero = .ok (decide (q = 0)) := by
  unfold isZero
  rw [Calc.both_eq_ok h.1.isZero_eq h.2.isZero_eq]
  exact congrArg Except.ok (Bool.and_true _)

/-- Rational numbers are the same just if they stand for one number. -/
theorem IsRat.same_eq (hz : z.IsRat p) (hw : w.IsRat q) : z.same w = .ok (decide (p = q)) := by
  unfold same
  rw [Calc.both_eq_ok (hz.1.same_eq hw.1) (hz.2.same_eq hw.2)]
  exact congrArg Except.ok (Bool.and_true _)

/-- The sign of a number other than zero is that of its real part. -/
theorem IsRat.sgn_eq (h : z.IsRat q) (nonzero : q ≠ 0) : ∃ n, z.sgn = .ok n ∧ (n < 0 ↔ q < 0) := by
  obtain ⟨n, sgn, negative⟩ := h.1.sgn_eq
  refine ⟨n, ?_, negative⟩
  unfold Number.sgn
  rw [h.1.isZero_eq, decide_eq_false nonzero]
  exact sgn

variable [Exactness]

/-- The opposite of a rational number goes by parts. -/
theorem IsRat.neg (h : z.IsRat q) : ∃ r, z.neg = .ok r ∧ r.IsRat (-q) := by
  obtain ⟨a, re, ha⟩ := h.1.neg
  obtain ⟨b, im, hb⟩ := h.2.neg
  rw [neg_zero] at hb
  refine ⟨⟨a, b⟩, ?_, ha, hb⟩
  unfold Number.neg
  rw [re, im]
  rfl

/-- The sum of two rational numbers, if it fits. -/
theorem IsRat.add (hz : z.IsRat p) (hw : w.IsRat q) (narrow : Narrow (p + q)) :
    ∃ r, z.add w = .ok r ∧ r.IsRat (p + q) := by
  obtain ⟨a, re, ha⟩ := hz.1.add hw.1 narrow
  obtain ⟨b, im, hb⟩ := hz.2.add hw.2 ((add_zero (0 : ℚ)).symm ▸ Narrow.zero)
  rw [add_zero] at hb
  refine ⟨⟨a, b⟩, ?_, ha.isRat, hb.isRat⟩
  unfold Number.add
  rw [re, im]
  rfl

/-- The difference of two rational numbers, if it fits. -/
theorem IsRat.sub (hz : z.IsRat p) (hw : w.IsRat q) (narrow : Narrow (p - q)) :
    ∃ r, z.sub w = .ok r ∧ r.IsRat (p - q) := by
  obtain ⟨a, re, ha⟩ := hz.1.sub hw.1 narrow
  obtain ⟨b, im, hb⟩ := hz.2.sub hw.2 ((sub_zero (0 : ℚ)).symm ▸ Narrow.zero)
  rw [sub_zero] at hb
  refine ⟨⟨a, b⟩, ?_, ha.isRat, hb.isRat⟩
  unfold Number.sub
  rw [re, im]
  rfl

/-- A product with a real factor goes by parts, so no products are added up. -/
theorem IsRat.mul (hz : z.IsRat p) (hw : w.IsRat q) (narrow : Narrow (p * q)) :
    ∃ r, z.mul w = .ok r ∧ r.IsRat (p * q) := by
  obtain ⟨a, re, ha⟩ := hz.1.mul hw.1 narrow
  obtain ⟨b, im, hb⟩ := hz.2.mul hw.1 ((zero_mul q).symm ▸ Narrow.zero)
  rw [zero_mul] at hb
  refine ⟨⟨a, b⟩, ?_, ha.isRat, hb.isRat⟩
  unfold Number.mul
  rw [hw.isReal_eq]
  show (do return ⟨← z.re.mul w.re, ← z.im.mul w.re⟩ : Calc Number) = _
  rw [re, im]
  rfl

/-! ## Gaussian rationals -/

variable {g h : GaussianRat}

/-- The opposite of a Gaussian rational. -/
theorem Is.neg (hz : z.Is g) : ∃ r, z.neg = .ok r ∧ r.Is (-g) := by
  obtain ⟨a, re, ha⟩ := hz.1.neg
  obtain ⟨b, im, hb⟩ := hz.2.neg
  refine ⟨⟨a, b⟩, ?_, ha, hb⟩
  unfold Number.neg
  rw [re, im]
  rfl

/-- The sum of two Gaussian rationals, if both parts fit. -/
theorem Is.add (hz : z.Is g) (hw : w.Is h) (hre : Narrow (g.re + h.re))
    (him : Narrow (g.im + h.im)) : ∃ r, z.add w = .ok r ∧ r.Is (g + h) := by
  obtain ⟨a, re, ha⟩ := hz.1.isRat.add hw.1.isRat hre
  obtain ⟨b, im, hb⟩ := hz.2.isRat.add hw.2.isRat him
  refine ⟨⟨a, b⟩, ?_, ha, hb⟩
  unfold Number.add
  rw [re, im]
  rfl

/-- The difference of two Gaussian rationals, if both parts fit. -/
theorem Is.sub (hz : z.Is g) (hw : w.Is h) (hre : Narrow (g.re - h.re))
    (him : Narrow (g.im - h.im)) : ∃ r, z.sub w = .ok r ∧ r.Is (g - h) := by
  obtain ⟨a, re, ha⟩ := hz.1.isRat.sub hw.1.isRat hre
  obtain ⟨b, im, hb⟩ := hz.2.isRat.sub hw.2.isRat him
  refine ⟨⟨a, b⟩, ?_, ha, hb⟩
  unfold Number.sub
  rw [re, im]
  rfl

/-- The product by a real number. -/
theorem Is.real_mul (hz : z.Is ⟨p, 0⟩) (hw : w.Is g) (hre : Narrow (p * g.re))
    (him : Narrow (p * g.im)) : ∃ r, z.mul w = .ok r ∧ r.Is ⟨p * g.re, p * g.im⟩ := by
  unfold Number.mul
  rw [hw.isReal_eq]
  by_cases real : g.im = 0
  · obtain ⟨a, re, ha⟩ := hz.1.isRat.mul hw.1.isRat hre
    obtain ⟨b, im, hb⟩ := hz.2.isRat.mul hw.1.isRat ((zero_mul g.re).symm ▸ Narrow.zero)
    refine ⟨⟨a, b⟩, ?_, ha, ?_⟩
    · rw [decide_eq_true real]
      show (do return ⟨← z.re.mul w.re, ← z.im.mul w.re⟩ : Calc Number) = _
      rw [re, im]
      rfl
    · rw [real, mul_zero]
      rwa [zero_mul] at hb
  · rw [mul_comm p] at hre him
    obtain ⟨a, re, ha⟩ := hw.1.isRat.mul hz.1.isRat hre
    obtain ⟨b, im, hb⟩ := hw.2.isRat.mul hz.1.isRat him
    refine ⟨⟨a, b⟩, ?_, ?_, ?_⟩
    · rw [decide_eq_false real, hz.isReal_eq, decide_eq_true rfl]
      show (do return ⟨← w.re.mul z.re, ← w.im.mul z.re⟩ : Calc Number) = _
      rw [re, im]
      rfl
    · rw [mul_comm p g.re]
      exact ha
    · rw [mul_comm p g.im]
      exact hb

/-- The quotient of real numbers. -/
theorem Is.real_div (hz : z.Is ⟨p, 0⟩) (hw : w.Is ⟨q, 0⟩) (hq : q ≠ 0) (narrow : Narrow (p / q)) :
    ∃ r, z.div w = .ok r ∧ r.Is ⟨p / q, 0⟩ := by
  have nonzero : (⟨q, 0⟩ : GaussianRat) ≠ 0 := fun zero => hq (congrArg (·.re) zero)
  obtain ⟨a, re, ha⟩ := hz.1.isRat.div hw.1 hq narrow
  obtain ⟨b, im, hb⟩ := hz.2.isRat.div hw.1 hq ((zero_div q).symm ▸ Narrow.zero)
  rw [zero_div] at hb
  refine ⟨⟨a, b⟩, ?_, ha, hb⟩
  unfold Number.div
  rw [hw.isZero_eq, decide_eq_false nonzero, hw.isFinite_eq, hw.isReal_eq, decide_eq_true rfl]
  show (do return ⟨← z.re.div w.re, ← z.im.div w.re⟩ : Calc Number) = _
  rw [re, im]
  rfl

end Number

end SymbolicAlgebra
