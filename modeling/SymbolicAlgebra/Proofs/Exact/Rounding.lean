import SymbolicAlgebra.Proofs.Exact.Scalar

/-!
# Rounded arithmetic of fractions

The sum, difference, product and quotient of narrow fractions are what they are of the rationals
that the fractions stand for, rounded once (`Scalar.Rounds`): in lowest terms if these are narrow,
and the nearest double if they are not. It does not matter how the operands are written.

No operation fails on the way. The parts of a sum of narrow fractions have at most `107` bits, so
its double is never out of range, and a narrow divisor has the double zero only if it is zero.
-/

namespace SymbolicAlgebra

namespace Fraction

/-- A rational as a fraction in lowest terms. -/
def ofRat (r : ℚ) : Fraction := ⟨r.num, r.den, Int.natCast_ne_zero.mpr r.den_ne_zero⟩

theorem toRat_ofRat (r : ℚ) : (ofRat r).toRat = r := by
  show (r.num / ((r.den : ℤ) : ℚ) : ℚ) = r
  rw [Int.cast_natCast]
  exact r.num_div_den

theorem lowest_eq_ofRat (n : Int) {d : Int} (h : d ≠ 0) : lowest n d h = ofRat (n / d) := by
  obtain ⟨num, den⟩ := lowest_parts n h
  unfold ofRat
  simp only [← num, ← den]

theorem isNarrow_ofRat (r : ℚ) : (ofRat r).isNarrow = true ↔ Narrow r := by
  rw [isNarrow_iff]
  exact Iff.rfl

/-- The double of a fraction whose parts have at most `107` bits is in range. -/
theorem toDouble_lowest {n d : Int} (h : d ≠ 0) (hn : n.natAbs ≤ 2 ^ 107) :
    ∃ v, (lowest n d h).toDouble = .ok v ∧ v.isFinite = true := by
  have part : (lowest n d h).num.natAbs ≤ 2 ^ 107 := (Int.natAbs_ediv_le_natAbs _ _).trans hn
  have nonzero := (lowest n d h).den_ne_zero
  obtain ⟨v, double, finite⟩ := Double.ratio?_finite nonzero (Double.narrow_lt nonzero part)
  refine ⟨v, ?_, finite⟩
  unfold toDouble
  rw [double]
  rfl

/-- A narrow divisor is refused if it is zero, and nothing else is. -/
theorem divisor_eq {α : Type} {g : Fraction} (hg : g.isNarrow = true) (x : Calc α) :
    (g.toDouble >>= fun d => if d.isZero = true then throw (.undefined .quotient) else x) =
      if g.toRat = 0 then .error (.undefined .quotient) else x := by
  obtain ⟨v, double, -, zero⟩ := toDouble_narrow hg
  rw [double]
  show (if v.isZero = true then _ else _) = _
  rw [zero, if_congr g.isZero_iff rfl rfl]
  rfl

end Fraction

namespace Scalar

/-- The scalar is the rational in lowest terms if these are narrow, and else its nearest double. -/
def Rounds (s : Scalar) (r : ℚ) : Prop :=
  (Narrow r → s = exact (.ofRat r)) ∧
    (¬Narrow r → ∃ v, (Fraction.ofRat r).toDouble = .ok v ∧ s = ofDouble v)

/-- Exact arithmetic rounds a quotient that has a double. -/
theorem ofQuotient_of_toDouble {n d : Int} {v : Double} (h : d ≠ 0)
    (double : (Fraction.ofRat (n / d)).toDouble = .ok v) :
    ∃ s, ofQuotient n d = .ok s ∧ s.Rounds (n / d) := by
  unfold ofQuotient
  rw [dif_neg h, Fraction.lowest_eq_ofRat n h]
  by_cases narrow : Narrow (n / d : ℚ)
  · refine ⟨_, if_pos ((Fraction.isNarrow_ofRat _).mpr narrow), fun _ => rfl, ?_⟩
    exact fun wide => absurd narrow wide
  · refine ⟨ofDouble v, ?_, fun h => absurd h narrow, fun _ => ⟨v, double, rfl⟩⟩
    simp only [if_neg (mt (Fraction.isNarrow_ofRat _).mp narrow), double]
    rfl

/-- Exact arithmetic rounds a quotient whose numerator has at most `107` bits. -/
theorem ofQuotient_rounds {n d : Int} (h : d ≠ 0) (hn : n.natAbs ≤ 2 ^ 107) :
    ∃ s, ofQuotient n d = .ok s ∧ s.Rounds (n / d) := by
  obtain ⟨v, double, -⟩ := Fraction.toDouble_lowest h hn
  rw [Fraction.lowest_eq_ofRat n h] at double
  exact ofQuotient_of_toDouble h double

variable {f g : Fraction}

theorem natAbs_mul_le {a b : Int} (ha : a.natAbs ≤ 2 ^ 53) (hb : b.natAbs ≤ 2 ^ 53) :
    (a * b).natAbs ≤ 2 ^ 106 := by
  rw [Int.natAbs_mul, show 106 = 53 + 53 from rfl, Nat.pow_add]
  exact Nat.mul_le_mul ha hb

/-- A sum of fractions is exact or the nearest double. -/
theorem add_rounds (hf : f.isNarrow = true) (hg : g.isNarrow = true) :
    ∃ s, (exact f).add (exact g) = .ok s ∧ s.Rounds (f.toRat + g.toRat) := by
  rw [Fraction.isNarrow_iff] at hf hg
  have left := natAbs_mul_le hf.1 hg.2
  have right := natAbs_mul_le hg.1 hf.2
  have sum := Int.natAbs_add_le (f.num * g.den) (g.num * f.den)
  rw [f.toRat_add g]
  exact ofQuotient_rounds (mul_ne_zero f.den_ne_zero g.den_ne_zero) (by omega)

/-- A product of fractions is exact or the nearest double. -/
theorem mul_rounds (hf : f.isNarrow = true) (hg : g.isNarrow = true) :
    ∃ s, (exact f).mul (exact g) = .ok s ∧ s.Rounds (f.toRat * g.toRat) := by
  by_cases h : f.toRat * g.toRat = 0
  · -- zero is made without a quotient, and is the same
    have absorbed : (f.isZero || g.isZero) = true := by
      rw [Bool.or_eq_true, f.isZero_iff, g.isZero_iff]
      exact mul_eq_zero.mp h
    rw [h]
    refine ⟨zero, if_pos absorbed, fun _ => rfl, fun wide => absurd ?_ wide⟩
    exact ⟨by decide, by decide⟩
  · have nonzero : ¬(f.isZero || g.isZero) = true := by
      rw [Bool.or_eq_true, f.isZero_iff, g.isZero_iff]
      exact mt mul_eq_zero.mpr h
    have product : (exact f).mul (exact g) = ofQuotient (f.num * g.num) (f.den * g.den) :=
      if_neg nonzero
    rw [Fraction.isNarrow_iff] at hf hg
    rw [product, f.toRat_mul g]
    exact ofQuotient_rounds (mul_ne_zero f.den_ne_zero g.den_ne_zero)
      ((natAbs_mul_le hf.1 hg.1).trans (by norm_num))

/-- A quotient of fractions is that of the products crosswise, unless the divisor is zero. -/
theorem div_eq (hg : g.isNarrow = true) : (exact f).div (exact g) =
    if g.toRat = 0 then .error (.undefined .quotient)
    else ofQuotient (f.num * g.den) (f.den * g.num) :=
  Fraction.divisor_eq hg _

/-- A quotient of fractions is exact or the nearest double. -/
theorem div_rounds (hf : f.isNarrow = true) (hg : g.isNarrow = true) (h : g.toRat ≠ 0) :
    ∃ s, (exact f).div (exact g) = .ok s ∧ s.Rounds (f.toRat / g.toRat) := by
  have num : g.num ≠ 0 := mt g.toRat_eq_zero_iff.mpr h
  rw [div_eq hg, if_neg h, f.toRat_div g]
  rw [Fraction.isNarrow_iff] at hf hg
  exact ofQuotient_rounds (mul_ne_zero f.den_ne_zero num)
    ((natAbs_mul_le hf.1 hg.2).trans (by norm_num))

end Scalar

namespace Value

/-- A plain result of a calculation with scalars. -/
theorem plain_rounds {x : Calc Scalar} {r : ℚ} (h : ∃ s, x = .ok s ∧ s.Rounds r) :
    ∃ s, plain <$> x = .ok (plain s) ∧ s.Rounds r := by
  obtain ⟨s, rfl, rounds⟩ := h
  exact ⟨s, rfl, rounds⟩

variable [Tolerance] {f g : Fraction}

/-- Sums, differences, products and quotients of narrow fractions are rounded once and never
fail, but for a quotient by zero. -/
theorem arithmetic_rounds (hf : f.isNarrow = true) (hg : g.isNarrow = true) :
    (∃ s, (exact f).add (exact g) = .ok (plain s) ∧ s.Rounds (f.toRat + g.toRat)) ∧
    (∃ s, (exact f).sub (exact g) = .ok (plain s) ∧ s.Rounds (f.toRat - g.toRat)) ∧
    (∃ s, (exact f).mul (exact g) = .ok (plain s) ∧ s.Rounds (f.toRat * g.toRat)) ∧
    (g.toRat = 0 → (exact f).div (exact g) = .error (.undefined .quotient)) ∧
    (g.toRat ≠ 0 →
      ∃ s, (exact f).div (exact g) = .ok (plain s) ∧ s.Rounds (f.toRat / g.toRat)) := by
  have quotient : (exact f).div (exact g) = if g.toRat = 0 then .error (.undefined .quotient)
      else plain <$> (Scalar.exact f).div (.exact g) := Fraction.divisor_eq hg _
  refine ⟨plain_rounds (Scalar.add_rounds hf hg), ?_, plain_rounds (Scalar.mul_rounds hf hg),
    fun zero => quotient.trans (if_pos zero), fun nonzero => ?_⟩
  · rw [sub_eq_add_neg, ← Fraction.toRat_neg]
    exact plain_rounds (Scalar.add_rounds hf (Fraction.isNarrow_neg hg))
  · rw [quotient, if_neg nonzero]
    exact plain_rounds (Scalar.div_rounds hf hg nonzero)

omit [Tolerance] in
/-- With `2 / (-4)`, which is not in lowest terms, and `9007199254740992 / 5`. The product is a
fraction, and the sum and the quotient are too wide for one. -/
theorem arithmetic_rounds_unreduced :
    letI := Double.standardTolerance
    let f : Fraction := ⟨2, -4, by decide⟩
    let g : Fraction := ⟨9007199254740992, 5, by decide⟩
    f.isNarrow = true ∧ g.isNarrow = true ∧
      (∃ v, (exact f).add (exact g) = .ok (ofDouble v)) ∧
      (exact f).mul (exact g) = .ok (exact (.ofRat (-4503599627370496 / 5))) ∧
      ∃ v, (exact f).div (exact g) = .ok (ofDouble v) := by
  let := Double.standardTolerance
  intro f g
  have hf : f.isNarrow = true := by decide
  have hg : g.isNarrow = true := by decide
  have left : f.toRat = -1 / 2 := by norm_num [Fraction.toRat, f]
  have right : g.toRat = 9007199254740992 / 5 := by norm_num [Fraction.toRat, g]
  obtain ⟨⟨s, sum, -, wideSum⟩, -, ⟨p, product, narrow, -⟩, -, quotient⟩ := arithmetic_rounds hf hg
  obtain ⟨q, quotient, -, wideQuotient⟩ := quotient (by rw [right]; norm_num)
  rw [left, right] at wideSum narrow wideQuotient
  obtain ⟨v, -, rfl⟩ := wideSum (by unfold Narrow; decide +kernel)
  obtain ⟨w, -, rfl⟩ := wideQuotient (by unfold Narrow; decide +kernel)
  refine ⟨hf, hg, ⟨v, sum⟩, ?_, w, quotient⟩
  rw [product, narrow (by unfold Narrow; decide +kernel)]
  norm_num [exact]

end Value

end SymbolicAlgebra
