import SymbolicAlgebra.Proofs.Equality
import SymbolicAlgebra.Proofs.Exact.Nearest
import SymbolicAlgebra.Proofs.Exact.Rounding

/-!
# The order of doubles and of fractions

Finite doubles are ordered as the numbers that they stand for (`Double.lt_iff_value`).

Two fractions are compared by exact means for equality, but by their doubles for their order. So
the comparison knows that two fractions differ even where one double is nearest to both, and then
it calls each of them the larger one (`Value.compare_eq`). It never calls a larger fraction the
smaller one, since rounding keeps the order. And it is right if the doubles differ
(`Value.compare_exact`), as those of fractions with parts below `2 ^ 26` do
(`Value.compare_small`).
-/

namespace SymbolicAlgebra

open Float.Model Float.Model.UnpackedFloat

namespace Double

variable {m n : ℕ} {e k : ℤ} {v a b : Double}

/-! ## Doubles -/

/-- Numbers in canonical form are ordered by their exponents, and then by their mantissas. -/
theorem Canonical.lt_iff (h : Canonical m e) (h' : Canonical n k) :
    (m * 2 ^ e : ℚ) < n * 2 ^ k ↔ e < k ∨ e = k ∧ m < n := by
  have higher {m n : ℕ} {e k : ℤ} (h : Canonical m e) (h' : Canonical n k) (lt : e < k) :
      (m * 2 ^ e : ℚ) < n * 2 ^ k := by
    have below : (m : ℚ) < 2 ^ 53 := by exact_mod_cast h.below
    have full : (2 ^ 52 : ℚ) ≤ n := by
      exact_mod_cast h'.full.resolve_left (h.lowest.trans_lt lt).ne'
    calc (m * 2 ^ e : ℚ) < 2 ^ 53 * 2 ^ e := by gcongr
      _ = 2 ^ 52 * 2 ^ (e + 1) := by
        rw [zpow_add_one₀ two_ne_zero]
        ring
      _ ≤ n * 2 ^ k := by
        gcongr
        · norm_num
        · omega
  -- the higher exponent comes with a full mantissa, so it decides; the mantissas break a tie
  rcases lt_trichotomy e k with lt | rfl | gt
  · exact iff_of_true (higher h h' lt) (.inl lt)
  · rw [mul_lt_mul_iff_left₀ (zpow_pos two_pos _), Nat.cast_lt]
    omega
  · exact iff_of_false (not_lt.mpr (higher h' h gt).le) (by omega)

/-- The fields of a word are those of its bits without the sign. -/
theorem fields_eq (v : Double) :
    (@unpackExponent Format.binary64 v.bits.toBitVec).toNat = v.magnitude / 2 ^ 52 ∧
      (@unpackMantissa Format.binary64 v.bits.toBitVec).toNat = v.magnitude % 2 ^ 52 := by
  have exponent : (@unpackExponent Format.binary64 v.bits.toBitVec).toNat =
      v.bits.toNat / 2 ^ 52 % 2 ^ 11 := by
    rw [unpackExponent, BitVec.toNat_cast, BitVec.extractLsb_toNat, Nat.shiftRight_eq_div_pow]
    rfl
  have mantissa : (@unpackMantissa Format.binary64 v.bits.toBitVec).toNat =
      v.bits.toNat % 2 ^ 52 := by
    rw [unpackMantissa, BitVec.toNat_cast, BitVec.extractLsb_toNat]
    rfl
  have width := v.bits.toNat_lt
  rw [exponent, mantissa]
  unfold magnitude
  simp only [Nat.pow_eq]
  omega

/-- The sign of a double for the machine. -/
def machineSign (v : Double) : Sign := if v.isNegative then .negative else .positive

theorem sign_eq (v : Double) :
    Sign.ofBitVec (@unpackSign Format.binary64 v.bits.toBitVec) = v.machineSign := by
  rw [ofBitVec_unpackSign, ← isNegative_eq]
  rfl

/-- The machine reads a full mantissa by its leading bit and the fraction. -/
theorem unpack_of_full (h : v.isFinite = true) (canonical : Canonical m e)
    (bits : v.magnitude = encode m e) (full : 2 ^ 52 ≤ m) : ∃ hm : 0 < m,
      UnpackedFloat.unpack Format.binary64 v.bits.toBitVec = .finite v.machineSign m e hm := by
  obtain ⟨below, lowest, -⟩ := canonical
  obtain ⟨exponent, mantissa⟩ := fields_eq v
  unfold isFinite infinityBits at h
  rw [decide_eq_true_eq, bits] at h
  rw [bits] at exponent mantissa
  unfold encode at h exponent mantissa
  simp only [Nat.pow_eq] at h exponent mantissa
  -- the machine tests the exponent field for all ones, and then for all zeros
  have number : @unpackExponent Format.binary64 v.bits.toBitVec ≠ -1#11 := by
    rw [ne_eq, ← BitVec.toNat_inj, exponent]
    show ¬_ = 2047
    omega
  have normal : @unpackExponent Format.binary64 v.bits.toBitVec ≠ 0#11 := by
    rw [ne_eq, ← BitVec.toNat_inj, exponent]
    show ¬_ = 0
    omega
  have whole : (1#1 ++ @unpackMantissa Format.binary64 v.bits.toBitVec).toNat = m := by
    rw [BitVec.toNat_append, mantissa, Nat.shiftLeft_eq, mul_comm, ← Nat.two_pow_add_eq_or_of_lt]
    · show 2 ^ 52 * 1 + _ = m
      omega
    · show _ < 2 ^ 52
      omega
  have positive : 0 < m := by omega
  refine ⟨positive, ?_⟩
  unfold UnpackedFloat.unpack
  simp only [sign_eq]
  rw [if_neg number, if_neg normal, finite.injEq]
  refine ⟨rfl, whole, ?_⟩
  rw [exponent]
  show _ - (1023 + 52 : ℤ) = e
  omega

/-- The machine reads a mantissa that is not full by the fraction alone. -/
theorem unpack_of_low (bits : v.magnitude = m) (low : m < 2 ^ 52) :
    UnpackedFloat.unpack Format.binary64 v.bits.toBitVec =
      if hm : 0 < m then .finite v.machineSign m (-1074) hm else .zero v.machineSign := by
  obtain ⟨exponent, mantissa⟩ := fields_eq v
  rw [bits] at exponent mantissa
  rw [Nat.mod_eq_of_lt low] at mantissa
  have subnormal : @unpackExponent Format.binary64 v.bits.toBitVec = 0#11 := by
    rw [← BitVec.toNat_inj, exponent]
    show _ = 0
    omega
  have number : @unpackExponent Format.binary64 v.bits.toBitVec ≠ -1#11 := by
    rw [subnormal]
    decide
  unfold UnpackedFloat.unpack
  simp only [sign_eq]
  rw [if_neg number, if_pos subnormal]
  by_cases hm : 0 < m
  · have nonzero : @unpackMantissa Format.binary64 v.bits.toBitVec ≠ 0#52 := by
      rw [ne_eq, ← BitVec.toNat_inj, mantissa]
      exact hm.ne'
    rw [dif_neg nonzero, dif_pos hm, finite.injEq]
    refine ⟨rfl, mantissa, ?_⟩
    rw [subnormal]
    rfl
  · have zero : @unpackMantissa Format.binary64 v.bits.toBitVec = 0#52 := by
      rw [← BitVec.toNat_inj, mantissa]
      exact Nat.eq_zero_of_not_pos hm
    rw [dif_pos zero, dif_neg hm]

/-- A finite double as the machine reads it. -/
theorem unpack_of_isFinite (h : v.isFinite = true) : ∃ m e, Canonical m e ∧
    v.value = (if v.isNegative then -(m * 2 ^ e : ℚ) else m * 2 ^ e) ∧
      v.toFloat.toModel.unpack =
        if hm : 0 < m then .finite v.machineSign m e hm else .zero v.machineSign := by
  obtain ⟨m, e, canonical, bits, value⟩ := value_eq h
  refine ⟨m, e, canonical, value, ?_⟩
  rw [unpack_of_number (isNaN_eq_false h)]
  rcases le_or_gt (2 ^ 52) m with full | low
  · obtain ⟨positive, unpacked⟩ := unpack_of_full h canonical bits full
    rw [unpacked, dif_pos positive]
  · obtain rfl := canonical.full.resolve_right (not_le.mpr low)
    refine unpack_of_low (bits.trans ?_) low
    simp [encode]

/-- Below zero, the order of exponents and mantissas is turned round. -/
theorem lt_finite_negative {hm : 0 < m} {hn : 0 < n} :
    (finite .negative m e hm).lt (finite .negative n k hn) = true ↔ k < e ∨ k = e ∧ n < m := by
  show (some ((compare e k).then (compare m n)).swap == some Ordering.lt) = true ↔ _
  rw [beq_iff_eq, Option.some_inj, Ordering.swap_eq_lt, Ordering.then_eq_gt, compare_gt_iff_gt,
    compare_gt_iff_gt, compare_eq_iff_eq, eq_comm]

/-- Finite doubles are ordered as the numbers that they stand for. -/
theorem lt_iff_value (ha : a.isFinite = true) (hb : b.isFinite = true) :
    a < b ↔ a.value < b.value := by
  obtain ⟨m, e, canonical, left, unpacked⟩ := unpack_of_isFinite ha
  obtain ⟨n, k, canonical', right, unpacked'⟩ := unpack_of_isFinite hb
  rw [lt_iff, unpacked, unpacked', left, right]
  unfold machineSign
  have zero {m : ℕ} (h : ¬0 < m) (e : ℤ) : (m * 2 ^ e : ℚ) = 0 := by
    rw [Nat.eq_zero_of_not_pos h, Nat.cast_zero, zero_mul]
  have positive {m : ℕ} (h : 0 < m) (e : ℤ) : (0 : ℚ) < m * 2 ^ e := by positivity
  -- by which of the two are zero, and then by their signs; only equal signs need the magnitudes
  by_cases hm : 0 < m
  · have pm := positive hm e
    rw [dif_pos hm]
    by_cases hn : 0 < n
    · have pn := positive hn k
      rw [dif_pos hn]
      cases a.isNegative <;> cases b.isNegative
      · exact lt_finite.trans (canonical.lt_iff canonical').symm
      · exact iff_of_false Bool.false_ne_true (by simp; linarith)
      · exact iff_of_true rfl (by simp; linarith)
      · exact lt_finite_negative.trans
          ((canonical'.lt_iff canonical).symm.trans (neg_lt_neg_iff).symm)
    · rw [dif_neg hn, zero hn]
      cases a.isNegative <;> cases b.isNegative
      · exact iff_of_false Bool.false_ne_true (by simp; linarith)
      · exact iff_of_false Bool.false_ne_true (by simp; linarith)
      · exact iff_of_true rfl (by simp; linarith)
      · exact iff_of_true rfl (by simp; linarith)
  · rw [dif_neg hm, zero hm]
    by_cases hn : 0 < n
    · have pn := positive hn k
      rw [dif_pos hn]
      cases a.isNegative <;> cases b.isNegative
      · exact iff_of_true rfl (by simp; linarith)
      · exact iff_of_false Bool.false_ne_true (by simp; linarith)
      · exact iff_of_true rfl (by simp; linarith)
      · exact iff_of_false Bool.false_ne_true (by simp; linarith)
    · rw [dif_neg hn, zero hn]
      cases a.isNegative <;> cases b.isNegative <;> exact iff_of_false Bool.false_ne_true (by simp)

/-! ## Magnitudes -/

theorem isNegative_abs (v : Double) : v.abs.isNegative = false := by
  have bits : v.abs.bits.toBitVec = v.bits.toBitVec &&& 0x7fffffffffffffff#64 := rfl
  have mask : (0x7fffffffffffffff#64).getLsbD 63 = false := rfl
  rw [isNegative_eq, bits, BitVec.getLsbD_and, mask, Bool.and_false]

@[simp] theorem isFinite_abs (v : Double) : v.abs.isFinite = v.isFinite := by
  unfold isFinite
  rw [magnitude_abs]

/-- The absolute value stands for that of the number. -/
theorem value_abs (v : Double) : v.abs.value = |v.value| := by
  unfold value content
  rw [isNegative_abs, magnitude_abs]
  dsimp only
  split_ifs
  · exact abs_zero.symm
  · exact abs_zero.symm
  · exact (abs_signed (mul_nonneg (Nat.cast_nonneg _) (zpow_nonneg zero_le_two _)) _).symm
  · exact (abs_signed (mul_nonneg (Nat.cast_nonneg _) (zpow_nonneg zero_le_two _)) _).symm

/-- A double that stands for less than the zero bound becomes zero. -/
theorem snap_eq (h : v.isFinite = true) :
    snap v = if |v.value| < epsilon.value then 0 else v := by
  have below := lt_iff_value ((isFinite_abs v).trans h) (b := epsilon) (by decide +kernel)
  rw [value_abs] at below
  exact if_congr below rfl rfl

end Double

/-! ## Fractions -/

namespace Fraction

variable {f g : Fraction} {v : Double}

/-- Over a common denominator a fraction is an integer. -/
theorem toRat_mul_den (f : Fraction) (d : ℤ) : f.toRat * (f.den * d : ℚ) = (f.num * d : ℤ) := by
  rw [toRat, ← mul_assoc, div_mul_cancel₀ _ f.den_cast_ne_zero, Int.cast_mul]

/-- The double of a fraction is a nearest one. -/
theorem toDouble_isNearest (h : f.toDouble = .ok v) : v.IsNearest f.toRat := by
  unfold toDouble at h
  split at h
  next w found =>
    cases h
    exact Double.ratio?_isNearest f.den_ne_zero found
  next => cases h

/-- The double of a fraction with a narrow denominator is off by a small part of it. -/
theorem toDouble_error_of_den (den : f.den.natAbs ≤ 2 ^ 53) (h : f.toDouble = .ok v) :
    |v.value - f.toRat| * 2 ^ 53 ≤ |f.toRat| := by
  unfold toDouble at h
  split at h
  next w found =>
    cases h
    refine Double.ratio?_error f.den_ne_zero found fun nonzero => ?_
    have top : (1 : ℚ) ≤ f.num.natAbs := by exact_mod_cast Int.natAbs_pos.mpr nonzero
    have bottom : (f.den.natAbs : ℚ) ≤ 2 ^ 53 := by exact_mod_cast den
    have positive : (0 : ℚ) < f.den.natAbs := by exact_mod_cast Int.natAbs_pos.mpr f.den_ne_zero
    rw [← Double.natAbs_div_natAbs, le_div_iff₀ positive]
    calc (2 : ℚ) ^ (-1022 : ℤ) * f.den.natAbs ≤ 2 ^ (-53 : ℤ) * 2 ^ 53 := by
          gcongr
          · norm_num
          · norm_num
      _ = 1 := by norm_num
      _ ≤ f.num.natAbs := top
  next => cases h

/-- The double of a narrow fraction is off by a small part of it. -/
theorem toDouble_error (hf : f.isNarrow = true) (h : f.toDouble = .ok v) :
    |v.value - f.toRat| * 2 ^ 53 ≤ |f.toRat| :=
  toDouble_error_of_den ((isNarrow_iff f).mp hf).2 h

end Fraction

namespace Value

variable [Tolerance] {f g : Fraction} {v w : Double}

/-- How fractions compare: equal ones by exact means, and others by their doubles. -/
theorem compare_eq (hv : f.toDouble = .ok v) (hw : g.toDouble = .ok w) :
    (exact f).compare (exact g) =
      .ok (if f.toRat = g.toRat then 0 else if v.value < w.value then -1 else 1) := by
  have same : (exact f).same (exact g) = .ok (decide (f.toRat = g.toRat)) := by
    show Except.ok (f.same g) = _
    rw [Bool.eq_iff_iff.mpr ((f.same_iff g).trans decide_eq_true_iff.symm)]
  have left : (exact f).toDouble = .ok v := hv
  have right : (exact g).toDouble = .ok w := hw
  have order := Double.lt_iff_value (Fraction.toDouble_isNearest hv).finite
    (Fraction.toDouble_isNearest hw).finite
  unfold compare
  rw [same]
  by_cases equal : f.toRat = g.toRat
  · rw [decide_eq_true equal, if_pos equal]
    rfl
  · rw [decide_eq_false equal, if_neg equal]
    show (do if (← (exact f).toDouble) < (← (exact g).toDouble) then pure (-1) else pure 1) = _
    rw [left, right]
    show (if v < w then Except.ok (-1) else Except.ok 1) = _
    rw [← apply_ite Except.ok]
    exact congrArg Except.ok (if_congr order rfl rfl)

/-- The comparison of two rationals. -/
def order (x y : ℚ) : ℤ := if x = y then 0 else if x < y then -1 else 1

/-- A larger fraction never counts as the smaller one. -/
theorem compare_of_gt (hf : f.isNarrow = true) (hg : g.isNarrow = true)
    (h : g.toRat < f.toRat) : (exact f).compare (exact g) = .ok 1 := by
  obtain ⟨v, hv, -⟩ := Fraction.toDouble_narrow hf
  obtain ⟨w, hw, -⟩ := Fraction.toDouble_narrow hg
  have kept := (Fraction.toDouble_isNearest hw).le_of_lt (Fraction.toDouble_isNearest hv) h
  rw [compare_eq hv hw, if_neg h.ne', if_neg (not_lt.mpr kept)]

/-- **Where two doubles tell fractions apart, the comparison is that of the rationals.** -/
theorem compare_exact (hv : f.toDouble = .ok v) (hw : g.toDouble = .ok w)
    (apart : f.toRat ≠ g.toRat → v.value ≠ w.value) :
    (exact f).compare (exact g) = .ok (order f.toRat g.toRat) := by
  have left := Fraction.toDouble_isNearest hv
  have right := Fraction.toDouble_isNearest hw
  rw [compare_eq hv hw]
  unfold order
  by_cases equal : f.toRat = g.toRat
  · rw [if_pos equal, if_pos equal]
  · rw [if_neg equal, if_neg equal]
    refine congrArg Except.ok (if_congr ⟨fun below => ?_, fun below => ?_⟩ rfl rfl)
    · by_contra above
      exact absurd (right.le_of_lt left (lt_of_le_of_ne (not_lt.mp above) (Ne.symm equal)))
        (not_le.mpr below)
    · exact lt_of_le_of_ne (left.le_of_lt right below) (apart equal)

/-- **Where one double is nearest to both of two fractions, each is the larger one.** -/
theorem compare_close (hv : f.toDouble = .ok v) (hw : g.toDouble = .ok w)
    (apart : f.toRat ≠ g.toRat) (close : v.value = w.value) :
    (exact f).compare (exact g) = .ok 1 ∧ (exact g).compare (exact f) = .ok 1 := by
  rw [compare_eq hv hw, compare_eq hw hv, if_neg apart, if_neg apart.symm, close]
  exact ⟨congrArg Except.ok (if_neg (lt_irrefl _)), congrArg Except.ok (if_neg (lt_irrefl _))⟩

/-- The fractions just below one whose parts are as wide as any have one double. -/
example :
    letI := Double.standardTolerance
    let f : Fraction := ⟨9007199254740990, 9007199254740991, by decide⟩
    let g : Fraction := ⟨9007199254740991, 9007199254740992, by decide⟩
    f.toRat < g.toRat ∧ (exact f).compare (exact g) = .ok 1 ∧
      (exact g).compare (exact f) = .ok 1 := by
  decide +kernel

/-- **Fractions with small cross products compare as the rationals.** So do all whose parts are
below `2 ^ 26`. -/
theorem compare_small (hf : f.isNarrow = true) (hg : g.isNarrow = true)
    (small : |f.num * g.den| + |g.num * f.den| < 2 ^ 53) :
    (exact f).compare (exact g) = .ok (order f.toRat g.toRat) := by
  obtain ⟨v, hv, -⟩ := Fraction.toDouble_narrow hf
  obtain ⟨w, hw, -⟩ := Fraction.toDouble_narrow hg
  refine compare_exact hv hw fun apart close => ?_
  have left := Fraction.toDouble_error hf hv
  have right := Fraction.toDouble_error hg hw
  have near : |f.toRat - g.toRat| ≤ |v.value - f.toRat| + |w.value - g.toRat| := by
    rw [close, abs_sub_comm w.value]
    exact abs_sub_le _ _ _
  -- over the common denominator the two fractions are integers, and so at least one apart
  have first := f.toRat_mul_den g.den
  have second := g.toRat_mul_den f.den
  rw [mul_comm (g.den : ℚ)] at second
  have positive : (0 : ℚ) < |(f.den * g.den : ℚ)| :=
    abs_pos.mpr (mul_ne_zero f.den_cast_ne_zero g.den_cast_ne_zero)
  have integers : f.num * g.den ≠ g.num * f.den := fun same => by
    rw [← same, ← first] at second
    exact apart (mul_right_cancel₀ (abs_pos.mp positive) second).symm
  have apart : 1 ≤ |f.toRat - g.toRat| * |(f.den * g.den : ℚ)| := by
    rw [← abs_mul, sub_mul, first, second, ← Int.cast_sub, ← Int.cast_abs]
    exact_mod_cast Int.one_le_abs (sub_ne_zero.mpr integers)
  have first : |f.toRat| * |(f.den * g.den : ℚ)| = |f.num * g.den| := by
    rw [← abs_mul, first, Int.cast_abs]
  have second : |g.toRat| * |(f.den * g.den : ℚ)| = |g.num * f.den| := by
    rw [← abs_mul, second, Int.cast_abs]
  have small : (|f.num * g.den| + |g.num * f.den| : ℤ) < (2 ^ 53 : ℚ) := by exact_mod_cast small
  push_cast at small first second
  nlinarith

end Value

end SymbolicAlgebra
