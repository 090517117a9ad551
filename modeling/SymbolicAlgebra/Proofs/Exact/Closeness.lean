import SymbolicAlgebra.Proofs.Exact.Machine

/-!
# When doubles count as equal

Doubles count as equal if they differ by less than a small bound, absolutely or relative to the
larger one. The difference and the relative bound are rounded before they are compared, so this
file shows what does not depend on that, for the tolerance of a calculation that sets none:

* doubles that differ by less than `1 / (3 * 10 ^ 7)` of one of them count as equal
  (`Double.approxEq_of_near`);
* doubles do not count as equal if they differ by more than `1 / (9.5 * 10 ^ 6)` of the larger one
  and of one (`Double.approxEq_of_far`). So no integer counts as one of the constants with a name
  (`Double.isNamed_of_integer`).
-/

namespace SymbolicAlgebra

namespace Double

variable {v w : Double}

/-- The larger of two finite doubles stands for the larger number. -/
theorem larger_of_isFinite (hv : v.isFinite = true) (hw : w.isFinite = true) :
    (larger v w).isFinite = true ∧ (larger v w).value = max v.value w.value := by
  unfold larger
  split
  next below =>
    rw [lt_iff_value hv hw] at below
    exact ⟨hw, (max_eq_right below.le).symm⟩
  next above =>
    rw [lt_iff_value hv hw, not_lt] at above
    exact ⟨hv, (max_eq_left above).symm⟩

/-- Equal doubles stand for the same number. -/
theorem value_of_equals (h : w.equals v = true) : w.value = v.value := by
  unfold equals at h
  simp only [Bool.and_eq_true, Bool.or_eq_true, beq_iff_eq] at h
  obtain ⟨-, same | ⟨left, right⟩⟩ := h
  · rw [same]
  · rw [value_of_isZero left, value_of_isZero right]

/-- The largest doubles are far inside the range of what is rounded to a double. -/
theorem abs_value_lt (h : w.isFinite = true) : |w.value| + 2 ^ 60 < range := by
  obtain ⟨m, e, canonical, bits, value⟩ := value_eq h
  obtain ⟨below, lowest, full⟩ := canonical
  have top : e ≤ 971 := by
    unfold isFinite infinityBits at h
    rw [decide_eq_true_eq, bits, encode] at h
    simp only [Nat.pow_eq] at h
    omega
  have mantissa : (m : ℚ) ≤ 2 ^ 53 - 1 := by
    have : (m : ℚ) + 1 ≤ 2 ^ 53 := by exact_mod_cast below
    linarith
  have magnitude : |w.value| = m * 2 ^ e := value ▸ abs_signed (by positivity) _
  have unit : (2 : ℚ) ^ e ≤ 2 ^ (971 : ℤ) := zpow_le_zpow_right₀ one_le_two top
  have wide : (2 : ℚ) ^ (62 : ℤ) ≤ 2 ^ (971 : ℤ) :=
    zpow_le_zpow_right₀ one_le_two (show (62 : ℤ) ≤ 971 by decide)
  have positive : (0 : ℚ) < 2 ^ e := zpow_pos two_pos e
  have power : (2 : ℚ) ^ (62 : ℤ) = 2 ^ 62 := zpow_natCast 2 62
  rw [magnitude, range_eq]
  generalize (2 : ℚ) ^ (971 : ℤ) = u at unit wide
  rw [power] at wide
  -- the largest double is half a last bit below the range, which is far more than `2 ^ 60`
  calc m * 2 ^ e + 2 ^ 60 ≤ (2 ^ 53 - 1) * u + 2 ^ 60 := by gcongr
    _ < (2 ^ 53 - 1 / 2) * u := by linarith

/-- The relative and the absolute bound. -/
theorem bounds_spec : (9 / 10 ^ 8 : ℚ) ≤ (1e-7 : Double).value ∧
    (1e-7 : Double).value ≤ 101 / 10 ^ 9 ∧ epsilon.value ≤ 2 / 10 ^ 9 := by
  decide +kernel

variable [Tolerance]

/-- Doubles that are close enough count as equal, however their difference is rounded. -/
theorem approxEq_of_near (standard : Tolerance.relative = 1e-7) (hv : v.isFinite = true)
    (hw : w.isFinite = true) (least : 1 / 2 ^ 53 ≤ v.value) (most : v.value ≤ 2 ^ 53)
    (near : |w.value - v.value| * 30000000 ≤ v.value) : approxEq w v = true := by
  have wide := two_pow_lt_range
  have positive : 0 < v.value := lt_of_lt_of_le (by norm_num) least
  obtain ⟨low, high⟩ := abs_le.mp ((le_div_iff₀ (by norm_num)).mpr near)
  obtain ⟨bottom, top, -⟩ := bounds_spec
  -- the difference is at most twice what it is before rounding
  have difference : (w - v).IsNearest (w.value - v.value) :=
    sub_isNearest hw hv (by linarith)
  have distance : (w - v).abs.value ≤ 2 * |w.value - v.value| := by
    rw [value_abs]
    exact difference.abs_le
  -- and the bound is at least half of what it is before rounding
  obtain ⟨finite, value⟩ :=
    larger_of_isFinite ((isFinite_abs w).trans hw) ((isFinite_abs v).trans hv)
  rw [value_abs, value_abs] at value
  have above : v.value ≤ (larger w.abs v.abs).value := by
    rw [value]
    exact (le_abs_self _).trans (le_max_right _ _)
  have below : (larger w.abs v.abs).value ≤ 2 ^ 54 := by
    rw [value, max_le_iff, abs_le, abs_le]
    exact ⟨⟨by linarith, by linarith⟩, by linarith, by linarith⟩
  generalize hl : larger w.abs v.abs = l at finite above below
  have magnitude : |(1e-7 : Double).value * l.value| = (1e-7 : Double).value * l.value :=
    abs_of_nonneg (mul_nonneg (by linarith) (by linarith))
  have product_le : (1e-7 : Double).value * l.value ≤ l.value :=
    mul_le_of_le_one_left (by linarith) (by linarith)
  have le_product : 9 / 10 ^ 8 * v.value ≤ (1e-7 : Double).value * l.value :=
    mul_le_mul bottom above positive.le (by linarith)
  have bound : (1e-7 * l).IsNearest ((1e-7 : Double).value * l.value) :=
    mul_isNearest rfl finite (by linarith)
  have error := bound.error_of_pos (by linarith) (by linarith)
  rw [← le_div_iff₀ (by norm_num)] at error
  obtain ⟨error, -⟩ := abs_le.mp error
  have close : (w - v).abs < 1e-7 * l := by
    rw [lt_iff_value ((isFinite_abs _).trans difference.finite) bound.finite]
    linarith [abs_nonneg (w.value - v.value)]
  unfold approxEq
  rw [hw, hv, standard, hl]
  split
  · rfl
  · show (decide _ || decide ((w - v).abs < 1e-7 * l)) = true
    rw [decide_eq_true close, Bool.or_true]

/-- Doubles that are far enough apart do not count as equal. -/
theorem approxEq_of_far (standard : Tolerance.relative = 1e-7) (hv : v.isFinite = true)
    (hw : w.isFinite = true) (most : |v.value| ≤ 2 ^ 60)
    (absolute : 1 ≤ |w.value - v.value| * 9500000)
    (left : |w.value| ≤ |w.value - v.value| * 9500000)
    (right : |v.value| ≤ |w.value - v.value| * 9500000) : approxEq w v = false := by
  have small : |w.value - v.value| < range :=
    (abs_sub _ _).trans_lt (by linarith [abs_value_lt hw])
  have difference := sub_isNearest hw hv small
  have error := difference.error (by
    refine le_trans (zpow_le_zpow_right₀ one_le_two (by norm_num : (-1022 : ℤ) ≤ -30)) ?_
    norm_num
    linarith) small
  rw [← le_div_iff₀ (by norm_num)] at error
  obtain ⟨low, high⟩ := abs_le.mp error
  -- the rounded difference is nearly the exact one, and neither bound comes near to it
  have distance : |w.value - v.value| * (1 - 1 / 2 ^ 53) ≤ (w - v).abs.value := by
    rw [value_abs, le_abs]
    rcases abs_cases (w.value - v.value) with ⟨sign, -⟩ | ⟨sign, -⟩ <;> rw [sign] at low high ⊢
    · exact .inl (by linarith)
    · exact .inr (by linarith)
  have different : w.equals v = false := by
    rw [Bool.eq_false_iff]
    intro same
    rw [value_of_equals same, sub_self, abs_zero, zero_mul] at absolute
    exact absurd absolute (by norm_num)
  obtain ⟨finite, value⟩ :=
    larger_of_isFinite ((isFinite_abs w).trans hw) ((isFinite_abs v).trans hv)
  rw [value_abs, value_abs] at value
  have below : (larger w.abs v.abs).value ≤ |w.value - v.value| * 9500000 := by
    rw [value]
    exact max_le left right
  have nonneg : 0 ≤ (larger w.abs v.abs).value := by
    rw [value]
    exact (abs_nonneg _).trans (le_max_left _ _)
  generalize hl : larger w.abs v.abs = l at finite below nonneg
  obtain ⟨bottom, top, tiny⟩ := bounds_spec
  have product_le : (1e-7 : Double).value * l.value ≤ |w.value - v.value| * (96 / 100) := by
    calc (1e-7 : Double).value * l.value ≤ 101 / 10 ^ 9 * l.value := by gcongr
      _ ≤ |w.value - v.value| * (96 / 100) := by linarith
  have bound : (1e-7 * l).IsNearest ((1e-7 : Double).value * l.value) := by
    refine mul_isNearest rfl finite ?_
    rw [abs_of_nonneg (mul_nonneg (by linarith) nonneg)]
    linarith
  have distant := (isFinite_abs _).trans difference.finite
  have first : ¬(w - v).abs < epsilon := by
    rw [lt_iff_value distant rfl]
    linarith
  have second : ¬(w - v).abs < 1e-7 * l := by
    rw [lt_iff_value distant bound.finite, not_lt]
    exact bound.value_le distant (by linarith)
  unfold approxEq
  rw [different, hw, hv, standard, hl]
  show (decide ((w - v).abs < epsilon) || decide ((w - v).abs < 1e-7 * l)) = false
  rw [decide_eq_false first, decide_eq_false second]
  rfl

/-- What is below the zero bound counts as zero. -/
theorem approxEq_zero (hv : v.isFinite = true) (small : |v.value| < epsilon.value) :
    approxEq 0 v = true := by
  obtain ⟨finite, value⟩ := zero_spec
  have turned : |-v.value| = |v.value| := by simp
  have difference : (0 - v).IsNearest (-v.value) := by
    rw [← zero_sub, ← value]
    refine sub_isNearest finite hv ?_
    rw [value, zero_sub, turned]
    linarith [abs_value_lt hv]
  have close : (0 - v).abs < epsilon := by
    rw [lt_iff_value ((isFinite_abs _).trans difference.finite) rfl, value_abs,
      difference.eq_value ((isFinite_neg v).trans hv) (value_neg v), turned]
    exact small
  unfold approxEq
  rw [hv, finite]
  split
  · rfl
  · show (decide ((0 - v).abs < epsilon) || _) = true
    rw [decide_eq_true close, Bool.true_or]

/-- A constant between two integers does not count as equal to any. -/
theorem approxEq_of_between {c : Double} {n m : ℤ} (standard : Tolerance.relative = 1e-7)
    (hc : c.isFinite = true) (hv : v.isFinite = true) (value : v.value = n) (hm : 0 ≤ m)
    (hm' : m ≤ 3) (low : m + 1 / 10 ≤ c.value) (high : c.value ≤ m + 9 / 10) :
    approxEq v c = false := by
  have apart : 1 / 10 ≤ |(n : ℚ) - c.value| := by
    rw [le_abs]
    rcases le_or_gt n m with below | above
    · have below : (n : ℚ) ≤ m := by exact_mod_cast below
      exact .inr (by linarith)
    · have above : (m : ℚ) + 1 ≤ n := by exact_mod_cast above
      exact .inl (by linarith)
  have bottom : (0 : ℚ) ≤ m := by exact_mod_cast hm
  have top : (m : ℚ) ≤ 3 := by exact_mod_cast hm'
  have magnitude : |c.value| ≤ 4 := abs_le.mpr ⟨by linarith, by linarith⟩
  have triangle : |(n : ℚ)| ≤ |(n : ℚ) - c.value| + |c.value| := by
    simpa using abs_add_le ((n : ℚ) - c.value) c.value
  rw [← value] at apart triangle
  exact approxEq_of_far standard hc hv (by linarith) (by linarith) (by linarith) (by linarith)

/-- **No integer counts as a constant with a name.** -/
theorem isNamed_of_integer {n : ℤ} (standard : Tolerance.relative = 1e-7)
    (hv : v.isFinite = true) (value : v.value = n) : isNamed v = false := by
  have pi := approxEq_of_between (c := pi) (m := 3) standard rfl hv value
    (by norm_num) (by norm_num) (by decide +kernel) (by decide +kernel)
  have e := approxEq_of_between (c := e) (m := 2) standard rfl hv value
    (by norm_num) (by norm_num) (by decide +kernel) (by decide +kernel)
  have phi := approxEq_of_between (c := phi) (m := 1) standard (by decide +kernel) hv value
    (by norm_num) (by norm_num) (by decide +kernel) (by decide +kernel)
  unfold isNamed named
  simp only [List.any_cons, List.any_nil, pi, e, phi, Bool.or_false]

end Double

end SymbolicAlgebra
