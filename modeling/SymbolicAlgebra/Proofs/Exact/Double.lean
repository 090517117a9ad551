import Mathlib
import SymbolicAlgebra.Fraction

/-!
# The doubles of narrow fractions

Exact arithmetic looks at doubles in a few places only: to refuse a divisor, to see that a
number is finite, and to read an integer exponent back. This file proves what it relies on
there. A quotient of two integers up to `2 ^ 53` has a double, which is finite, is zero only
if the numerator is, and is the integer itself if the quotient is one.

The double depends on the quotient alone and not on how it is written (`quotientBits_mul`):
the exponent of its last bit is the binary logarithm of the quotient (`lastBit_eq`), and
rounding does not see a common factor. So the integer case reduces to denominator one, where
nothing is rounded at all.
-/

namespace SymbolicAlgebra

namespace Double

/-! ## Rounding -/

/-- A common factor does not change a rounded quotient. -/
theorem roundQuotient_mul (n d : Nat) {c : Nat} (hc : 0 < c) :
    roundQuotient (n * c) (d * c) = roundQuotient n d := by
  unfold roundQuotient
  rw [Nat.mul_div_mul_right n d hc, Nat.mul_mod_mul_right]
  have below : 2 * (n % d * c) < d * c ↔ 2 * (n % d) < d := by
    rw [← Nat.mul_assoc]
    exact Nat.mul_lt_mul_right hc
  have above : d * c < 2 * (n % d * c) ↔ d < 2 * (n % d) := by
    rw [← Nat.mul_assoc]
    exact Nat.mul_lt_mul_right hc
  simp only [below, above]

/-- An integer is rounded to itself. -/
theorem roundQuotient_one (n : Nat) : roundQuotient n 1 = n := by
  simp [roundQuotient, Nat.mod_one]

/-- Rounding does not go above an integer that the quotient does not pass. -/
theorem roundQuotient_le {n d b : Nat} (hd : 0 < d) (h : n ≤ b * d) : roundQuotient n d ≤ b := by
  have reached : n / d ≤ b := Nat.div_le_of_le_mul (by rw [Nat.mul_comm]; exact h)
  have split := Nat.div_add_mod n d
  unfold roundQuotient
  dsimp only
  by_cases full : n / d = b
  · -- the quotient is the bound itself, so nothing is left to round up
    have rest : n % d = 0 := by
      rw [full, Nat.mul_comm] at split
      omega
    rw [rest, full, if_pos (by omega)]
  · split_ifs <;> omega

/-! ## The exponent of the last bit -/

/-- The comparison that `lastBit` makes, as one of rationals. -/
theorem reaches_iff (e : Int) (n : Nat) {d : Nat} (hd : 0 < d) :
    (if 0 ≤ e then decide (d * Nat.pow 2 e.toNat ≤ n)
      else decide (d ≤ n * Nat.pow 2 (-e).toNat)) = true ↔ (2 : ℚ) ^ e ≤ n / d := by
  have hdq : (0 : ℚ) < d := by exact_mod_cast hd
  rw [le_div_iff₀ hdq]
  split
  next he =>
    obtain ⟨k, rfl⟩ := Int.eq_ofNat_of_zero_le he
    rw [decide_eq_true_eq, Int.toNat_natCast, zpow_natCast, mul_comm]
    exact_mod_cast Iff.rfl
  next he =>
    obtain ⟨k, hk⟩ : ∃ k : Nat, e = -(k : Int) := ⟨(-e).toNat, by omega⟩
    rw [hk, neg_neg, decide_eq_true_eq, Int.toNat_natCast, zpow_neg, zpow_natCast,
      ← div_eq_inv_mul, div_le_iff₀ (by positivity)]
    exact_mod_cast Iff.rfl

/-- The logarithms of numerator and denominator enclose that of the quotient. -/
theorem quotient_mem_log {n d : Nat} (hn : 0 < n) (hd : 0 < d) :
    (2 : ℚ) ^ ((n.log2 : Int) - d.log2 - 1) ≤ n / d ∧
      (n : ℚ) / d < 2 ^ ((n.log2 : Int) - d.log2 + 1) := by
  have hdq : (0 : ℚ) < d := by exact_mod_cast hd
  have two : (2 : ℚ) ≠ 0 := by norm_num
  have nlow : (2 : ℚ) ^ n.log2 ≤ n := by exact_mod_cast Nat.log2_self_le hn.ne'
  have nhigh : (n : ℚ) < 2 ^ (n.log2 + 1) := by exact_mod_cast Nat.lt_log2_self
  have dlow : (2 : ℚ) ^ d.log2 ≤ d := by exact_mod_cast Nat.log2_self_le hd.ne'
  have dhigh : (d : ℚ) < 2 ^ (d.log2 + 1) := by exact_mod_cast Nat.lt_log2_self
  constructor
  · have split : (2 : ℚ) ^ ((n.log2 : Int) - d.log2 - 1) = 2 ^ n.log2 / 2 ^ (d.log2 + 1) := by
      rw [sub_sub, zpow_sub₀ two]
      norm_cast
    rw [split, div_le_div_iff₀ (by positivity) hdq]
    exact mul_le_mul nlow dhigh.le hdq.le (by positivity)
  · have split : (2 : ℚ) ^ ((n.log2 : Int) - d.log2 + 1) = 2 ^ (n.log2 + 1) / 2 ^ d.log2 := by
      rw [sub_add_eq_add_sub, zpow_sub₀ two]
      norm_cast
    rw [split, div_lt_div_iff₀ hdq (by positivity)]
    exact mul_lt_mul nhigh dlow (by positivity) (by positivity)

/-- The powers of two up to a number are those up to its logarithm. -/
theorem two_zpow_le_iff {r : ℚ} (hr : 0 < r) {e : Int} : (2 : ℚ) ^ e ≤ r ↔ e ≤ Int.log 2 r := by
  rw [← Int.zpow_le_iff_le_log one_lt_two hr, Nat.cast_ofNat]

/-- The last bit stands fifty-two places below the leading bit of the quotient. -/
theorem lastBit_eq {n d : Nat} (hn : 0 < n) (hd : 0 < d) :
    lastBit n d = max (Int.log 2 ((n : ℚ) / d) - 52) (-1074) := by
  have pos : (0 : ℚ) < n / d := by positivity
  obtain ⟨low, high⟩ := quotient_mem_log hn hd
  have log_ge := (two_zpow_le_iff pos).mp low
  have log_lt := (not_congr (two_zpow_le_iff pos)).mp (not_le.mpr high)
  have reached := (reaches_iff ((n.log2 : Int) - d.log2) n hd).trans (two_zpow_le_iff pos)
  unfold lastBit
  dsimp only
  rw [if_congr reached rfl rfl]
  congr 1
  split <;> omega

/-- The bits of a double depend on the quotient alone. -/
theorem quotientBits_mul {n d c : Nat} (hn : 0 < n) (hd : 0 < d) (hc : 0 < c) :
    quotientBits (n * c) (d * c) = quotientBits n d := by
  have same : lastBit (n * c) (d * c) = lastBit n d := by
    have hcq : (c : ℚ) ≠ 0 := by exact_mod_cast hc.ne'
    rw [lastBit_eq (Nat.mul_pos hn hc) (Nat.mul_pos hd hc), lastBit_eq hn hd, Nat.cast_mul,
      Nat.cast_mul, mul_div_mul_right (n : ℚ) d hcq]
  unfold quotientBits
  dsimp only
  rw [same, Nat.mul_right_comm n c, Nat.mul_right_comm d c, roundQuotient_mul _ _ hc,
    roundQuotient_mul _ _ hc]

/-! ## Reading the bits back -/

/-- The magnitude that a double is made of. -/
theorem magnitude_signed (negative : Bool) {bits : Nat} (h : bits < infinityBits) :
    (signed negative bits).magnitude = bits := by
  simp only [infinityBits, Nat.pow_eq] at h
  unfold signed magnitude
  cases negative <;>
    simp only [UInt64.toNat_ofNat', Nat.pow_eq, Bool.false_eq_true, ↓reduceIte] <;> omega

/-- The sign that a double is made of. -/
theorem isNegative_signed (negative : Bool) {bits : Nat} (h : bits < infinityBits) :
    (signed negative bits).isNegative = negative := by
  simp only [infinityBits, Nat.pow_eq] at h
  unfold signed isNegative
  cases negative <;> simp only [UInt64.toNat_ofNat', Nat.pow_eq, Bool.false_eq_true, ↓reduceIte,
    beq_iff_eq, beq_eq_false_iff_ne] <;> omega

/-- A magnitude below the infinite one makes a finite double. -/
theorem isFinite_signed (negative : Bool) {bits : Nat} (h : bits < infinityBits) :
    (signed negative bits).isFinite = true := by
  unfold isFinite
  rw [magnitude_signed negative h]
  exact decide_eq_true h

theorem isZero_signed (negative : Bool) {bits : Nat} (h : bits < infinityBits) :
    (signed negative bits).isZero = (bits == 0) := by
  unfold isZero
  rw [magnitude_signed negative h]

/-- A finite double is no NaN. -/
theorem isNaN_eq_false {v : Double} (h : v.isFinite = true) : v.isNaN = false := by
  unfold isFinite at h
  unfold isNaN
  rw [decide_eq_true_eq] at h
  rw [decide_eq_false_iff_not]
  omega

/-- A finite double equals itself. -/
theorem equals_self {v : Double} (h : v.isFinite = true) : v.equals v = true := by
  simp [equals, isNaN_eq_false h]

/-! ## Narrow quotients -/

/-- The mantissa that `quotientBits` encodes. -/
theorem mantissa_le {n d : Nat} (hn : 0 < n) (hd : 0 < d) :
    (if 0 ≤ lastBit n d then roundQuotient n (d * Nat.pow 2 (lastBit n d).toNat)
      else roundQuotient (n * Nat.pow 2 (-lastBit n d).toNat) d) ≤ 2 ^ 53 := by
  have pos : (0 : ℚ) < n / d := by positivity
  have hdq : (0 : ℚ) < d := by exact_mod_cast hd
  have below : (n : ℚ) < 2 ^ (lastBit n d + 53) * d := by
    rw [← div_lt_iff₀ hdq, ← not_le, two_zpow_le_iff pos, lastBit_eq hn hd]
    omega
  rw [zpow_add₀ two_ne_zero] at below
  split
  next h =>
    obtain ⟨k, hk⟩ := Int.eq_ofNat_of_zero_le h
    rw [hk, zpow_natCast] at below
    rw [hk, Int.toNat_natCast, Nat.pow_eq]
    refine roundQuotient_le (by positivity) (le_of_lt ?_)
    have : (n : ℚ) < 2 ^ 53 * (d * 2 ^ k) := by linarith
    exact_mod_cast this
  next h =>
    obtain ⟨k, hk⟩ : ∃ k : Nat, lastBit n d = -(k : Int) := ⟨(-lastBit n d).toNat, by omega⟩
    rw [hk, zpow_neg, zpow_natCast, mul_assoc, ← div_eq_inv_mul, lt_div_iff₀ (by positivity)]
      at below
    rw [hk, neg_neg, Int.toNat_natCast, Nat.pow_eq]
    refine roundQuotient_le hd (le_of_lt ?_)
    exact_mod_cast below

/-- The bits of a quotient that is not too large are those of a finite double. -/
theorem quotientBits_lt {n d : Nat} (hn : 0 < n) (hd : 0 < d) (h : n < 2 ^ 200 * d) :
    quotientBits n d < infinityBits := by
  have pos : (0 : ℚ) < n / d := by positivity
  have high : Int.log 2 ((n : ℚ) / d) < 200 := by
    rw [← not_le, ← two_zpow_le_iff pos, not_le, div_lt_iff₀ (by positivity)]
    exact_mod_cast h
  have bit := lastBit_eq hn hd
  have mantissa := mantissa_le hn hd
  unfold quotientBits encode infinityBits
  simp only [Nat.pow_eq] at mantissa ⊢
  omega

/-- The bits of a narrow quotient other than zero are not those of zero. -/
theorem quotientBits_pos {n d : Nat} (hn : 0 < n) (hd : 0 < d) (hd' : d ≤ 2 ^ 53) :
    0 < quotientBits n d := by
  have pos : (0 : ℚ) < n / d := by positivity
  have low : -53 ≤ Int.log 2 ((n : ℚ) / d) := by
    rw [← two_zpow_le_iff pos, le_div_iff₀ (by positivity)]
    have one_le : (1 : ℚ) ≤ n := by exact_mod_cast hn
    have : (d : ℚ) ≤ 2 ^ 53 := by exact_mod_cast hd'
    norm_num
    linarith
  have bit := lastBit_eq hn hd
  unfold quotientBits encode
  simp only [Nat.pow_eq]
  omega

/-- The double of a quotient other than zero that is not too large, by its sign and bits. -/
theorem ratio?_eq_signed {n d : Int} (hn : n ≠ 0) (hd : d ≠ 0)
    (h : n.natAbs < 2 ^ 200 * d.natAbs) :
    quotientBits n.natAbs d.natAbs < infinityBits ∧
      ratio? n d = some (signed (decide (n < 0) != decide (d < 0))
        (quotientBits n.natAbs d.natAbs)) := by
  have hn0 : n.natAbs ≠ 0 := Int.natAbs_ne_zero.mpr hn
  have bits := quotientBits_lt (Nat.pos_of_ne_zero hn0) (Int.natAbs_pos.mpr hd) h
  refine ⟨bits, ?_⟩
  unfold ratio? quotient?
  rw [if_neg hn0]
  simp only [if_pos bits]

/-- A quotient that is not too large has a double, which is finite. -/
theorem ratio?_finite {n d : Int} (hd : d ≠ 0) (h : n.natAbs < 2 ^ 200 * d.natAbs) :
    ∃ v, ratio? n d = some v ∧ v.isFinite = true := by
  by_cases hn : n = 0
  · subst hn
    exact ⟨_, rfl, isFinite_signed _ (by decide)⟩
  · obtain ⟨bits, double⟩ := ratio?_eq_signed hn hd h
    exact ⟨_, double, isFinite_signed _ bits⟩

/-- A quotient of integers that are not too wide is far within the range of doubles. -/
theorem narrow_lt {n d : Int} (hd : d ≠ 0) (h : n.natAbs ≤ 2 ^ 107) :
    n.natAbs < 2 ^ 200 * d.natAbs := by
  have pos := Int.natAbs_pos.mpr hd
  have : 2 ^ 107 < 2 ^ 200 * d.natAbs :=
    (Nat.pow_lt_pow_right Nat.one_lt_two (by decide : 107 < 200)).trans_le
      (Nat.le_mul_of_pos_right _ pos)
  exact h.trans_lt this

/-- A narrow quotient has a double. It is finite, and zero only for numerator zero. -/
theorem ratio?_narrow {n d : Int} (hd : d ≠ 0) (hn' : n.natAbs ≤ 2 ^ 53)
    (hd' : d.natAbs ≤ 2 ^ 53) :
    ∃ v, ratio? n d = some v ∧ v.isFinite = true ∧ v.isZero = (n == 0) := by
  have small : n.natAbs < 2 ^ 200 * d.natAbs :=
    narrow_lt hd (hn'.trans (Nat.pow_le_pow_right (by norm_num) (by norm_num)))
  by_cases hn : n = 0
  · subst hn
    exact ⟨_, rfl, isFinite_signed _ (by decide), isZero_signed _ (by decide)⟩
  · obtain ⟨bits, double⟩ := ratio?_eq_signed hn hd small
    have positive := quotientBits_pos (Int.natAbs_pos.mpr hn) (Int.natAbs_pos.mpr hd) hd'
    refine ⟨_, double, isFinite_signed _ bits, ?_⟩
    rw [isZero_signed _ bits, beq_eq_false_iff_ne.mpr positive.ne', beq_eq_false_iff_ne.mpr hn]

/-- The sign of a product of integers other than zero. -/
theorem mul_neg_sign {a b : Int} (ha : a ≠ 0) (hb : b ≠ 0) :
    decide (a * b < 0) = (decide (a < 0) != decide (b < 0)) := by
  rcases lt_or_gt_of_ne ha with ha | ha <;> rcases lt_or_gt_of_ne hb with hb | hb <;>
    simp [mul_neg_iff, ha, hb, lt_asymm ha, lt_asymm hb]

/-- A common factor does not change the double of a quotient other than zero. -/
theorem ratio?_mul {n d c : Int} (hn : n ≠ 0) (hd : d ≠ 0) (hc : c ≠ 0) :
    ratio? (n * c) (d * c) = ratio? n d := by
  have sign : (decide (n * c < 0) != decide (d * c < 0)) = (decide (n < 0) != decide (d < 0)) := by
    rw [mul_neg_sign hn hc, mul_neg_sign hd hc]
    cases decide (n < 0) <;> cases decide (d < 0) <;> cases decide (c < 0) <;> rfl
  have hn0 : n.natAbs ≠ 0 := Int.natAbs_ne_zero.mpr hn
  have hnc : n.natAbs * c.natAbs ≠ 0 := Nat.mul_ne_zero hn0 (Int.natAbs_ne_zero.mpr hc)
  unfold ratio? quotient?
  rw [sign, Int.natAbs_mul, Int.natAbs_mul, if_neg hn0, if_neg hnc,
    quotientBits_mul (Nat.pos_of_ne_zero hn0) (Int.natAbs_pos.mpr hd) (Int.natAbs_pos.mpr hc)]

/-! ## Integers -/

/-- The bits of a full mantissa are read back as that mantissa. -/
theorem content_encode (negative : Bool) {m : Nat} {e : Int} (hm : 2 ^ 52 ≤ m) (hm' : m < 2 ^ 53)
    (he : -1074 ≤ e) (he' : e ≤ 971) :
    (signed negative (encode m e)).content = .finite negative m e := by
  have small : encode m e < infinityBits := by
    unfold encode infinityBits
    simp only [Nat.pow_eq]
    omega
  have field : encode m e / Nat.pow 2 52 = (e + 1075).toNat := by
    unfold encode
    simp only [Nat.pow_eq]
    omega
  have fraction : encode m e % Nat.pow 2 52 = m - 2 ^ 52 := by
    unfold encode
    simp only [Nat.pow_eq]
    omega
  unfold content
  simp only [isNegative_signed negative small, magnitude_signed negative small, field, fraction]
  rw [if_neg (by omega), if_neg (by omega), Nat.pow_eq, Nat.add_sub_cancel' hm,
    Int.toNat_of_nonneg (by omega), add_sub_cancel_right]

/-- A full mantissa holds an integer by its leading bits, and nothing is left to round. -/
theorem toInt_of_content {v : Double} {negative : Bool} {k e : Nat}
    (h : v.content = .finite negative (k * 2 ^ e) (-(e : Int))) :
    v.toInt = (if negative then -(k : Int) else k) ∧ v.roundEven = v.toInt := by
  have whole : roundQuotient (k * 2 ^ e) (2 ^ e) = k := by
    have factor := roundQuotient_mul k 1 (c := 2 ^ e) (by positivity)
    rwa [one_mul, roundQuotient_one] at factor
  unfold roundEven toInt
  rw [h]
  unfold scale
  by_cases he : e = 0
  · subst he
    simp [roundQuotient_one]
  · have negExp : ¬ 0 ≤ -(e : Int) := by omega
    simp only [if_neg negExp, neg_neg, Int.toNat_natCast, Nat.pow_eq]
    rw [Nat.mul_div_cancel k (by positivity), whole]
    exact ⟨rfl, rfl⟩

/-- Moved to the front, the digits of an integer fill a mantissa. -/
theorem shifted_mem {k : Nat} (hk : 0 < k) (top : k.log2 ≤ 52) :
    2 ^ 52 ≤ k * 2 ^ (52 - k.log2) ∧ k * 2 ^ (52 - k.log2) < 2 ^ 53 := by
  have low : 2 ^ k.log2 * 2 ^ (52 - k.log2) = 2 ^ 52 := by
    rw [← pow_add, Nat.add_sub_cancel' top]
  have high : 2 ^ (k.log2 + 1) * 2 ^ (52 - k.log2) = 2 ^ 53 := by
    rw [← pow_add, Nat.add_right_comm, Nat.add_sub_cancel' top]
  constructor
  · rw [← low]
    exact Nat.mul_le_mul_right _ (Nat.log2_self_le hk.ne')
  · rw [← high]
    exact Nat.mul_lt_mul_of_pos_right Nat.lt_log2_self (by positivity)

/-- The bits of an integer below `2 ^ 53`: its digits fill the mantissa from the front. -/
theorem quotientBits_nat {k : Nat} (hk : 0 < k) (top : k.log2 ≤ 52) :
    quotientBits k 1 = encode (k * 2 ^ (52 - k.log2)) (-((52 - k.log2 : Nat) : Int)) := by
  have bit : lastBit k 1 = -((52 - k.log2 : Nat) : Int) := by
    rw [lastBit_eq hk one_pos, Nat.cast_one, div_one, Int.log_natCast, ← Nat.log2_eq_log_two]
    omega
  unfold quotientBits
  simp only [bit, neg_neg, Int.toNat_natCast]
  split
  next h =>
    have full : 52 - k.log2 = 0 := by omega
    rw [full]
    simp [roundQuotient_one]
  next h => rw [roundQuotient_one, Nat.pow_eq]

/-- The double of a narrow integer is that integer. -/
theorem toInt_ratio? {k : Int} (hk : k.natAbs ≤ 2 ^ 53) :
    ∃ v, ratio? k 1 = some v ∧ v.toInt = k ∧ v.roundEven = k := by
  rcases Nat.eq_or_lt_of_le hk with wide | hk'
  · -- the widest integer carries into the exponent
    rcases Int.natAbs_eq k with h | h
    · exact ⟨signed false (encode (2 ^ 53) 0), by rw [h, wide]; decide +kernel,
        by rw [h, wide]; decide +kernel⟩
    · exact ⟨signed true (encode (2 ^ 53) 0), by rw [h, wide]; decide +kernel,
        by rw [h, wide]; decide +kernel⟩
  · by_cases hk0 : k = 0
    · exact ⟨signed false 0, by rw [hk0]; decide +kernel, by rw [hk0]; decide +kernel⟩
    · have pos : 0 < k.natAbs := Int.natAbs_pos.mpr hk0
      have small : k.natAbs < 2 ^ 200 * (1 : Int).natAbs :=
        narrow_lt one_ne_zero (hk.trans (Nat.pow_le_pow_right (by norm_num) (by norm_num)))
      have top : k.natAbs.log2 ≤ 52 := by
        have := (Nat.log2_lt pos.ne').mpr hk'
        omega
      obtain ⟨low, high⟩ := shifted_mem pos top
      refine ⟨signed (decide (k < 0)) (quotientBits k.natAbs 1), ?_, ?_⟩
      · simpa using (ratio?_eq_signed hk0 one_ne_zero small).2
      · obtain ⟨int, round⟩ := toInt_of_content
          (content_encode (decide (k < 0)) low high (by omega) (by omega))
        rw [quotientBits_nat pos top, round, int]
        simp only [decide_eq_true_eq]
        split <;> omega

end Double

end SymbolicAlgebra
