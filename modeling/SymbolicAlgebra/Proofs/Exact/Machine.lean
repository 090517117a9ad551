import SymbolicAlgebra.Proofs.Exact.Product
import SymbolicAlgebra.Proofs.Exact.Range

/-!
# The arithmetic of the machine

Products, quotients and differences of finite doubles are nearest to the exact results, as long as
these are in the range of doubles (`Double.mul_isNearest`, `Double.div_isNearest`,
`Double.sub_isNearest`).

The machine calculates with a mantissa and two more bits, which tell how far the exact result is
from it (`Represents`). A shift to the right keeps this, and rounding by these bits takes a nearest
integer, the even one of two. An exact quotient of integers is rounded to a nearest integer in the
same way, and there is only one. So the machine comes out at the double of the exact result as a
quotient (`ofFloat_round`), if its mantissa had enough digits to begin with.
-/

namespace SymbolicAlgebra

open Float.Model Float.Model.UnpackedFloat

namespace Double

variable {n d m : ℕ} {e : ℤ} {x y : ℚ} {a b : Double} {em : ExtendedMantissa}

/-! ## A mantissa with two more bits -/

/-- What the mantissa and the bits behind it tell about a number. -/
def Represents (em : ExtendedMantissa) (y : ℚ) : Prop :=
  match em.roundBit, em.stickyBit with
  | false, false => y = em.mantissa
  | false, true => em.mantissa < y ∧ y < em.mantissa + 1 / 2
  | true, false => y = em.mantissa + 1 / 2
  | true, true => em.mantissa + 1 / 2 < y ∧ y < em.mantissa + 1

/-- The mantissa is the number without what is behind its last bit. -/
theorem Represents.mem (h : Represents em y) : em.mantissa ≤ y ∧ y < em.mantissa + 1 := by
  unfold Represents at h
  split at h
  · exact ⟨by linarith, by linarith⟩
  · exact ⟨by linarith, by linarith⟩
  · exact ⟨by linarith, by linarith⟩
  · exact ⟨by linarith, by linarith⟩

/-- The bit that is shifted out becomes the first of the two. -/
theorem Represents.shiftRightOne (h : Represents em y) : Represents em.shiftRightOne (y / 2) := by
  obtain ⟨m, round, sticky⟩ := em
  have parts : (m : ℚ) = 2 * (m / 2 : ℕ) + (m % 2 : ℕ) := by
    exact_mod_cast (Nat.div_add_mod m 2).symm
  unfold ExtendedMantissa.shiftRightOne
  rcases Nat.mod_two_eq_zero_or_one m with bit | bit <;>
    rw [bit] at parts ⊢ <;>
    cases round <;> cases sticky <;>
    simp only [Represents, parts, Nat.cast_zero, Nat.cast_one] at h <;>
    simp [Represents] <;>
    first
      | linarith
      | exact ⟨by linarith, by linarith⟩

/-- Several bits are shifted out one by one. -/
theorem Represents.shiftRight (h : Represents em y) (k : ℕ) :
    Represents (em >>> k) (y / 2 ^ k) := by
  show Represents (k.repeat ExtendedMantissa.shiftRightOne em) _
  induction k with
  | zero =>
    rw [pow_zero, div_one]
    exact h
  | succ k ih =>
    rw [pow_succ, ← div_div]
    exact ih.shiftRightOne

/-- A remainder is compared with half of the divisor. -/
theorem represents_ofMantissaAndAccuracy (q : ℕ) {r d : ℕ} (h : r < d) :
    Represents (.ofMantissaAndAccuracy q (accuracyOfFraction r d)) (q + r / d) := by
  have positive : (0 : ℚ) < d := by exact_mod_cast (Nat.zero_le r).trans_lt h
  unfold accuracyOfFraction
  split
  next zero =>
    rw [zero, Nat.cast_zero, zero_div, add_zero]
    exact rfl
  next nonzero =>
    -- the rest of the division is told apart at the half, as the accuracy is
    rcases lt_trichotomy (2 * r) d with low | tie | high
    · have above : (0 : ℚ) < r / d :=
        div_pos (by exact_mod_cast Nat.pos_of_ne_zero nonzero) positive
      have below : (r / d : ℚ) < 1 / 2 := by
        rw [div_lt_div_iff₀ positive two_pos]
        exact_mod_cast (by omega : r * 2 < 1 * d)
      rw [compare_lt_iff_lt.mpr low]
      show (q : ℚ) < q + r / d ∧ (q + r / d : ℚ) < q + 1 / 2
      exact ⟨by linarith, by linarith⟩
    · have half : (r / d : ℚ) = 1 / 2 := by
        rw [div_eq_div_iff positive.ne' two_ne_zero]
        exact_mod_cast (by omega : r * 2 = 1 * d)
      rw [compare_eq_iff_eq.mpr tie, half]
      exact rfl
    · have above : (1 / 2 : ℚ) < r / d := by
        rw [div_lt_div_iff₀ two_pos positive]
        exact_mod_cast (by omega : 1 * d < r * 2)
      have below : (r / d : ℚ) < 1 := (div_lt_one positive).mpr (by exact_mod_cast h)
      rw [compare_gt_iff_gt.mpr high]
      show (q + 1 / 2 : ℚ) < q + r / d ∧ (q + r / d : ℚ) < q + 1
      exact ⟨by linarith, by linarith⟩

/-- An integer nearest to a number; of two, the even one. -/
structure IsRounded (k : ℕ) (y : ℚ) : Prop where
  near : |(k : ℚ) - y| ≤ 1 / 2
  even : |(k : ℚ) - y| = 1 / 2 → k % 2 = 0

theorem IsRounded.of_lt {k : ℕ} (h : |(k : ℚ) - y| < 1 / 2) : IsRounded k y :=
  ⟨h.le, fun tie => absurd tie h.ne⟩

/-- **Rounding by the two bits takes a nearest integer**, and the even one of two. -/
theorem Represents.isRounded (h : Represents em y) : IsRounded em.roundedMantissa y := by
  obtain ⟨m, round, sticky⟩ := em
  cases round <;> cases sticky <;> simp only [Represents] at h
  · refine .of_lt (k := m) ?_
    rw [h, sub_self, abs_zero]
    norm_num
  · exact .of_lt (k := m) (abs_lt.mpr ⟨by linarith, by linarith⟩)
  · have tie : |((m + m % 2 : ℕ) : ℚ) - y| = 1 / 2 := by
      rw [h, Nat.cast_add]
      rcases Nat.mod_two_eq_zero_or_one m with bit | bit <;> rw [bit] <;> norm_num [abs_of_neg]
    exact ⟨tie.le, fun _ => by show (m + m % 2) % 2 = 0; omega⟩
  · refine .of_lt (k := m + 1) ?_
    rw [Nat.cast_add_one]
    exact abs_lt.mpr ⟨by linarith, by linarith⟩

/-- There is only one such integer. -/
theorem IsRounded.unique {j k : ℕ} (hj : IsRounded j y) (hk : IsRounded k y) : j = k := by
  by_contra apart
  wlog less : j < k generalizing j k
  · exact this hk hj (Ne.symm apart) (by omega)
  -- the number would be in the middle, and both of two neighbours even
  have next : (j : ℚ) + 1 ≤ k := by exact_mod_cast less
  have left := (abs_le.mp hj.near).1
  have right := (abs_le.mp hk.near).2
  have middle : (j : ℚ) - y = -(1 / 2) ∧ (k : ℚ) - y = 1 / 2 := ⟨by linarith, by linarith⟩
  have evenj := hj.even (by rw [middle.1]; norm_num [abs_of_neg])
  have evenk := hk.even (by rw [middle.2]; norm_num)
  have step : (k : ℚ) = (j + 1 : ℕ) := by
    push_cast
    linarith
  have : k = j + 1 := by exact_mod_cast step
  omega

/-- The mantissa of a quotient is rounded to an integer, half to even. -/
theorem mantissa_isRounded (n : ℕ) (hd : 0 < d) :
    IsRounded (mantissa n d) (n / d / 2 ^ lastBit n d) :=
  ⟨(mantissa_near n hd).1, (mantissa_near n hd).2⟩

/-! ## Rounding -/

theorem mantissa_ofMantissaAndAccuracy (m : ℕ) (acc : Accuracy) :
    (ExtendedMantissa.ofMantissaAndAccuracy m acc).mantissa = m := by
  unfold ExtendedMantissa.ofMantissaAndAccuracy
  split <;> rfl

/-- The machine shifts to the exponent of the last bit of the quotient, if the mantissa has enough
digits for that. -/
theorem exponent_eq_lastBit (hn : 0 < n) (hd : 0 < d) {acc : Accuracy}
    (h : Represents (.ofMantissaAndAccuracy m acc) (n / d / 2 ^ e))
    (enough : 52 ≤ m.log2 ∨ e ≤ -1074) :
    (shiftToTargetExponent Format.binary64 m e acc).2 = lastBit n d := by
  have positive : (0 : ℚ) < n / d := by positivity
  have unit : (0 : ℚ) < 2 ^ e := zpow_pos two_pos e
  obtain ⟨low, high⟩ := h.mem
  rw [mantissa_ofMantissaAndAccuracy, le_div_iff₀ unit] at low
  rw [mantissa_ofMantissaAndAccuracy, div_lt_iff₀ unit] at high
  rw [exponent_shiftToTarget, lastBit_eq hn hd]
  -- without a mantissa the number lies below the last bit; with one, its logarithm is known
  rcases Nat.eq_zero_or_pos m with rfl | hm
  · rw [Nat.cast_zero, zero_add, one_mul, ← not_le, two_zpow_le_iff positive] at high
    rw [Nat.log2_zero] at enough ⊢
    omega
  · have least : (2 : ℚ) ^ ((m.log2 : ℤ) + e) ≤ n / d := by
      refine le_trans ?_ low
      rw [zpow_add₀ two_ne_zero, zpow_natCast]
      gcongr
      exact_mod_cast Nat.log2_self_le hm.ne'
    have most : (n / d : ℚ) < 2 ^ ((m.log2 : ℤ) + 1 + e) := by
      refine high.trans_le ?_
      rw [zpow_add₀ two_ne_zero, ← Nat.cast_succ, ← Nat.cast_succ, zpow_natCast]
      gcongr
      exact_mod_cast Nat.lt_log2_self (n := m)
    rw [two_zpow_le_iff positive] at least
    rw [← not_le, two_zpow_le_iff positive] at most
    omega

/-- The mantissa that is kept tells about the quotient in units of its last bit. -/
theorem represents_shiftToTarget {acc : Accuracy}
    (h : Represents (.ofMantissaAndAccuracy m acc) (x / 2 ^ e)) :
    Represents (shiftToTargetExponent Format.binary64 m e acc).1
      (x / 2 ^ (shiftToTargetExponent Format.binary64 m e acc).2) := by
  unfold shiftToTargetExponent shiftToExponent
  dsimp only
  rw [zpow_add₀ two_ne_zero, zpow_natCast, ← div_div]
  exact h.shiftRight _

/-- How far the machine shifts. -/
theorem shiftToTarget_eq {k : ℕ} (m : ℕ) (e : ℤ) (acc : Accuracy)
    (h : (max (m.log2 + 1 + e - 53) (-1074) - e).toNat = k) :
    shiftToTargetExponent Format.binary64 m e acc =
      (ExtendedMantissa.ofMantissaAndAccuracy m acc >>> k, e + k) := by
  rw [← h]
  rfl

/-- A mantissa that rounding has made too wide is shifted once more, which changes nothing but the
form. -/
theorem encode_shiftToTarget (most : m ≤ 2 ^ 53) (lowest : -1074 ≤ e)
    (full : e = -1074 ∨ 2 ^ 52 ≤ m) :
    Canonical (shiftToTargetExponent Format.binary64 m e .exact).1.mantissa
        (shiftToTargetExponent Format.binary64 m e .exact).2 ∧
      encode (shiftToTargetExponent Format.binary64 m e .exact).1.mantissa
        (shiftToTargetExponent Format.binary64 m e .exact).2 = encode m e := by
  rcases Nat.lt_or_eq_of_le most with below | rfl
  · -- rounding up may give `2 ^ 53`, which is the same double one exponent higher
    have digits : m.log2 ≤ 52 := log2_le_of_lt below
    rw [shiftToTarget_eq (k := 0) m e .exact (by omega), Nat.cast_zero, add_zero]
    exact ⟨⟨below, lowest, full⟩, rfl⟩
  · have digits : (2 ^ 53).log2 = 53 := Nat.log2_two_pow
    rw [shiftToTarget_eq (k := 1) _ e .exact (by rw [digits]; omega)]
    have half : (ExtendedMantissa.ofMantissaAndAccuracy (2 ^ 53) .exact >>> 1).mantissa = 2 ^ 52 :=
      by decide
    rw [half]
    refine ⟨⟨by norm_num, by omega, .inr le_rfl⟩, ?_⟩
    unfold encode
    simp only [Nat.pow_eq]
    omega

/-! ## Words -/

/-- The bits of a word are its fields. -/
theorem toNat_packComponents (s : Sign) (field : BitVec 11) (fraction : BitVec 52) :
    (packComponents Format.binary64 s field fraction).toNat =
      (if s == .negative then 2 ^ 63 else 0) + field.toNat * 2 ^ 52 + fraction.toNat := by
  have sign : s.toBitVec.toNat = if s == .negative then 1 else 0 := by cases s <;> rfl
  have high : (s.toBitVec ++ field).toNat = s.toBitVec.toNat * 2 ^ 11 + field.toNat := by
    rw [BitVec.toNat_append, ← Nat.shiftLeft_add_eq_or_of_lt field.isLt, Nat.shiftLeft_eq]
  show ((s.toBitVec ++ field) ++ fraction).toNat = _
  rw [BitVec.toNat_append, ← Nat.shiftLeft_add_eq_or_of_lt fraction.isLt, Nat.shiftLeft_eq]
  show (s.toBitVec ++ field).toNat * 2 ^ 52 + _ = _
  rw [high, sign]
  split <;> omega

/-- A number in canonical form is written down as it is. -/
theorem toNat_pack (s : Sign) (hm : 0 < m) (canonical : Canonical m e)
    (fits : encode m e < infinityBits) :
    (UnpackedFloat.pack Format.binary64 (.finite s m e hm)).toNat =
      (if s == .negative then 2 ^ 63 else 0) + encode m e := by
  obtain ⟨below, lowest, full⟩ := canonical
  unfold encode infinityBits at fits
  simp only [Nat.pow_eq] at fits
  have digits : m.log2 + 1 = 53 ↔ 2 ^ 52 ≤ m := by
    have := Nat.le_log2 (k := 52) hm.ne'
    have := log2_le_of_lt (k := 52) below
    omega
  have field : ¬2 ^ Format.binary64.exponentBits ≤
      (e + Format.binary64.exponentBias + Format.binary64.mantissaBitsWithoutImplicit).toNat + 1 := by
    show ¬2048 ≤ (e + 1023 + 52).toNat + 1
    omega
  unfold UnpackedFloat.pack
  dsimp only
  rw [if_neg field]
  -- the leading one of a normal number is the carry into the exponent field
  split
  next normal =>
    have := digits.mp normal
    rw [toNat_packComponents, BitVec.toNat_ofNat, BitVec.toNat_ofNat, encode, Nat.pow_eq,
      Nat.add_assoc, Nat.add_left_cancel_iff]
    show (e + 1023 + 52).toNat % 2048 * 2 ^ 52 + m % 2 ^ 52 = _
    omega
  next subnormal =>
    have := mt digits.mpr subnormal
    rw [toNat_packComponents, BitVec.toNat_ofNat, encode, Nat.pow_eq, Nat.add_assoc,
      Nat.add_left_cancel_iff]
    show 0 * 2 ^ 52 + m % 2 ^ 52 = _
    omega

/-- A number in canonical form is packed as its sign, its exponent and its mantissa. -/
theorem bits_pack (s : Sign) (hm : 0 < m) (canonical : Canonical m e)
    (fits : encode m e < infinityBits) :
    ofFloat (.ofModel (.pack (.finite s m e hm))) = signed (s == .negative) (encode m e) := by
  have word : (⟨(Float.ofModel (.pack (.finite s m e hm))).toBits⟩ : Double) =
      signed (s == .negative) (encode m e) := by
    have bits := toNat_pack s hm canonical fits
    have width : encode m e < 2 ^ 63 := fits.trans_le (by decide)
    unfold signed
    congr 1
    rw [← UInt64.toNat_inj, UInt64.toNat_ofNat']
    refine bits.trans ?_
    simp only [Nat.pow_eq]
    split <;> omega
  have number : (Float.ofModel (.pack (.finite s m e hm))).isNaN = false := by
    refine (isNaN_eq ⟨(Float.ofModel (.pack (.finite s m e hm))).toBits⟩).symm.trans ?_
    rw [word]
    exact isNaN_eq_false (isFinite_signed _ fits)
  unfold ofFloat
  rw [number]
  exact word

theorem bits_pack_zero (s : Sign) :
    ofFloat (.ofModel (.pack (.zero s))) = signed (s == .negative) 0 := by
  cases s <;> decide +kernel

/-- **The machine rounds to the double of the quotient.** -/
theorem bits_round {s : Sign} (hn : 0 < n) (hd : 0 < d) {acc : Accuracy}
    (h : Represents (.ofMantissaAndAccuracy m acc) (n / d / 2 ^ e))
    (enough : 52 ≤ m.log2 ∨ e ≤ -1074) (fits : quotientBits n d < infinityBits) :
    ofFloat (.ofModel (.pack (roundWithAccuracy Format.binary64 s m e acc))) =
      signed (s == .negative) (quotientBits n d) := by
  -- the exponent the model shifts to is the one of the last bit, so the mantissas are equal too
  have exponent := exponent_eq_lastBit hn hd h enough
  have kept := represents_shiftToTarget h
  rw [exponent] at kept
  have rounded := kept.isRounded.unique (mantissa_isRounded n hd)
  obtain ⟨canonical, bits⟩ :=
    encode_shiftToTarget (m := mantissa n d) (mantissa_le hn hd) (lastBit_ge n d)
      (mantissa_full hn hd)
  rw [← quotientBits_eq] at bits
  unfold roundWithAccuracy
  dsimp only
  rw [rounded, exponent]
  split
  next zero =>
    rw [zero] at canonical bits
    obtain low : _ = (-1074 : ℤ) := canonical.full.resolve_right (by omega)
    rw [← bits, low, bits_pack_zero]
    rfl
  next nonzero =>
    rw [← bits] at fits ⊢
    exact bits_pack s _ canonical fits

/-! ## Operations -/

/-- A number with a sign of the machine. -/
def withSign (s : Sign) (x : ℚ) : ℚ := if s == .negative then -x else x

/-- Signs multiply apart from magnitudes. -/
theorem withSign_mul (s t : Sign) (x y : ℚ) :
    withSign (s * t) (x * y) = withSign s x * withSign t y := by
  cases s <;> cases t
  · exact (neg_mul_neg x y).symm
  · exact (neg_mul x y).symm
  · exact (mul_neg x y).symm
  · rfl

/-- Signs divide apart from magnitudes. -/
theorem withSign_div (s t : Sign) (x y : ℚ) :
    withSign (s / t) (x / y) = withSign s x / withSign t y := by
  cases s <;> cases t
  · exact (neg_div_neg_eq x y).symm
  · exact (neg_div y x).symm
  · exact (div_neg x).symm
  · rfl

theorem abs_withSign {s : Sign} (h : 0 ≤ x) : |withSign s x| = x := abs_signed h _

/-- The bits of a quotient with a sign are those of a nearest double. -/
theorem signed_isNearest {s : Sign} (hn : 0 < n) (hd : 0 < d)
    (fits : quotientBits n d < infinityBits) :
    (signed (s == .negative) (quotientBits n d)).IsNearest (withSign s (n / d)) := by
  cases s with
  | positive => exact quotientBits_isNearest hn hd fits
  | negative =>
    have opposite := (quotientBits_isNearest hn hd fits).neg
    rwa [← signed_not false fits] at opposite

/-- **The machine rounds to a nearest double**, if its mantissa has enough digits and the number is
in the range of doubles. -/
theorem round_isNearest {s : Sign} {acc : Accuracy} (hx : 0 < x)
    (h : Represents (.ofMantissaAndAccuracy m acc) (x / 2 ^ e))
    (enough : 52 ≤ m.log2 ∨ e ≤ -1074) (small : x < range) :
    (ofFloat (.ofModel (.pack (roundWithAccuracy Format.binary64 s m e acc)))).IsNearest
      (withSign s x) := by
  have hn : 0 < x.num.natAbs := Int.natAbs_pos.mpr (Rat.num_pos.mpr hx).ne'
  have parts : x = x.num.natAbs / x.den := by
    rw [Nat.cast_natAbs, abs_of_pos (Rat.num_pos.mpr hx)]
    exact (Rat.num_div_den x).symm
  rw [parts] at h small ⊢
  have fits := (quotientBits_lt_iff hn x.den_pos).mpr small
  rw [bits_round hn x.den_pos h enough fits]
  exact signed_isNearest hn x.den_pos fits

/-- The zero of either sign is nearest to zero. -/
theorem zero_isNearest_zero (s : Sign) : (ofFloat (.ofModel (.pack (.zero s)))).IsNearest 0 := by
  rw [bits_pack_zero]
  cases s with
  | positive => exact zero_isNearest
  | negative =>
    have opposite := zero_isNearest.neg
    rwa [neg_zero, ← signed_not false (by decide)] at opposite

/-- A finite double as the machine reads it: zero, or a positive mantissa that is full unless the
exponent is the lowest. -/
theorem unpack_cases (h : a.isFinite = true) :
    (a.value = 0 ∧ a.toFloat.toModel.unpack = .zero a.machineSign) ∨
      ∃ m e hm, Canonical m e ∧ a.value = withSign a.machineSign (m * 2 ^ e) ∧
        a.toFloat.toModel.unpack = .finite a.machineSign m e hm := by
  obtain ⟨m, e, canonical, value, unpacked⟩ := unpack_of_isFinite h
  have sign : (a.machineSign == .negative) = a.isNegative := by
    unfold machineSign
    cases a.isNegative <;> rfl
  by_cases hm : 0 < m
  · rw [dif_pos hm] at unpacked
    exact .inr ⟨m, e, hm, canonical, by rw [value, withSign, sign], unpacked⟩
  · rw [dif_neg hm] at unpacked
    rw [Nat.eq_zero_of_not_pos hm, Nat.cast_zero, zero_mul, neg_zero, ite_self] at value
    exact .inl ⟨value, unpacked⟩

/-- What the machine does with two numbers. -/
theorem lift_eq {f : Float → Float → Float}
    {g : UnpackedFloat → UnpackedFloat → UnpackedFloat}
    (ha : a.isFinite = true) (hb : b.isFinite = true)
    (model : ∀ x y : Float, f x y = .ofModel (.pack (g x.toModel.unpack y.toModel.unpack))) :
    lift f a b =
      ofFloat (.ofModel (.pack (g a.toFloat.toModel.unpack b.toFloat.toModel.unpack))) := by
  unfold lift
  rw [isNaN_eq_false ha, isNaN_eq_false hb, model]
  rfl

/-- An exact mantissa represents itself. -/
theorem represents_exact (m : ℕ) (e : ℤ) :
    Represents (.ofMantissaAndAccuracy m .exact) (m * 2 ^ e / 2 ^ e) :=
  mul_div_cancel_right₀ _ (zpow_pos two_pos e).ne'

/-- **Products of finite doubles are nearest to the exact ones.** -/
theorem mul_isNearest (ha : a.isFinite = true) (hb : b.isFinite = true)
    (small : |a.value * b.value| < range) : (a * b).IsNearest (a.value * b.value) := by
  have product : a * b = _ := lift_eq (g := UnpackedFloat.mul Format.binary64) ha hb fun _ _ => rfl
  rw [product]
  obtain ⟨zero, left⟩ | ⟨m, e, hm, canonical, value, left⟩ := unpack_cases ha
  · rw [left, zero, zero_mul]
    obtain ⟨-, right⟩ | ⟨n, k, hn, -, -, right⟩ := unpack_cases hb <;> rw [right]
    · exact zero_isNearest_zero _
    · exact zero_isNearest_zero _
  · obtain ⟨zero, right⟩ | ⟨n, k, hn, canonical', value', right⟩ := unpack_cases hb
    · rw [left, right, zero, mul_zero]
      exact zero_isNearest_zero _
    · have number : (m * 2 ^ e * (n * 2 ^ k) : ℚ) = (m * n : ℕ) * 2 ^ (e + k) := by
        rw [zpow_add₀ two_ne_zero]
        push_cast
        ring
      have positive : (0 : ℚ) < (m * n : ℕ) * 2 ^ (e + k) := by positivity
      rw [value, value', ← withSign_mul, number] at small ⊢
      rw [abs_withSign positive.le] at small
      rw [left, right]
      refine round_isNearest positive (represents_exact _ _) ?_ small
      -- one full factor is enough, and without one the exponent is far too low
      have wide := Nat.le_log2 (k := 52) (Nat.mul_pos hm hn).ne'
      rcases canonical.full with low | full
      · rcases canonical'.full with low' | full
        · exact .inr (by omega)
        · exact .inl (wide.mpr (full.trans (Nat.le_mul_of_pos_left n hm)))
      · exact .inl (wide.mpr (full.trans (Nat.le_mul_of_pos_right m hn)))

/-- The quotient of the mantissas, the first one moved to the left, has enough digits. -/
theorem represents_divCore (hm : 0 < m) (hn : 0 < n) (e k : ℤ) :
    let core := divCore Format.binary64 m e n k
    Represents (.ofMantissaAndAccuracy core.1 core.2.2)
        (m * 2 ^ e / (n * 2 ^ k) / 2 ^ core.2.1) ∧
      (52 ≤ core.1.log2 ∨ core.2.1 ≤ -1074) := by
  obtain ⟨target, htarget⟩ : ∃ t : ℤ,
      t = min (e - k) (max ((m.log2 + 1 + e) - (n.log2 + 1 + k) - 53) (-1074)) := ⟨_, rfl⟩
  obtain ⟨shift, hshift⟩ : ∃ s : ℕ, s = (e - k - target).toNat := ⟨_, rfl⟩
  have core : divCore Format.binary64 m e n k =
      ((m <<< shift) / n, target, accuracyOfFraction ((m <<< shift) % n) n) := by
    rw [hshift, htarget]
    rfl
  intro core'
  rw [show core' = _ from core]
  rw [Nat.shiftLeft_eq]
  have hnq : (n : ℚ) ≠ 0 := Nat.cast_ne_zero.mpr hn.ne'
  -- what is left of the division is the accuracy, and the quotient has its 53 bits
  constructor
  · have split : ((m * 2 ^ shift : ℕ) : ℚ) / n =
        (m * 2 ^ shift / n : ℕ) + (m * 2 ^ shift % n : ℕ) / n := by
      rw [div_eq_iff hnq, add_mul, div_mul_cancel₀ _ hnq]
      exact_mod_cast (Nat.div_add_mod' (m * 2 ^ shift) n).symm
    have number : (m * 2 ^ e / (n * 2 ^ k) / 2 ^ target : ℚ) = ((m * 2 ^ shift : ℕ) : ℚ) / n := by
      have power : (2 : ℚ) ^ shift = 2 ^ e / 2 ^ k / 2 ^ target := by
        rw [← zpow_natCast, ← zpow_sub₀ two_ne_zero, ← zpow_sub₀ two_ne_zero]
        congr 1
        omega
      push_cast
      rw [power]
      ring
    rw [number, split]
    exact represents_ofMantissaAndAccuracy _ (Nat.mod_lt _ hn)
  · by_cases low : target ≤ -1074
    · exact .inr low
    · refine .inl ?_
      have most : n < 2 ^ (n.log2 + 1) := Nat.lt_log2_self
      have least : 2 ^ m.log2 ≤ m := Nat.log2_self_le hm.ne'
      have digits : n.log2 + 1 + 52 ≤ m.log2 + shift := by omega
      have reached : 2 ^ 52 * n ≤ m * 2 ^ shift := by
        calc 2 ^ 52 * n ≤ 2 ^ 52 * 2 ^ (n.log2 + 1) := Nat.mul_le_mul_left _ most.le
          _ = 2 ^ (n.log2 + 1 + 52) := by rw [Nat.mul_comm, ← pow_add]
          _ ≤ 2 ^ (m.log2 + shift) := Nat.pow_le_pow_right (by norm_num) digits
          _ = 2 ^ m.log2 * 2 ^ shift := pow_add ..
          _ ≤ m * 2 ^ shift := Nat.mul_le_mul_right _ least
      have quotient := (Nat.le_div_iff_mul_le hn).mpr reached
      exact (Nat.le_log2 (by omega)).mpr quotient

/-- **Quotients of finite doubles are nearest to the exact ones.** -/
theorem div_isNearest (ha : a.isFinite = true) (hb : b.isFinite = true) (nonzero : b.value ≠ 0)
    (small : |a.value / b.value| < range) : (a / b).IsNearest (a.value / b.value) := by
  have quotient : a / b = _ := lift_eq (g := UnpackedFloat.div Format.binary64) ha hb fun _ _ => rfl
  rw [quotient]
  obtain ⟨zero, -⟩ | ⟨n, k, hn, canonical', value', right⟩ := unpack_cases hb
  · exact absurd zero nonzero
  · obtain ⟨zero, left⟩ | ⟨m, e, hm, canonical, value, left⟩ := unpack_cases ha
    · rw [left, right, zero, zero_div]
      exact zero_isNearest_zero _
    · have positive : (0 : ℚ) < m * 2 ^ e / (n * 2 ^ k) := by positivity
      rw [value, value', ← withSign_div] at small ⊢
      rw [abs_withSign positive.le] at small
      rw [left, right]
      obtain ⟨represents, enough⟩ := represents_divCore hm hn e k
      exact round_isNearest positive represents enough small

/-- The reciprocal of a double that is not tiny. -/
theorem inv_isNearest (ha : a.isFinite = true) (least : 1 / 2 ^ 106 ≤ |a.value|) :
    (1 / a).IsNearest (1 / a.value) := by
  obtain ⟨finite, one, -⟩ := one_spec
  have positive : 0 < |a.value| := lt_of_lt_of_le (by norm_num) least
  have small : |(1 : Double).value / a.value| < range := by
    rw [one, abs_div, abs_one]
    calc 1 / |a.value| ≤ 2 ^ 106 := by
          rw [div_le_iff₀ positive]
          norm_num at least ⊢
          linarith
      _ < range := two_pow_lt_range
  have nearest := div_isNearest finite ha (abs_pos.mp positive) small
  rwa [one] at nearest

/-- A number that a double stands for is rounded to that double. -/
theorem isNearest_self (h : a.isFinite = true) : a.IsNearest a.value := by
  refine ⟨h, fun w _ => ?_, fun w _ apart tie => ?_⟩
  · rw [sub_self, abs_zero]
    exact abs_nonneg _
  · rw [sub_self, abs_zero, abs_eq_zero, sub_eq_zero] at tie
    exact absurd tie apart

/-- A mantissa with any exponent is moved to the left until it has enough digits. -/
theorem round_isNearest_exact {s : Sign} (hm : 0 < m) (small : (m * 2 ^ e : ℚ) < range) :
    (ofFloat (.ofModel (.pack (UnpackedFloat.round Format.binary64 s m e)))).IsNearest
      (withSign s (m * 2 ^ e)) := by
  obtain ⟨shift, hshift⟩ : ∃ k : ℕ, k = (e - max (m.log2 + 1 + e - 53) (-1074)).toNat := ⟨_, rfl⟩
  have rounded : UnpackedFloat.round Format.binary64 s m e =
      roundWithAccuracy Format.binary64 s (m <<< shift) (e - shift) .exact := by
    rw [hshift]
    rfl
  have number : (m * 2 ^ e : ℚ) = (m * 2 ^ shift : ℕ) * 2 ^ (e - shift) := by
    rw [zpow_sub₀ two_ne_zero, zpow_natCast]
    push_cast
    field_simp
  have least : m.log2 + shift ≤ (m * 2 ^ shift).log2 := by
    rw [Nat.le_log2 (Nat.mul_pos hm (Nat.two_pow_pos shift)).ne', pow_add]
    exact Nat.mul_le_mul_right _ (Nat.log2_self_le hm.ne')
  -- shifting left changes no digit, so the number is exact before it is rounded
  rw [rounded, Nat.shiftLeft_eq]
  rw [number] at small ⊢
  refine round_isNearest (by positivity) (represents_exact _ _) ?_ small
  omega

/-- A mantissa with a sign is rounded to a nearest double. -/
theorem normalize_isNearest {z : ℤ} (small : |(z * 2 ^ e : ℚ)| < range) :
    (ofFloat (.ofModel (.pack (UnpackedFloat.normalize Format.binary64 z e .positive)))).IsNearest
      (z * 2 ^ e) := by
  have unit : (0 : ℚ) < 2 ^ e := zpow_pos two_pos e
  rw [abs_mul, abs_of_pos unit] at small
  unfold UnpackedFloat.normalize
  -- a sum of doubles is brought to one exponent, where it is an integer of either sign
  rcases lt_trichotomy z 0 with negative | rfl | positive
  · obtain ⟨m, rfl⟩ : ∃ m : ℕ, z = -m := ⟨(-z).toNat, by omega⟩
    have hm : 0 < m := by omega
    rw [show |((-(m : ℤ) : ℤ) : ℚ)| = m by simp] at small
    rw [compare_lt_iff_lt.mpr negative, neg_neg, Int.toNat_natCast, Int.cast_neg, neg_mul]
    exact round_isNearest_exact hm small
  · rw [Int.cast_zero, zero_mul]
    exact zero_isNearest_zero _
  · obtain ⟨m, rfl⟩ := Int.eq_ofNat_of_zero_le positive.le
    have hm : 0 < m := by omega
    rw [Int.cast_natCast, Nat.abs_cast] at small
    rw [compare_gt_iff_gt.mpr positive, Int.toNat_natCast]
    exact round_isNearest_exact hm small

/-- A mantissa with a sign of the machine, as an integer with a lower exponent. -/
theorem apply_decreaseExponent (s : Sign) (m : ℕ) {e k : ℤ} (h : k ≤ e) :
    ((s.apply (decreaseExponent m e k).1 : ℤ) * 2 ^ k : ℚ) = withSign s (m * 2 ^ e) := by
  obtain ⟨j, rfl⟩ := Int.le.dest h
  have moved : (decreaseExponent m (k + j) k).1 = m * 2 ^ j := by
    rw [← Nat.shiftLeft_eq]
    show m <<< (k + j - k).toNat = _
    rw [add_sub_cancel_left, Int.toNat_natCast]
  have number : ((m * 2 ^ j : ℕ) : ℚ) * 2 ^ k = m * 2 ^ (k + j) := by
    rw [zpow_add₀ two_ne_zero, zpow_natCast]
    push_cast
    ring
  rw [moved, ← number]
  cases s with
  | positive => exact congrArg (· * _) (Int.cast_natCast _)
  | negative =>
    show ((-((m * 2 ^ j : ℕ) : ℤ) : ℤ) : ℚ) * 2 ^ k = -(((m * 2 ^ j : ℕ) : ℚ) * 2 ^ k)
    rw [Int.cast_neg, Int.cast_natCast, neg_mul]

/-- A number has one canonical form, so its bits are those that the double has. -/
theorem Canonical.fits (h : Canonical m e) (ha : a.isFinite = true) (value : |a.value| = m * 2 ^ e) :
    encode m e < infinityBits := by
  obtain ⟨n, k, canonical, bits, number⟩ := value_eq ha
  rw [number, abs_signed (by positivity)] at value
  have low := mt (h.lt_iff canonical).mpr (not_lt.mpr value.le)
  have high := mt (canonical.lt_iff h).mpr (not_lt.mpr value.ge)
  obtain ⟨rfl, rfl⟩ : e = k ∧ m = n := by omega
  rw [← bits]
  exact of_decide_eq_true ha

/-- A number in canonical form is not rounded. -/
theorem pack_isNearest {s : Sign} (hm : 0 < m) (canonical : Canonical m e)
    (fits : encode m e < infinityBits) :
    (ofFloat (.ofModel (.pack (.finite s m e hm)))).IsNearest (withSign s (m * 2 ^ e)) := by
  have value := value_signed (s == .negative) canonical.below.le canonical.lowest canonical.full fits
  have self := isNearest_self (isFinite_signed (s == .negative) fits)
  rw [bits_pack s hm canonical fits]
  rwa [value] at self

theorem withSign_neg (s : Sign) (x : ℚ) : withSign (-s) x = -withSign s x := by
  cases s
  · exact (neg_neg x).symm
  · rfl

/-- **Differences of finite doubles are nearest to the exact ones.** -/
theorem sub_isNearest (ha : a.isFinite = true) (hb : b.isFinite = true)
    (small : |a.value - b.value| < range) : (a - b).IsNearest (a.value - b.value) := by
  have difference : a - b = _ := lift_eq (g := UnpackedFloat.sub Format.binary64) ha hb fun _ _ => rfl
  rw [difference]
  obtain ⟨zero, left⟩ | ⟨m, e, hm, canonical, value, left⟩ := unpack_cases ha <;>
    obtain ⟨zero', right⟩ | ⟨n, k, hn, canonical', value', right⟩ := unpack_cases hb <;>
    rw [left, right]
  · -- with a zero operand the other one is returned, and a double is nearest to itself
    rw [zero, zero', sub_zero]
    unfold UnpackedFloat.sub
    dsimp only
    split <;> exact zero_isNearest_zero _
  · rw [zero, zero_sub, value', ← withSign_neg]
    refine pack_isNearest hn canonical' (canonical'.fits hb ?_)
    rw [value', abs_withSign (by positivity)]
  · rw [zero', sub_zero, value]
    refine pack_isNearest hm canonical (canonical.fits ha ?_)
    rw [value, abs_withSign (by positivity)]
  · have parts : a.value - b.value =
        ((a.machineSign.apply (decreaseExponent m e (min e k)).1 -
          b.machineSign.apply (decreaseExponent n k (min e k)).1 : ℤ) : ℚ) * 2 ^ min e k := by
      rw [Int.cast_sub, sub_mul, apply_decreaseExponent _ _ (min_le_left e k),
        apply_decreaseExponent _ _ (min_le_right e k), value, value']
    rw [parts] at small ⊢
    exact normalize_isNearest small

/-! ## How far a rounded number is off -/

variable {v w : Double}

/-- Rounding does not pass a double. -/
theorem IsNearest.le_value (h : v.IsNearest x) (finite : w.isFinite = true) (below : w.value ≤ x) :
    w.value ≤ v.value := by
  rcases below.lt_or_eq with less | same
  · exact (isNearest_self finite).le_of_lt h less
  · rw [h.eq_value finite same, same]

/-- Rounding up does not pass a double either. -/
theorem IsNearest.value_le (h : v.IsNearest x) (finite : w.isFinite = true) (above : x ≤ w.value) :
    v.value ≤ w.value := by
  rcases above.lt_or_eq with less | same
  · exact h.le_of_lt (isNearest_self finite) less
  · rw [h.eq_value finite same.symm, same]

/-- At most twice as large, as zero is a double too. -/
theorem IsNearest.abs_le (h : v.IsNearest x) : |v.value| ≤ 2 * |x| := by
  have near := h.le _ zero_isNearest.finite
  rw [value_zero, zero_sub] at near
  have opposite : |(-x)| = |x| := by simp
  have triangle : |v.value| ≤ |v.value - x| + |x| := by
    simpa using abs_add_le (v.value - x) x
  linarith

/-- Rounding moves a number by a small part of it, unless it is tiny. -/
theorem IsNearest.error (h : v.IsNearest x) (normal : 2 ^ (-1022 : ℤ) ≤ |x|) (small : |x| < range) :
    |v.value - x| * 2 ^ 53 ≤ |x| := by
  have den : (x.den : ℤ) ≠ 0 := Int.natCast_ne_zero.mpr x.den_ne_zero
  have parts : ((x.num : ℤ) / (x.den : ℤ) : ℚ) = x := by
    rw [Int.cast_natCast]
    exact x.num_div_den
  obtain ⟨w, found⟩ : ∃ w, ratio? x.num x.den = some w := by
    refine Option.ne_none_iff_exists'.mp fun none => ?_
    rw [ratio?_eq_none_iff den, parts] at none
    exact absurd small (not_lt.mpr none)
  have nearest := ratio?_isNearest den found
  have error := ratio?_error den found fun _ => by rwa [parts]
  rw [parts] at nearest error
  have least := h.le w nearest.finite
  linarith

/-- The same for a positive number of middle size. -/
theorem IsNearest.error_of_pos (h : v.IsNearest x) (least : 1 / 2 ^ 106 ≤ x)
    (most : x ≤ 2 ^ 106) : |v.value - x| * 2 ^ 53 ≤ x := by
  have positive : |x| = x := abs_of_nonneg (le_trans (by norm_num) least)
  have normal : (2 : ℚ) ^ (-1022 : ℤ) ≤ x := by
    calc (2 : ℚ) ^ (-1022 : ℤ) ≤ 2 ^ (-106 : ℤ) := zpow_le_zpow_right₀ one_le_two (by norm_num)
      _ = 1 / 2 ^ 106 := by norm_num
      _ ≤ x := least
  rw [← positive] at normal
  have error := h.error normal (by linarith [two_pow_lt_range])
  rwa [positive] at error

end Double

end SymbolicAlgebra
