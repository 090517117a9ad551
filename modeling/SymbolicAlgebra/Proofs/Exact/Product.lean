import SymbolicAlgebra.Proofs.Exact.Order

/-!
# Products in the range of doubles

The machine multiplies two numbers by their mantissas, adds the exponents, and rounds. This file
shows that no infinity comes out of it when the factors are well inside the range
(`Double.isFinite_mul`).

Only the exponent of the result decides that (`isFinite_ofFloat`), and a rough bound on it will do.
Rounding moves the digits of the mantissa to the right, and carries at most one into it, twice
over. So the exponent grows by no more than the number of digits, whatever the digits are.
-/

namespace SymbolicAlgebra

open Float.Model Float.Model.UnpackedFloat

namespace Double

variable {m : ℕ} {e : ℤ} {a b : Double}

/-- The number is finite, and no larger than one that a word holds. -/
def Fits : UnpackedFloat → Prop
  | .zero _ => True
  | .finite _ _ e _ => e ≤ 971
  | _ => False

/-! ## Rounding -/

/-- Digits only get lost. -/
theorem mantissa_shiftRight_le (em : ExtendedMantissa) (n : ℕ) :
    (em >>> n).mantissa ≤ em.mantissa := by
  show (n.repeat ExtendedMantissa.shiftRightOne em).mantissa ≤ em.mantissa
  induction n with
  | zero => exact le_rfl
  | succ n ih => exact (Nat.div_le_self _ 2).trans ih

theorem roundedMantissa_le (em : ExtendedMantissa) : em.roundedMantissa ≤ em.mantissa + 1 := by
  unfold ExtendedMantissa.roundedMantissa Accuracy.roundToNearestEven
  split <;> omega

/-- The mantissa is moved to the right until it is not too wide. -/
theorem exponent_shiftToTarget (m : ℕ) (e : ℤ) (a : Accuracy) :
    (shiftToTargetExponent Format.binary64 m e a).2 = max e (max (m.log2 + e - 52) (-1074)) := by
  have target : Format.binary64.targetExponent (totalExponent m e) =
      max (m.log2 + 1 + e - 53) (-1074) := rfl
  show e + ((Format.binary64.targetExponent (totalExponent m e) - e).toNat : ℤ) = _
  rw [target]
  omega

theorem log2_le_of_lt {k : ℕ} (h : m < 2 ^ (k + 1)) : m.log2 ≤ k := by
  rcases Nat.eq_zero_or_pos m with rfl | positive
  · exact Nat.zero_le _
  · exact Nat.lt_succ_iff.mp ((Nat.log2_lt positive.ne').mpr h)

/-- Twice the digits of a mantissa are rounded without leaving the range. -/
theorem fits_round (s : Sign) (below : m < 2 ^ 106) (small : e ≤ 400) :
    Fits (roundWithAccuracy Format.binary64 s m e .exact) := by
  set shifted := shiftToTargetExponent Format.binary64 m e .exact with shifted_eq
  have exponent : shifted.2 ≤ 453 := by
    have digits : m.log2 ≤ 105 := log2_le_of_lt below
    rw [shifted_eq, exponent_shiftToTarget]
    omega
  have mantissa : shifted.1.roundedMantissa.log2 ≤ 106 := by
    have kept : shifted.1.mantissa ≤ m := mantissa_shiftRight_le _ _
    have carried := roundedMantissa_le shifted.1
    exact log2_le_of_lt (by omega)
  -- the carry can make the mantissa too wide again, hence the second shift
  have final := exponent_shiftToTarget shifted.1.roundedMantissa shifted.2 .exact
  unfold roundWithAccuracy
  dsimp only
  rw [← shifted_eq]
  split
  · trivial
  · show (shiftToTargetExponent Format.binary64 _ _ .exact).2 ≤ 971
    rw [final]
    omega

/-! ## Words -/

/-- The exponent field of a number that fits is not full. -/
theorem unpackExponent_pack {f : UnpackedFloat} (h : Fits f) :
    (@unpackExponent Format.binary64 (UnpackedFloat.pack Format.binary64 f)).toNat < 2047 := by
  cases f with
  | notANumber => exact h.elim
  | infinity => exact h.elim
  | zero s =>
    rw [UnpackedFloat.pack, packedZero, unpackExponent_packComponents]
    decide
  | finite s m e hm =>
    have small : e ≤ 971 := h
    have fits : ¬2 ^ Format.binary64.exponentBits ≤
        (e + Format.binary64.exponentBias + Format.binary64.mantissaBitsWithoutImplicit).toNat + 1 := by
      show ¬2048 ≤ (e + 1023 + 52).toNat + 1
      omega
    unfold UnpackedFloat.pack
    dsimp only
    rw [if_neg fits]
    split
    · rw [unpackExponent_packComponents, BitVec.toNat_ofNat]
      show (e + 1023 + 52).toNat % 2048 < 2047
      omega
    · rw [unpackExponent_packComponents]
      decide

/-- A number that fits is a finite double. -/
theorem isFinite_ofFloat {f : UnpackedFloat} (h : Fits f) :
    (ofFloat (.ofModel (.pack f))).isFinite = true := by
  have finite : (⟨(Float.ofModel (.pack f)).toBits⟩ : Double).isFinite = true := by
    have field := (fields_eq ⟨(Float.ofModel (.pack f)).toBits⟩).1.symm.trans_lt
      (unpackExponent_pack h)
    unfold isFinite infinityBits
    simp only [Nat.pow_eq, decide_eq_true_eq]
    omega
  have number : (Float.ofModel (.pack f)).isNaN = false :=
    (isNaN_eq ⟨(Float.ofModel (.pack f)).toBits⟩).symm.trans (isNaN_eq_false finite)
  unfold ofFloat
  rw [number]
  exact finite

/-! ## Products -/

/-- The machine reads a number far inside the range by a small exponent, or as zero. -/
theorem unpack_of_lt (h : a.isFinite = true) (small : |a.value| < 2 ^ 200) :
    (∃ s, a.toFloat.toModel.unpack = .zero s) ∨ ∃ s m e hm,
      a.toFloat.toModel.unpack = .finite s m e hm ∧ m < 2 ^ 53 ∧ e ≤ 200 := by
  obtain ⟨m, e, canonical, value, unpacked⟩ := unpack_of_isFinite h
  rw [unpacked]
  split
  next positive =>
    refine .inr ⟨_, m, e, positive, rfl, canonical.below, ?_⟩
    have unit : (0 : ℚ) ≤ 2 ^ e := zpow_nonneg zero_le_two e
    have one_le : (1 : ℚ) ≤ m := by exact_mod_cast positive
    rw [value, abs_signed (mul_nonneg (zero_le_one.trans one_le) unit)] at small
    have power : (2 : ℚ) ^ e < 2 ^ (200 : ℤ) := (le_mul_of_one_le_left unit one_le).trans_lt small
    exact ((zpow_lt_zpow_iff_right₀ one_lt_two).mp power).le
  next => exact .inl ⟨_, rfl⟩

/-- The product of two numbers far inside the range of doubles is finite. -/
theorem isFinite_mul (ha : a.isFinite = true) (hb : b.isFinite = true)
    (small : |a.value| < 2 ^ 200) (small' : |b.value| < 2 ^ 200) : (a * b).isFinite = true := by
  have product : a * b = ofFloat (.ofModel (.pack
      (.mul Format.binary64 a.toFloat.toModel.unpack b.toFloat.toModel.unpack))) := by
    show lift _ a b = _
    unfold lift
    rw [isNaN_eq_false ha, isNaN_eq_false hb]
    rfl
  rw [product]
  refine isFinite_ofFloat ?_
  obtain ⟨s, left⟩ | ⟨s, m, e, hm, left, below, low⟩ := unpack_of_lt ha small <;>
    obtain ⟨t, right⟩ | ⟨t, n, k, hn, right, below', low'⟩ := unpack_of_lt hb small' <;>
    rw [left, right]
  -- where a factor is zero, the product is
  · trivial
  · trivial
  · trivial
  · have wide : m * n < 2 ^ 53 * 2 ^ 53 := Nat.mul_lt_mul'' below below'
    exact fits_round _ (wide.trans_eq (by norm_num)) (by omega)

end Double

end SymbolicAlgebra
