import Mathlib
import SymbolicAlgebra.Proofs.Exact.Double

/-!
# Signs of doubles

To negate a double turns its sign bit over. This file follows that bit through the arithmetic
of the machine, as far as signs are concerned:

* a double below zero has the bit set (`isNegative_of_lt_zero`), so a number and its opposite
  are not both below zero, and NaN never is;
* the product with the opposite of a factor is the opposite of the product, or both are NaN
  (`mirrors_mul`).

The second one is a statement about rounding: it rests on the sign standing apart from mantissa
and exponent until the result is packed into a word (`pack_neg`).
-/

namespace SymbolicAlgebra

open Float.Model Float.Model.UnpackedFloat

namespace Double

/-! ## The sign bit of a word -/

/-- A word with its sign bit turned over. -/
abbrev turned (b : BitVec 64) : BitVec 64 := b ^^^ 0x8000000000000000#64

theorem getLsbD_signBit (i : ℕ) : (0x8000000000000000#64).getLsbD i = decide (i = 63) := by
  by_cases h : i < 64
  · interval_cases i <;> rfl
  · rw [BitVec.getLsbD_of_ge _ _ (by omega), decide_eq_false (by omega)]

/-- The mantissa does not see the sign bit. -/
theorem unpackMantissa_turned (b : BitVec 64) :
    @unpackMantissa Format.binary64 (turned b) =
      @unpackMantissa Format.binary64 b := by
  refine BitVec.eq_of_getElem_eq fun i hi => ?_
  have low : i ≠ 63 := by
    have : i < 52 := hi
    omega
  simp [unpackMantissa, getLsbD_signBit, low]

/-- The exponent does not see the sign bit. -/
theorem unpackExponent_turned (b : BitVec 64) :
    @unpackExponent Format.binary64 (turned b) =
      @unpackExponent Format.binary64 b := by
  refine BitVec.eq_of_getElem_eq fun i hi => ?_
  have low : 52 + i ≠ 63 := by
    have : i < 11 := hi
    omega
  simp [unpackExponent, getLsbD_signBit, low]

/-- The sign that is read is told by the sign bit. -/
theorem ofBitVec_unpackSign (b : BitVec 64) :
    Sign.ofBitVec (@unpackSign Format.binary64 b) =
      if b.getLsbD 63 then .negative else .positive := by
  have field : @unpackSign Format.binary64 b = BitVec.ofBool (b.getLsbD 63) := by
    refine BitVec.eq_of_getElem_eq fun i hi => ?_
    obtain rfl : i = 0 := by omega
    simp only [unpackSign, BitVec.extractLsb, BitVec.getElem_cast, BitVec.getElem_extractLsb',
      BitVec.getElem_ofBool]
  rw [field]
  cases b.getLsbD 63 <;> rfl

/-- Packing with the opposite sign turns the sign bit over. -/
theorem packComponents_neg (s : Sign) (e : BitVec 11) (m : BitVec 52) :
    packComponents Format.binary64 (-s) e m = turned (packComponents Format.binary64 s e m) := by
  have sign : (-s).toBitVec = s.toBitVec ^^^ 1#1 := by cases s <;> rfl
  have mask : 0x8000000000000000#64 = 1#1 ++ 0#11 ++ 0#52 := rfl
  unfold packComponents turned
  rw [sign, mask, BitVec.xor_append, BitVec.xor_append, BitVec.xor_zero, BitVec.xor_zero]

theorem signBit_packComponents (s : Sign) (e : BitVec 11) (m : BitVec 52) :
    (packComponents Format.binary64 s e m).getLsbD 63 = (s == .negative) := by
  simp only [packComponents, BitVec.getLsbD_append]
  cases s <;> rfl

/-- A word with its sign bit turned over holds the opposite number. -/
theorem unpack_turned (b : BitVec 64) :
    UnpackedFloat.unpack Format.binary64 (turned b) =
      (UnpackedFloat.unpack Format.binary64 b).neg := by
  have sign : Sign.ofBitVec (@unpackSign Format.binary64 (turned b)) =
      -Sign.ofBitVec (@unpackSign Format.binary64 b) := by
    rw [ofBitVec_unpackSign, ofBitVec_unpackSign, BitVec.getLsbD_xor]
    cases b.getLsbD 63 <;> rfl
  unfold UnpackedFloat.unpack
  simp only [unpackMantissa_turned, unpackExponent_turned, sign]
  split
  · split <;> rfl
  · split
    · split <;> rfl
    · rfl

/-- The opposite of a number is packed into the word with the sign bit turned over. -/
theorem pack_neg {f : UnpackedFloat} (h : f.isNaN = false) :
    UnpackedFloat.pack Format.binary64 f.neg = turned (UnpackedFloat.pack Format.binary64 f) := by
  cases f with
  | notANumber => cases h
  | infinity s => exact packComponents_neg s _ _
  | zero s => exact packComponents_neg s _ _
  | finite s m e hm =>
    unfold UnpackedFloat.neg UnpackedFloat.pack
    dsimp only
    split
    · exact packComponents_neg s _ _
    · split <;> exact packComponents_neg s _ _

/-! ## Below zero -/

/-- Whether the sign is the negative one; NaN has none. -/
def hasMinus : UnpackedFloat → Bool
  | .notANumber => false
  | .infinity s | .zero s | .finite s .. => s == .negative

/-- What is below zero has a minus sign. -/
theorem hasMinus_of_lt {f : UnpackedFloat} {s : Sign} (h : f.lt (.zero s) = true) :
    hasMinus f = true := by
  cases f with
  | notANumber => cases h
  | infinity t => cases t <;> first | rfl | cases h
  | zero t => cases h
  | finite t m e hm => cases t <;> first | rfl | cases h

/-- A word that holds a number with a minus sign has its sign bit set. -/
theorem signBit_of_hasMinus {b : BitVec 64}
    (h : hasMinus (UnpackedFloat.unpack Format.binary64 b) = true) : b.getLsbD 63 = true := by
  by_contra positive
  have sign : Sign.ofBitVec (@unpackSign Format.binary64 b) = .positive := by
    rw [ofBitVec_unpackSign, if_neg positive]
  unfold UnpackedFloat.unpack at h
  simp only [sign] at h
  split at h
  · split at h <;> cases h
  · split at h
    · split at h <;> cases h
    · cases h

/-- A sign bit is only packed for a minus sign. -/
theorem hasMinus_of_signBit {f : UnpackedFloat}
    (h : (UnpackedFloat.pack Format.binary64 f).getLsbD 63 = true) : hasMinus f = true := by
  cases f with
  | notANumber => cases h
  | infinity s => rwa [UnpackedFloat.pack, packedInfinity, signBit_packComponents] at h
  | zero s => rwa [UnpackedFloat.pack, packedZero, signBit_packComponents] at h
  | finite s m e hm =>
    unfold UnpackedFloat.pack at h
    dsimp only at h
    split at h
    · rwa [packedInfinity, signBit_packComponents] at h
    · split at h <;> rwa [signBit_packComponents] at h

variable {v x y : Double}

/-- What the machine calculates with is the word, unpacked, packed and unpacked again. -/
theorem unpack_toFloat (v : Double) :
    v.toFloat.toModel.unpack = UnpackedFloat.unpack Format.binary64
      (UnpackedFloat.pack Format.binary64
        (UnpackedFloat.unpack Format.binary64 v.bits.toBitVec)) := rfl

/-- The order of doubles is that of the numbers they hold. -/
theorem lt_iff (a b : Double) :
    a < b ↔ a.toFloat.toModel.unpack.lt b.toFloat.toModel.unpack = true := by
  show a.toFloat.lt b.toFloat ↔ _
  unfold Float.lt
  rw [decide_eq_true_iff]
  exact Iff.rfl

theorem lt_zero_iff (v : Double) :
    v < 0 ↔ v.toFloat.toModel.unpack.lt (.zero .positive) = true := lt_iff v 0

theorem isNegative_eq (v : Double) : v.isNegative = v.bits.toBitVec.getLsbD 63 := by
  rw [BitVec.getLsbD, Nat.testBit_eq_decide_div_mod_eq]
  rfl

/-- A double below zero has the sign bit set. -/
theorem isNegative_of_lt_zero (h : v < 0) : v.isNegative = true := by
  rw [isNegative_eq]
  -- the bit that the comparison sees was packed from the bit that was unpacked
  have packed := signBit_of_hasMinus (hasMinus_of_lt ((lt_zero_iff v).mp h))
  exact signBit_of_hasMinus (hasMinus_of_signBit packed)

/-- A double is undefined if the number that it holds is. -/
theorem isNaN_eq (v : Double) :
    v.isNaN = (UnpackedFloat.unpack Format.binary64 v.bits.toBitVec).isNaN := by
  have exponent : @unpackExponent Format.binary64 v.bits.toBitVec = -1#11 ↔
      v.bits.toNat / 2 ^ 52 % 2 ^ 11 = 2047 := by
    rw [← BitVec.toNat_inj, unpackExponent, BitVec.toNat_cast, BitVec.extractLsb_toNat,
      Nat.shiftRight_eq_div_pow]
    exact Iff.rfl
  have mantissa : @unpackMantissa Format.binary64 v.bits.toBitVec = 0#52 ↔
      v.bits.toNat % 2 ^ 52 = 0 := by
    rw [← BitVec.toNat_inj, unpackMantissa, BitVec.toNat_cast, BitVec.extractLsb_toNat]
    exact Iff.rfl
  have width := v.bits.toNat_lt
  unfold UnpackedFloat.unpack
  simp only [exponent, mantissa]
  unfold isNaN infinityBits magnitude
  simp only [Nat.pow_eq]
  split
  · split
    · exact decide_eq_false (by omega)
    · exact decide_eq_true (by omega)
  · rw [decide_eq_false (by omega)]
    split
    · split <;> rfl
    · rfl

/-- NaN is not below zero. -/
theorem not_lt_zero_of_isNaN (h : v.isNaN = true) : ¬ v < 0 := by
  rw [lt_zero_iff, unpack_toFloat]
  rw [isNaN_eq] at h
  cases hf : UnpackedFloat.unpack Format.binary64 v.bits.toBitVec with
  | notANumber => rintro ⟨⟩
  | _ =>
    rw [hf] at h
    cases h

/-- A negative sign is only given below zero. -/
theorem lt_zero_of_sign (h : v.sign < 0) : v < 0 := by
  unfold sign at h
  split at h
  · omega
  · split at h
    · assumption
    · omega

/-- A double below zero is not zero. -/
theorem isZero_of_lt_zero (h : v < 0) : v.isZero = false := by
  by_contra zero
  have magnitude : v.bits.toNat % 2 ^ 63 = 0 := beq_iff_eq.mp (Bool.eq_true_of_not_eq_false zero)
  have word : v.bits = 0 ∨ v.bits = 0x8000000000000000 := by
    have width := v.bits.toNat_lt
    rw [← UInt64.toNat_inj, ← UInt64.toNat_inj]
    show v.bits.toNat = 0 ∨ v.bits.toNat = 2 ^ 63
    omega
  rw [lt_zero_iff, unpack_toFloat] at h
  rcases word with word | word <;>
  · rw [word] at h
    cases h

/-! ## Opposite doubles -/

theorem bits_neg (v : Double) : (-v).bits.toBitVec = turned v.bits.toBitVec := rfl

@[simp] theorem isNegative_neg (v : Double) : (-v).isNegative = !v.isNegative := by
  rw [isNegative_eq, isNegative_eq, bits_neg, turned, BitVec.getLsbD_xor, getLsbD_signBit,
    decide_eq_true rfl, Bool.xor_true]

theorem magnitude_eq (v : Double) : v.magnitude = (v.bits.toBitVec.setWidth 63).toNat := by
  rw [BitVec.toNat_setWidth]
  rfl

@[simp] theorem magnitude_neg (v : Double) : (-v).magnitude = v.magnitude := by
  have mask : BitVec.setWidth 63 0x8000000000000000#64 = 0#63 := rfl
  rw [magnitude_eq, magnitude_eq, bits_neg, turned, BitVec.setWidth_xor, mask, BitVec.xor_zero]

@[simp] theorem isNaN_neg (v : Double) : (-v).isNaN = v.isNaN := by
  unfold isNaN
  rw [magnitude_neg]

@[simp] theorem isZero_neg (v : Double) : (-v).isZero = v.isZero := by
  unfold isZero
  rw [magnitude_neg]

/-- The opposite has the same absolute value. -/
@[simp] theorem abs_neg (v : Double) : (-v).abs = v.abs := by
  have bits : (v.bits ^^^ 0x8000000000000000) &&& 0x7fffffffffffffff =
      v.bits &&& 0x7fffffffffffffff := by
    rw [← UInt64.toNat_inj, UInt64.toNat_and, UInt64.toNat_xor, Nat.and_xor_distrib_right,
      UInt64.toNat_and]
    exact Nat.xor_zero _
  exact congrArg Double.mk bits

/-- Sign and magnitude make a double. -/
theorem eq_of_isNegative_of_magnitude (sign : x.isNegative = y.isNegative)
    (magnitude : x.magnitude = y.magnitude) : x = y := by
  have hx := x.bits.toNat_lt
  have hy := y.bits.toNat_lt
  unfold isNegative at sign
  unfold Double.magnitude at magnitude
  rw [Bool.eq_iff_iff, beq_iff_eq, beq_iff_eq] at sign
  simp only [Nat.pow_eq] at sign magnitude
  have bits : x.bits.toNat = y.bits.toNat := by omega
  rw [UInt64.toNat_inj] at bits
  cases x
  cases y
  exact congrArg Double.mk bits

/-- A finite magnitude with the other sign is the opposite double. -/
theorem signed_not (negative : Bool) {bits : ℕ} (h : bits < infinityBits) :
    signed (!negative) bits = -signed negative bits := by
  refine eq_of_isNegative_of_magnitude ?_ ?_
  · rw [isNegative_neg, isNegative_signed _ h, isNegative_signed _ h]
  · rw [magnitude_neg, magnitude_signed _ h, magnitude_signed _ h]

/-- The doubles are opposite, or both are NaN. -/
def Mirrors (x y : Double) : Prop := x = -y ∨ (x.isNaN = true ∧ y.isNaN = true)

/-- An undefined double is not zero. -/
theorem isZero_of_isNaN (h : v.isNaN = true) : v.isZero = false := by
  unfold isNaN infinityBits at h
  rw [decide_eq_true_iff] at h
  unfold isZero
  rw [beq_eq_false_iff_ne]
  omega

theorem Mirrors.isZero_eq (h : Mirrors x y) : x.isZero = y.isZero := by
  rcases h with rfl | ⟨hx, hy⟩
  · exact isZero_neg y
  · rw [isZero_of_isNaN hx, isZero_of_isNaN hy]

/-- Doubles that mirror each other are not both negative. -/
theorem Mirrors.not_both (h : Mirrors x y) : ¬(x.sign < 0 ∧ y.sign < 0) := by
  rintro ⟨hx, hy⟩
  rcases h with rfl | ⟨nan, -⟩
  · have minus := isNegative_of_lt_zero (lt_zero_of_sign hx)
    rw [isNegative_neg, isNegative_of_lt_zero (lt_zero_of_sign hy)] at minus
    cases minus
  · exact not_lt_zero_of_isNaN nan (lt_zero_of_sign hx)

/-- Rounding leaves the sign alone. -/
theorem roundWithAccuracy_neg (s : Sign) (m : ℕ) (e : ℤ) (a : Accuracy) :
    roundWithAccuracy Format.binary64 (-s) m e a =
      (roundWithAccuracy Format.binary64 s m e a).neg := by
  unfold roundWithAccuracy
  dsimp only
  split <;> rfl

/-- The opposite of a factor makes the opposite product. -/
theorem mul_neg_unpacked (f g : UnpackedFloat) :
    UnpackedFloat.mul Format.binary64 f.neg g = (UnpackedFloat.mul Format.binary64 f g).neg := by
  have sign (s t : Sign) : -s * t = -(s * t) := by
    cases s <;> cases t <;> rfl
  cases f <;> cases g <;>
    simp only [UnpackedFloat.neg, UnpackedFloat.mul, sign, roundWithAccuracy_neg]

/-- The opposite double holds the opposite number. -/
theorem unpack_toFloat_neg (v : Double) :
    (-v).toFloat.toModel.unpack = v.toFloat.toModel.unpack.neg := by
  rw [unpack_toFloat, unpack_toFloat, bits_neg, unpack_turned]
  cases hf : UnpackedFloat.unpack Format.binary64 v.bits.toBitVec with
  | notANumber => rfl
  | _ => rw [pack_neg rfl, unpack_turned]

theorem isNaN_neg_unpacked (f : UnpackedFloat) : f.neg.isNaN = f.isNaN := by
  cases f <;> rfl

/-- The double of the opposite number is the opposite double, unless there is none for either. -/
theorem ofFloat_neg (f : UnpackedFloat) :
    ofFloat (.ofModel (.pack f.neg)) = -ofFloat (.ofModel (.pack f)) ∨
      ofFloat (.ofModel (.pack f.neg)) = invalid ∧ ofFloat (.ofModel (.pack f)) = invalid := by
  cases h : f.isNaN with
  | true =>
    cases f with
    | notANumber => exact .inr ⟨rfl, rfl⟩
    | _ => cases h
  | false =>
    have nan : (Float.ofModel (.pack f.neg)).isNaN = (Float.ofModel (.pack f)).isNaN := by
      show (UnpackedFloat.unpack _ (UnpackedFloat.pack _ f.neg)).isNaN =
        (UnpackedFloat.unpack _ (UnpackedFloat.pack _ f)).isNaN
      rw [pack_neg h, unpack_turned, isNaN_neg_unpacked]
    unfold ofFloat
    rw [nan]
    split
    · exact .inr ⟨rfl, rfl⟩
    · refine .inl (congrArg Double.mk ?_)
      rw [← UInt64.toBitVec_inj]
      exact pack_neg h

/-- What is packed from opposite numbers mirrors each other. -/
theorem mirrors_ofFloat (f : UnpackedFloat) :
    Mirrors (ofFloat (.ofModel (.pack f.neg))) (ofFloat (.ofModel (.pack f))) := by
  refine (ofFloat_neg f).imp_right fun h => ?_
  rw [h.1, h.2]
  exact ⟨rfl, rfl⟩

/-- The product with the opposite of a factor. -/
theorem mirrors_mul (a b : Double) : Mirrors (-a * b) (a * b) := by
  show Mirrors (lift _ _ _) (lift _ _ _)
  unfold lift
  rw [isNaN_neg]
  split
  · exact .inl rfl
  · split
    next h => exact .inr ⟨h, h⟩
    next =>
      have product := mirrors_ofFloat
        (UnpackedFloat.mul Format.binary64 a.toFloat.toModel.unpack b.toFloat.toModel.unpack)
      rwa [← mul_neg_unpacked, ← unpack_toFloat_neg] at product

theorem mirrors_infinity (negative : Bool) : Mirrors (infinity (!negative)) (infinity negative) := by
  cases negative <;> exact .inl rfl

end Double

end SymbolicAlgebra
