import SymbolicAlgebra.Proofs.Exact.Order
import SymbolicAlgebra.Token.Lexer

/-!
# Quotients of any size

Exact arithmetic ends in a quotient of two integers, which may be of any size. What becomes of it
depends on the rational alone (`Scalar.ofQuotient_rounds_of_lt`, `Scalar.ofQuotient_of_range_le`):

* if it is narrow, it is the fraction in lowest terms;
* if it is not narrow, but within the range of doubles, it is the double nearest to it;
* beyond the range it fails, and this is the only failure.

A numeral is such a quotient, so one is read exactly if its value is within the range
(`Token.exactNumeral_ends`). Three hundred and eight digits in front of the point are never too
many, and digits behind it never are (`Token.exactNumeral_of_length`).
-/

namespace SymbolicAlgebra

/-! ## Quotients -/

/-- An integer that leaves room for half a unit is within the range. -/
theorem Double.natCast_lt_range {n : ℕ} (h : n + 2 ^ 970 < 2 ^ 1024) : (n : ℚ) < range := by
  unfold range
  rw [lt_sub_iff_add_lt]
  exact_mod_cast h

/-- Squares of narrow numbers are far within the range. -/
theorem Double.two_pow_lt_range : 2 ^ 106 < range := by
  have inside := natCast_lt_range (n := 2 ^ 106) (by decide +kernel)
  push_cast at inside
  exact inside

theorem Double.one_lt_range : 1 < range := (by norm_num : (1 : ℚ) < 2 ^ 106).trans two_pow_lt_range

/-- A quotient of integers is no larger than its numerator. -/
theorem abs_div_le_natAbs {b : ℤ} (a : ℤ) (hb : b ≠ 0) : |(a / b : ℚ)| ≤ a.natAbs := by
  have one : (1 : ℚ) ≤ |(b : ℚ)| := by exact_mod_cast Int.one_le_abs hb
  calc |(a / b : ℚ)| = |(a : ℚ)| / |(b : ℚ)| := abs_div _ _
    _ ≤ |(a : ℚ)| := div_le_self (abs_nonneg _) one
    _ = (a.natAbs : ℚ) := by rw [Nat.cast_natAbs, Int.cast_abs]

/-- A quotient by an integer is within the range if its numerator is. -/
theorem Double.abs_div_lt_range {a b : ℤ} (hb : b ≠ 0) (ha : a.natAbs + 2 ^ 970 < 2 ^ 1024) :
    |(a / b : ℚ)| < range :=
  (abs_div_le_natAbs a hb).trans_lt (natCast_lt_range ha)

/-- What is narrow is within the range. -/
theorem Narrow.lt_range {r : ℚ} (h : Narrow r) : |r| < Double.range := by
  have inside := Double.abs_div_lt_range (a := r.num) (Int.natCast_ne_zero.mpr r.den_ne_zero)
    ((Nat.add_le_add_right h.1 _).trans_lt (by decide +kernel))
  rwa [Int.cast_natCast, r.num_div_den] at inside

namespace Fraction

variable {f : Fraction} {r : ℚ}

/-- Within the range of doubles there is one that is nearest. -/
theorem toDouble_of_lt (inside : |f.toRat| < Double.range) :
    ∃ v, f.toDouble = .ok v ∧ v.IsNearest f.toRat := by
  have present := (Double.ratio?_eq_none_iff f.den_ne_zero).not.mpr (not_le.mpr inside)
  obtain ⟨v, found⟩ := Option.ne_none_iff_exists'.mp present
  refine ⟨v, ?_, Double.ratio?_isNearest f.den_ne_zero found⟩
  unfold toDouble
  rw [found]
  rfl

/-- Beyond the range there is no double. -/
theorem toDouble_of_range_le (outside : Double.range ≤ |f.toRat|) :
    f.toDouble = .error .tooWide := by
  unfold toDouble
  rw [(Double.ratio?_eq_none_iff f.den_ne_zero).mpr outside]
  rfl

/-- A fraction has no double only if it is out of range. -/
theorem toDouble_failsAs_range (f : Fraction) :
    f.toDouble.FailsAs fun e => e = .tooWide ∧ Double.range ≤ |f.toRat| := by
  rcases lt_or_ge |f.toRat| Double.range with inside | outside
  · obtain ⟨v, double, -⟩ := toDouble_of_lt inside
    exact .of_ok double
  · rw [toDouble_of_range_le outside]
    exact .throw ⟨rfl, outside⟩

end Fraction

namespace Scalar

variable {n d : ℤ}

/-- **Within the range of doubles a quotient is rounded, whatever its parts are.** -/
theorem ofQuotient_rounds_of_lt (h : d ≠ 0) (inside : |(n / d : ℚ)| < Double.range) :
    ∃ s, ofQuotient n d = .ok s ∧ s.Rounds (n / d) := by
  rw [← Fraction.toRat_ofRat (n / d)] at inside
  obtain ⟨v, double, -⟩ := Fraction.toDouble_of_lt inside
  exact ofQuotient_of_toDouble h double

/-- **Beyond the range of doubles there is no quotient**, and no infinity in its place. -/
theorem ofQuotient_of_range_le (h : d ≠ 0) (outside : Double.range ≤ |(n / d : ℚ)|) :
    ofQuotient n d = .error .tooWide := by
  have wide : ¬(Fraction.ofRat (n / d)).isNarrow = true := fun narrow =>
    not_le.mpr ((Fraction.isNarrow_ofRat _).mp narrow).lt_range outside
  rw [← Fraction.toRat_ofRat (n / d)] at outside
  unfold ofQuotient
  rw [dif_neg h, Fraction.lowest_eq_ofRat n h]
  simp only [if_neg wide, Fraction.toDouble_of_range_le outside]
  rfl

/-- A rational that is not narrow becomes its nearest double, and zero below the zero bound. -/
theorem Rounds.approx {s : Scalar} {r : ℚ} (h : s.Rounds r) (wide : ¬Narrow r) :
    ∃ v : Double, v.IsNearest r ∧
      s = .approx (if |v.value| < Double.epsilon.value then 0 else v) := by
  obtain ⟨v, double, rfl⟩ := h.2 wide
  have nearest := Fraction.toDouble_isNearest double
  rw [Fraction.toRat_ofRat] at nearest
  refine ⟨v, nearest, ?_⟩
  rw [ofDouble, Double.snap_eq nearest.finite]

end Scalar

/-! ## Numerals -/

namespace Token

variable {text : List Char} {whole fraction : ℕ}

/-- The number of decimal digits, and of those behind a point. -/
def decimalValue (whole fraction places : ℕ) : ℚ := whole + fraction / 10 ^ places

/-- **An exact numeral is read if its value is within the range of doubles**, and then it is
rounded; it fails beyond that. -/
theorem exactNumeral_ends (hw : Text.natOfDigits? (wholePart text) = some whole)
    (hf : Text.natOfDigits? (fractionPart text) = some fraction) :
    let value := decimalValue whole fraction (fractionPart text).length
    (value < Double.range → ∃ s, exactNumeral text = .ok s ∧ s.Rounds value) ∧
      (Double.range ≤ value → exactNumeral text = .error .tooWide) := by
  obtain ⟨den, hden⟩ : ∃ den, den = Nat.pow 10 (fractionPart text).length := ⟨_, rfl⟩
  have positive : 0 < den := hden ▸ Nat.pow_pos (by norm_num)
  -- a numeral is the quotient of all its digits by a power of ten
  have quotient : exactNumeral text =
      Scalar.ofQuotient ((whole * den + fraction : ℕ) : ℤ) (den : ℤ) := by
    unfold exactNumeral
    rw [hw, hf, hden]
  have value : decimalValue whole fraction (fractionPart text).length =
      (((whole * den + fraction : ℕ) : ℤ) / (den : ℤ) : ℚ) := by
    have cast : (den : ℚ) = 10 ^ (fractionPart text).length := by
      rw [hden]
      exact Nat.cast_pow 10 _
    have nonzero : (den : ℚ) ≠ 0 := Nat.cast_ne_zero.mpr positive.ne'
    rw [decimalValue, ← cast, Int.cast_natCast, Int.cast_natCast, Nat.cast_add, Nat.cast_mul,
      add_div, mul_div_cancel_right₀ _ nonzero]
  have nonnegative : 0 ≤ decimalValue whole fraction (fractionPart text).length := by
    unfold decimalValue
    positivity
  have nonzero : (den : ℤ) ≠ 0 := by omega
  dsimp only
  rw [quotient]
  constructor
  · intro inside
    rw [← abs_of_nonneg nonnegative] at inside
    rw [value] at inside ⊢
    exact Scalar.ofQuotient_rounds_of_lt nonzero inside
  · intro outside
    rw [← abs_of_nonneg nonnegative, value] at outside
    exact Scalar.ofQuotient_of_range_le nonzero outside

/-- The value of a digit is below ten, in any script. -/
theorem digitValue?_lt {c : Char} {n : ℕ} (h : Text.digitValue? c = some n) : n < 10 := by
  unfold Text.digitValue? at h
  obtain ⟨z, found, rfl⟩ := Option.map_eq_some_iff.mp h
  have bounds := List.find?_some found
  simp only [Bool.and_eq_true, decide_eq_true_eq] at bounds
  omega

/-- Digits spell a number below a power of ten. -/
theorem natOfDigits?_lt {s : List Char} {n : ℕ} (h : Text.natOfDigits? s = some n) :
    n < 10 ^ s.length := by
  unfold Text.natOfDigits? at h
  -- the fold is taken apart at the last digit
  induction s using List.reverseRecOn generalizing n with
  | nil =>
    obtain ⟨⟩ := h
    norm_num
  | append_singleton s c ih =>
    rw [List.foldl_append, List.foldl_cons, List.foldl_nil, Option.bind_eq_some_iff] at h
    obtain ⟨k, hk, last⟩ := h
    obtain ⟨d, hd, rfl⟩ := Option.map_eq_some_iff.mp last
    have rest := ih hk
    have digit := digitValue?_lt hd
    rw [List.length_append, List.length_singleton, Nat.pow_succ]
    omega

/-- **A numeral with at most `308` digits in front of its point is read**, however many follow. -/
theorem exactNumeral_of_length (hw : Text.natOfDigits? (wholePart text) = some whole)
    (hf : Text.natOfDigits? (fractionPart text) = some fraction)
    (short : (wholePart text).length ≤ 308) : ∃ s, exactNumeral text = .ok s := by
  have front : whole + 1 ≤ 10 ^ 308 :=
    (natOfDigits?_lt hw).trans_le (pow_le_pow_right₀ (by norm_num) short)
  have inside : ((whole + 1 : ℕ) : ℚ) < Double.range :=
    Double.natCast_lt_range ((Nat.add_le_add_right front _).trans_lt (by decide +kernel))
  have behind : (fraction : ℚ) / 10 ^ (fractionPart text).length < 1 := by
    rw [div_lt_one (by positivity)]
    exact_mod_cast natOfDigits?_lt hf
  rw [Nat.cast_add_one] at inside
  obtain ⟨s, read, -⟩ := (exactNumeral_ends hw hf).1 (by unfold decimalValue; linarith)
  exact ⟨s, read⟩

end Token

end SymbolicAlgebra
