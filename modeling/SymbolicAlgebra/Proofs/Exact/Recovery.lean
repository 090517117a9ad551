import SymbolicAlgebra.Proofs.Exact.Closeness
import SymbolicAlgebra.Proofs.Exact.Expansion
import SymbolicAlgebra.Proofs.Exact.Rational

/-!
# Fractions recovered from their doubles

The expansion of the double of a fraction stops at the first convergent that counts as equal to the
double. So the fraction comes back only if no simpler one counts as equal, which is what
`StandsAlone` says, and this is enough (`Scalar.recover?_of_standsAlone`).

The expansion runs on doubles, and its steps are followed beside those of Euclid's algorithm on the
parts of the fraction (`Scalar.Convergents.Approaches`): the rest stands for the quotient of two
integers, up to an error that grows by a small amount in each step. The error stays below what one
of the integers is worth, because the parts of a fraction that stands alone are small
(`StandsAlone.mul_le`). Every step halves the product of the two integers, so the bound on the number
of steps is enough.

Integers stand alone (`standsAlone_of_integer`), and fractions with parts up to 3000 do
(`standsAlone_of_small`).
-/

namespace SymbolicAlgebra

/-! ## The double of a rational -/

namespace Fraction

variable {r : ℚ} {v : Double}

theorem toDouble_ofRat_isNearest (double : (ofRat r).toDouble = .ok v) : v.IsNearest r := by
  have nearest := toDouble_isNearest double
  rwa [toRat_ofRat] at nearest

/-- The double of a positive narrow rational is off by a small part of it. -/
theorem toDouble_ofRat_error (hr : 0 < r) (narrow : Narrow r)
    (double : (ofRat r).toDouble = .ok v) : |v.value - r| * 2 ^ 53 ≤ r := by
  have error := toDouble_error ((isNarrow_ofRat r).mpr narrow) double
  rwa [toRat_ofRat, abs_of_pos hr] at error

end Fraction

/-- The double of a positive narrow rational. -/
theorem value_mem {r : ℚ} {v : Double} (hr : 0 < r) (narrow : Narrow r)
    (double : (Fraction.ofRat r).toDouble = .ok v) :
    1 / 2 ^ 53 ≤ v.value ∧ v.value ≤ 2 ^ 53 := by
  have nearest := Fraction.toDouble_ofRat_isNearest double
  have least : (⟨0x3ca0000000000000⟩ : Double).value = 1 / 2 ^ 53 := by decide +kernel
  have most : (⟨0x4340000000000000⟩ : Double).value = 2 ^ 53 := by decide +kernel
  have num : 0 < r.num := Rat.num_pos.mpr hr
  have one_le : (1 : ℚ) ≤ r.num := by exact_mod_cast num
  have top : (r.num : ℚ) ≤ 2 ^ 53 := by
    have := narrow.1
    exact_mod_cast (by omega : r.num ≤ 2 ^ 53)
  have bottom : (r.den : ℚ) ≤ 2 ^ 53 := by exact_mod_cast narrow.2
  have den : (1 : ℚ) ≤ r.den := by exact_mod_cast r.den_pos
  -- both ends are doubles themselves, so rounding does not leave the interval
  rw [← least, ← most]
  constructor
  · refine nearest.le_value rfl ?_
    rw [least, ← r.num_div_den]
    exact div_le_div₀ (by linarith) one_le (by linarith) bottom
  · refine nearest.value_le (by decide +kernel) ?_
    rw [most, ← r.num_div_den]
    exact (div_le_self (by linarith) den).trans top

/-- That of an integer stands for it. -/
theorem value_of_integer {r : ℚ} {v : Double} (hr : 0 < r) (narrow : Narrow r)
    (integer : r.den = 1) (double : (Fraction.ofRat r).toDouble = .ok v) : v.value = r := by
  have nearest := Fraction.toDouble_ofRat_isNearest double
  have whole : (r.num : ℚ) = r := (Rat.den_eq_one_iff r).mp integer
  rcases narrow.1.lt_or_eq with below | top
  · obtain ⟨finite, value⟩ := Double.value_ofInt below
    exact nearest.eq_value finite (value.trans whole)
  · have num : r.num = 2 ^ 53 := by
      have := Rat.num_pos.mpr hr
      omega
    rw [num] at whole
    refine nearest.eq_value (w := ⟨0x4340000000000000⟩) rfl ?_
    rw [← whole]
    decide +kernel

/-! ## Fractions that no simpler one comes close to -/

/-- No fraction with a smaller denominator counts as equal to the double. -/
def StandsAlone [Tolerance] (r : ℚ) (v : Double) : Prop :=
  ∀ f : Fraction, f.den.natAbs < r.den → ∀ w, f.toDouble = .ok w → Double.approxEq w v = false

/-- A fraction in lowest terms has a neighbour with a smaller denominator, which is at least half
as large. -/
theorem exists_neighbour {n d : ℕ} (coprime : n.Coprime d) (hd : 1 < d) :
    ∃ h k : ℕ, 0 < k ∧ k < d ∧ d ≤ 2 * k ∧ (n * k = h * d + 1 ∨ h * d = n * k + 1) := by
  obtain ⟨k, below, product⟩ := Nat.exists_mul_mod_eq_one_of_coprime coprime hd
  have parts := Nat.div_add_mod' (n * k) d
  rw [product] at parts
  have positive : 0 < k := by
    refine Nat.pos_of_ne_zero fun zero => ?_
    rw [zero, Nat.mul_zero, Nat.zero_mod] at product
    omega
  by_cases half : d ≤ 2 * k
  · exact ⟨n * k / d, k, positive, below, half, .inl parts.symm⟩
  · -- the neighbour on the other side has the other denominator
    refine ⟨n - n * k / d, d - k, by omega, by omega, by omega, .inr ?_⟩
    rw [Nat.sub_mul, Nat.mul_sub]
    have : n * k ≤ n * d := Nat.mul_le_mul_left n below.le
    have : n * k / d * d ≤ n * k := Nat.div_mul_le_self _ _
    omega

/-- It is close if the parts are wide. -/
theorem neighbour_near {h k n d : ℕ} (hk : 0 < k) (hd : 0 < d) (half : d ≤ 2 * k)
    (beside : n * k = h * d + 1 ∨ h * d = n * k + 1) (wide : 2 ^ 26 ≤ n * d) :
    |(h / k - n / d : ℚ)| * 2 ^ 25 ≤ n / d := by
  have hkq : (0 : ℚ) < k := Nat.cast_pos.mpr hk
  have hdq : (0 : ℚ) < d := Nat.cast_pos.mpr hd
  -- neighbours have a determinant of one, so they are that far apart
  have one : |(h * d - k * n : ℚ)| = 1 := by
    rcases beside with below | above
    · have below : (n * k : ℚ) = h * d + 1 := by exact_mod_cast below
      rw [show (h * d - k * n : ℚ) = -1 by linarith, abs_neg, abs_one]
    · have above : (h * d : ℚ) = n * k + 1 := by exact_mod_cast above
      rw [show (h * d - k * n : ℚ) = 1 by linarith, abs_one]
  have product : 2 ^ 25 ≤ n * k := by
    have := Nat.mul_le_mul_left n half
    rw [Nat.mul_left_comm] at this
    omega
  rw [div_sub_div _ _ hkq.ne' hdq.ne', abs_div, one, abs_of_pos (mul_pos hkq hdq),
    div_mul_eq_mul_div, one_mul, div_le_div_iff₀ (mul_pos hkq hdq) hdq, mul_comm (k : ℚ),
    mul_left_comm, mul_comm (d : ℚ)]
  gcongr
  exact_mod_cast product

section

variable [Tolerance] {r : ℚ} {v : Double}

/-- The parts of a fraction that stands alone are small. -/
theorem StandsAlone.mul_le (standard : Tolerance.relative = 1e-7) (alone : StandsAlone r v)
    (hr : 0 < r) (narrow : Narrow r) (double : (Fraction.ofRat r).toDouble = .ok v)
    (broken : r.den ≠ 1) : r.num.natAbs * r.den ≤ 2 ^ 26 := by
  by_contra wide
  obtain ⟨h, k, positive, below, half, beside⟩ :=
    exists_neighbour r.reduced (by have := r.den_pos; omega)
  have nonzero : (k : ℤ) ≠ 0 := Int.natCast_ne_zero.mpr positive.ne'
  obtain ⟨f, hf⟩ : ∃ f : Fraction, f = ⟨h, k, nonzero⟩ := ⟨_, rfl⟩
  have num : 0 < r.num.natAbs := Int.natAbs_pos.mpr (Rat.num_pos.mpr hr).ne'
  have le_num : h ≤ r.num.natAbs := by
    refine Nat.le_of_mul_le_mul_right ?_ r.den_pos
    have := Nat.mul_le_mul_left r.num.natAbs (Nat.succ_le_of_lt below)
    rw [Nat.mul_succ] at this
    omega
  have narrow' : f.isNarrow = true := by
    subst hf
    rw [Fraction.isNarrow_iff]
    exact ⟨le_num.trans narrow.1, below.le.trans narrow.2⟩
  obtain ⟨w, hw, finite, -⟩ := Fraction.toDouble_narrow narrow'
  have apart := alone f (by subst hf; exact below) w hw
  -- the neighbour is so close that its double counts as equal
  have error := Fraction.toDouble_error narrow' hw
  have error' := Fraction.toDouble_ofRat_error hr narrow double
  have near : |f.toRat - r| * 2 ^ 25 ≤ r := by
    have parts : r = r.num.natAbs / r.den := by
      rw [Nat.cast_natAbs, abs_of_pos (Rat.num_pos.mpr hr)]
      exact r.num_div_den.symm
    have near := neighbour_near positive r.den_pos half beside (not_le.mp wide).le
    rw [← parts] at near
    subst hf
    exact near
  obtain ⟨least, most⟩ := value_mem hr narrow double
  have close : |w.value - v.value| * 30000000 ≤ v.value := by
    have first := abs_sub_le w.value f.toRat v.value
    have second := abs_sub_le f.toRat r v.value
    have size := abs_sub_le f.toRat r 0
    have low := neg_abs_le (v.value - r)
    rw [abs_sub_comm r] at second
    rw [sub_zero, sub_zero] at size
    rw [abs_of_pos hr] at size
    linarith
  have equal := Double.approxEq_of_near standard (Fraction.toDouble_isNearest double).finite finite
    least most close
  rw [apart] at equal
  exact Bool.false_ne_true equal

omit [Tolerance] in
/-- Fractions with different denominators, the parts of one of which are small, are far apart. -/
theorem distance_ge {f : Fraction} (num : r.num ≤ 3000) (den : r.den ≤ 3000)
    (below : f.den.natAbs < r.den) :
    1 ≤ |f.toRat - r| * 9000000 ∧ r ≤ |f.toRat - r| * 9000000 := by
  have hd : (0 : ℚ) < r.den := Nat.cast_pos.mpr r.den_pos
  have hk : (0 : ℚ) < f.den.natAbs := Nat.cast_pos.mpr (Int.natAbs_pos.mpr f.den_ne_zero)
  have product : (f.den.natAbs * r.den : ℚ) ≤ 9000000 := by
    exact_mod_cast (Nat.mul_le_mul below.le den).trans (Nat.mul_le_mul den le_rfl)
  -- two different fractions differ by at least one over the product of their denominators
  have different : f.num * r.den - r.num * f.den ≠ 0 := by
    rw [sub_ne_zero]
    intro same
    have value : f.toRat = r := by
      rw [Fraction.toRat, div_eq_iff f.den_cast_ne_zero, ← r.num_div_den, div_mul_eq_mul_div,
        eq_div_iff hd.ne']
      exact_mod_cast same
    have divides := Rat.den_dvd f.num f.den
    rw [Rat.divInt_eq_div, show (f.num / f.den : ℚ) = r from value] at divides
    exact absurd (Nat.le_of_dvd (Int.natAbs_pos.mpr f.den_ne_zero)
      (Int.natCast_dvd.mp divides)) (not_le.mpr below)
  have apart : 1 ≤ |f.toRat - r| * (f.den.natAbs * r.den) := by
    have scaled : (f.toRat - r) * (f.den * r.den) = (f.num * r.den - r.num * f.den : ℤ) := by
      have left := f.toRat_mul_den r.den
      have right := Rat.mul_den_eq_num r
      push_cast at left ⊢
      linear_combination left - f.den * right
    have magnitude : (f.den.natAbs * r.den : ℚ) = |(f.den * r.den : ℚ)| := by
      rw [abs_mul, Nat.cast_natAbs, Int.cast_abs, abs_of_pos hd]
    rw [magnitude, ← abs_mul, scaled, ← Int.cast_abs]
    exact_mod_cast Int.one_le_abs different
  constructor
  · exact apart.trans (mul_le_mul_of_nonneg_left product (abs_nonneg _))
  · have parts : r * (f.den.natAbs * r.den) ≤ 9000000 := by
      have right := Rat.mul_den_eq_num r
      have top : (r.num : ℚ) ≤ 3000 := by exact_mod_cast num
      have bottom : (f.den.natAbs : ℚ) ≤ 3000 := by exact_mod_cast below.le.trans den
      calc r * (f.den.natAbs * r.den) = r.num * f.den.natAbs := by
            rw [← right]
            ring
        _ ≤ 3000 * 3000 := by gcongr
        _ = 9000000 := by norm_num
    refine le_of_mul_le_mul_right ?_ (mul_pos hk hd)
    linarith

/-- Small parts are enough. -/
theorem standsAlone_of_small (standard : Tolerance.relative = 1e-7) (hr : 0 < r)
    (num : r.num ≤ 3000) (den : r.den ≤ 3000) (double : (Fraction.ofRat r).toDouble = .ok v) :
    StandsAlone r v := by
  intro f below w hw
  obtain ⟨first, second⟩ := distance_ge num den below
  have narrow : Narrow r := by
    have := Rat.num_pos.mpr hr
    exact ⟨by omega, by omega⟩
  have error := Fraction.toDouble_error_of_den (f := f) (by omega) hw
  have error' := Fraction.toDouble_ofRat_error hr narrow double
  have size := abs_sub_le f.toRat r 0
  rw [sub_zero, sub_zero, abs_of_pos hr] at size
  -- rounding both hardly changes the distance
  have apart : |f.toRat - r| * (99 / 100) ≤ |w.value - v.value| := by
    have triangle := abs_sub_le f.toRat w.value r
    have triangle' := abs_sub_le w.value v.value r
    rw [abs_sub_comm f.toRat w.value] at triangle
    linarith
  have left : |w.value| ≤ |f.toRat| + |w.value - f.toRat| := by
    simpa using abs_add_le f.toRat (w.value - f.toRat)
  have right : |v.value| ≤ r + |v.value - r| := by
    simpa [abs_of_pos hr] using abs_add_le r (v.value - r)
  obtain ⟨low, high⟩ := value_mem hr narrow double
  refine Double.approxEq_of_far standard (Fraction.toDouble_isNearest double).finite
    (Fraction.toDouble_isNearest hw).finite ?_ ?_ ?_ ?_
  · rw [abs_of_nonneg (le_trans (by norm_num) low)]
    exact high.trans (by norm_num)
  · linarith
  · linarith
  · linarith

/-- No denominator is smaller than that of an integer. -/
theorem standsAlone_of_integer (integer : r.den = 1) : StandsAlone r v := by
  intro f below
  have := Int.natAbs_pos.mpr f.den_ne_zero
  omega

/-- A fraction that stands alone is not below the zero bound. -/
theorem StandsAlone.snap_eq (alone : StandsAlone r v) (hr : 0 < r) (narrow : Narrow r)
    (double : (Fraction.ofRat r).toDouble = .ok v) : Double.snap v = v := by
  have finite := (Fraction.toDouble_isNearest double).finite
  have positive : 0 < v.value := lt_of_lt_of_le (by norm_num) (value_mem hr narrow double).1
  rw [Double.snap_eq finite, if_neg]
  intro small
  by_cases integer : r.den = 1
  · have one_le : 1 ≤ v.value := by
      rw [value_of_integer hr narrow integer double, ← (Rat.den_eq_one_iff r).mp integer]
      exact_mod_cast Rat.num_pos.mpr hr
    have bound := Double.bounds_spec.2.2
    rw [abs_of_pos positive] at small
    linarith
  · have apart := alone (.ofInt 0) (by have := r.den_pos; show 1 < _; omega) 0 rfl
    exact Bool.false_ne_true (apart.symm.trans (Double.approxEq_zero finite small))

end

/-- The error of the next rest, from that of this one. -/
theorem invert_error {f y z a B B' E : ℚ} (hB : 1 ≤ B) (hB' : 1 ≤ B') (wide : B * B' ≤ 2 ^ 26)
    (small : E ≤ 1 / 2 ^ 20) (left : f * B = B' + a) (near : |a| * B ≤ E) (hy : 0 < y)
    (first : |y - f| * 2 ^ 53 ≤ f) (second : |z - 1 / y| * 2 ^ 53 ≤ 1 / y) :
    |z * B' - B| * B' ≤ E + 1 / 2 ^ 25 := by
  have near' : |a| ≤ E := (le_mul_of_one_le_right (abs_nonneg a) hB).trans near
  have product : |z * y - 1| * 2 ^ 53 ≤ 1 := by
    have scaled := mul_le_mul_of_nonneg_right second hy.le
    rw [mul_right_comm, ← abs_of_pos hy, ← abs_mul, abs_of_pos hy, sub_mul,
      one_div_mul_cancel hy.ne'] at scaled
    exact scaled
  obtain ⟨low, high⟩ := abs_le.mp ((le_div_iff₀ (by norm_num)).mpr product)
  obtain ⟨low', high'⟩ := abs_le.mp ((le_div_iff₀ (by norm_num)).mpr first)
  have hz : 0 < z := by
    refine pos_of_mul_pos_left (b := y) ?_ hy.le
    linarith
  -- the rounded product of the rest and its reciprocal
  have zf : z * f ≤ 1 + 1 / 2 ^ 50 := by
    have : z * f * (1 - 1 / 2 ^ 53) ≤ z * y := by
      have := mul_le_mul_of_nonneg_left low' hz.le
      linarith
    linarith
  have zy : |z * f - 1| ≤ 3 / 2 ^ 53 := by
    have above := mul_le_mul_of_nonneg_left high' hz.le
    have below := mul_le_mul_of_nonneg_left low' hz.le
    rw [abs_le]
    constructor <;> linarith
  obtain ⟨alow, ahigh⟩ := abs_le.mp near'
  have W : z * B' ≤ (1 + 1 / 2 ^ 19) * B := by
    have e : z * B' = z * f * B - z * a := by
      rw [mul_assoc, left]
      ring
    have : z * -a ≤ z * B' * E := by
      calc z * -a ≤ z * E := by gcongr; linarith
        _ = z * 1 * E := by ring
        _ ≤ z * B' * E := by gcongr; linarith [abs_nonneg a]
    have : z * f * B ≤ (1 + 1 / 2 ^ 50) * B := by gcongr
    have : z * B' * E ≤ z * B' * (1 / 2 ^ 20) := by gcongr
    linarith
  have split : z * B' - B = (z * f - 1) * B - z * a := by
    rw [show (z * f - 1) * B = z * (f * B) - B by ring, left]
    ring
  have triangle : |z * B' - B| ≤ 3 / 2 ^ 53 * B + z * |a| := by
    rw [split]
    refine (abs_sub _ _).trans ?_
    rw [abs_mul, abs_mul, abs_of_pos hz, abs_of_pos (by linarith : 0 < B)]
    gcongr
  calc |z * B' - B| * B' ≤ (3 / 2 ^ 53 * B + z * |a|) * B' := by gcongr
    _ = 3 / 2 ^ 53 * (B * B') + z * B' * |a| := by ring
    _ ≤ 3 / 2 ^ 53 * 2 ^ 26 + (1 + 1 / 2 ^ 19) * B * |a| := by gcongr
    _ ≤ E + 1 / 2 ^ 25 := by linarith [abs_nonneg a]

/-! ## The expansion of a fraction -/

namespace Fraction

variable {f : Fraction} {v : Double}

theorem toDouble_of_ratio? (h : Double.ratio? f.num f.den = some v) : f.toDouble = .ok v := by
  unfold toDouble
  rw [h]
  rfl

/-- The only double of a fraction is the quotient of its parts. -/
theorem ratio?_of_toDouble (h : f.toDouble = .ok v) : Double.ratio? f.num f.den = some v := by
  unfold toDouble at h
  split at h
  next w found =>
    cases h
    exact found
  next => cases h

end Fraction

namespace Scalar

namespace Convergents

variable {c : Convergents} {r E : ℚ} {A B : ℤ} {v : Double} {bound : ℕ}

/-- The rest stands for `A / B` up to an error `E`, and the convergents with this rest behind them
for `r`. -/
structure Approaches (r E : ℚ) (A B : ℤ) (c : Convergents) : Prop where
  num : A * c.h1 + B * c.h0 = r.num
  den : A * c.k1 + B * c.k0 = r.den
  left : 0 < A
  right : 0 < B
  num_nonneg : 0 ≤ c.h1
  den_nonneg : 0 ≤ c.k1
  num_nonneg' : 0 ≤ c.h0
  den_nonneg' : 0 ≤ c.k0
  finite : c.rest.isFinite = true
  near : |c.rest.value * B - A| * B ≤ E

/-- What the integer part leaves of `A / B`, over `B`. -/
def remainder (A B : ℤ) (c : Convergents) : ℤ := A - c.rest.floor * B

/-- The error of the rest is less than one in units of the divisor. -/
theorem Approaches.error_lt (h : Approaches r E A B c) (small : E ≤ 1 / 2 ^ 20) :
    |c.rest.value * B - A| < 1 := by
  have one_le : (1 : ℚ) ≤ B := by exact_mod_cast h.right
  have := (le_mul_of_one_le_right (abs_nonneg _) one_le).trans h.near
  linarith

/-- The integer part is not too large. -/
theorem Approaches.remainder_nonneg (h : Approaches r E A B c) (small : E ≤ 1 / 2 ^ 20) :
    0 ≤ remainder A B c := by
  have low := Int.floor_le c.rest.value
  rw [← Double.floor_eq h.finite] at low
  have scaled := mul_le_mul_of_nonneg_right low (Int.cast_nonneg h.right.le)
  have below : ((c.rest.floor * B : ℤ) : ℚ) < A + 1 := by
    have := (abs_lt.mp (h.error_lt small)).2
    push_cast
    linarith
  have : c.rest.floor * B < A + 1 := by exact_mod_cast below
  unfold remainder
  omega

/-- The integer part is too small by one at most. -/
theorem Approaches.remainder_le (h : Approaches r E A B c) (small : E ≤ 1 / 2 ^ 20) :
    remainder A B c ≤ B := by
  have high := Int.lt_floor_add_one c.rest.value
  rw [← Double.floor_eq h.finite] at high
  have scaled := mul_lt_mul_of_pos_right high (Int.cast_pos.mpr h.right)
  have above : (A : ℚ) - 1 < ((c.rest.floor + 1) * B : ℤ) := by
    have := (abs_lt.mp (h.error_lt small)).1
    push_cast
    linarith
  have : A - 1 < (c.rest.floor + 1) * B := by exact_mod_cast above
  unfold remainder
  linarith

/-- The next convergent takes the place of the last one, and what is left that of `B`. -/
theorem Approaches.step_num (h : Approaches r E A B c) :
    B * c.step.h1 + remainder A B c * c.h1 = r.num := by
  rw [← h.num]
  show B * (c.rest.floor * c.h1 + c.h0) + (A - c.rest.floor * B) * c.h1 = _
  ring

/-- The denominators follow the same recurrence. -/
theorem Approaches.step_den (h : Approaches r E A B c) :
    B * c.step.k1 + remainder A B c * c.k1 = r.den := by
  rw [← h.den]
  show B * (c.rest.floor * c.k1 + c.k0) + (A - c.rest.floor * B) * c.k1 = _
  ring

/-- If nothing is left, the convergent is the fraction. -/
theorem Approaches.step_eq (h : Approaches r E A B c) (done : remainder A B c = 0) :
    c.step.h1 = r.num ∧ c.step.k1 = r.den := by
  have num := h.step_num
  have den := h.step_den
  rw [done, zero_mul, add_zero] at num den
  -- a common factor of lowest terms is one
  have one : B = 1 := by
    have common : B ∣ Int.gcd r.num r.den :=
      Int.dvd_coe_gcd (Dvd.intro _ num) (Dvd.intro _ den)
    have coprime : Int.gcd r.num r.den = 1 := r.reduced
    rw [coprime] at common
    exact Int.eq_one_of_dvd_one h.right.le common
  rw [one, one_mul] at num den
  exact ⟨num, den⟩

/-- If something is left, the rest is no integer. -/
theorem Approaches.broken (h : Approaches r E A B c) (small : E ≤ 1 / 2 ^ 20)
    (more : 0 < remainder A B c) : c.rest.isIntegral = false := by
  rw [Bool.eq_false_iff]
  intro integral
  obtain ⟨k, hk⟩ := Double.value_of_isIntegral integral
  have floor : c.rest.floor = k := by rw [Double.floor_eq h.finite, hk, Int.floor_intCast]
  have near := h.error_lt small
  rw [hk] at near
  have zero : |k * B - A| < 1 := by exact_mod_cast near
  unfold remainder at more
  rw [floor] at more
  rw [Int.abs_lt_one_iff] at zero
  omega

/-- The next rest stands for what is left, turned around. -/
theorem Approaches.invert (h : Approaches r E A B c) (small : E ≤ 1 / 2 ^ 20)
    (more : 0 < remainder A B c) (wide : B * remainder A B c ≤ 2 ^ 26)
    (least : 1 / 2 ^ 53 ≤ c.rest.value) :
    Approaches r (E + 1 / 2 ^ 25) B (remainder A B c) c.step.invert ∧
      1 ≤ c.step.invert.rest.value := by
  have broken := h.broken small more
  have left := Double.sub_floor_isNearest h.finite broken
  obtain ⟨low, high⟩ := Double.sub_floor_mem h.finite least broken
  have fract := Double.fract_ge h.finite least broken
  obtain ⟨nearest, one_le⟩ := Double.inv_sub_floor h.finite least broken
  have quotient : 0 ≤ c.rest.floor := by
    rw [Double.floor_eq h.finite]
    exact Int.floor_nonneg.mpr (by linarith)
  refine ⟨⟨h.step_num, h.step_den, h.right, more, ?_, ?_, h.num_nonneg, h.den_nonneg,
    nearest.finite, ?_⟩, one_le⟩
  · -- the two errors of a round: taking the whole part away, and the reciprocal
    exact add_nonneg (mul_nonneg quotient h.num_nonneg) h.num_nonneg'
  · exact add_nonneg (mul_nonneg quotient h.den_nonneg) h.den_nonneg'
  · have positive : 0 < (c.rest - Double.ofInt c.rest.floor).value := by linarith
    have fract_le : c.rest.value - c.rest.floor ≤ 1 := by
      rw [Double.floor_eq h.finite]
      exact (Int.fract_lt_one _).le
    have one_le_inv : 1 ≤ 1 / (c.rest - Double.ofInt c.rest.floor).value :=
      one_le_one_div positive high
    have inv_le : 1 / (c.rest - Double.ofInt c.rest.floor).value ≤ 2 ^ 106 := by
      rw [div_le_iff₀ positive]
      linarith
    have first := left.error_of_pos fract (by linarith)
    have second := nearest.error_of_pos (by linarith) inv_le
    refine invert_error (f := c.rest.value - c.rest.floor) (a := c.rest.value * B - A)
      (y := (c.rest - Double.ofInt c.rest.floor).value) ?_ ?_ ?_ small ?_ h.near positive first
      second
    · exact_mod_cast h.right
    · exact_mod_cast more
    · exact_mod_cast wide
    · unfold remainder
      push_cast
      ring

variable [Tolerance]

/-- One step of the expansion: it ends with the fraction, or goes on with the next convergents. -/
theorem Approaches.expand_step (h : Approaches r E A B c) (small : E ≤ 1 / 2 ^ 20)
    (narrow : Narrow r) (double : (Fraction.ofRat r).toDouble = .ok v) (alone : StandsAlone r v)
    (least : 0 ≤ c.rest.value) (positive : 0 < c.step.k1)
    (below : 0 < remainder A B c → c.step.k1 < r.den) (bound : ℕ) :
    (remainder A B c = 0 ∧ expand v (bound + 1) c = .ok c.step) ∨
      (0 < remainder A B c ∧ expand v (bound + 1) c = expand v bound c.step.invert) := by
  have finite := (Fraction.toDouble_isNearest double).finite
  -- without a remainder the convergent is the number itself, and the search ends there
  rcases (h.remainder_nonneg small).eq_or_lt with done | more
  · obtain ⟨num, den⟩ := h.step_eq done.symm
    have found : Double.ratio? c.step.h1 c.step.k1 = some v := by
      rw [num, den]
      exact Fraction.ratio?_of_toDouble double
    have same : Double.approxEq v v = true := if_pos (Double.equals_self finite)
    refine .inl ⟨done.symm, ?_⟩
    rw [expand_succ found, same]
    rfl
  · have quotient : 0 ≤ c.rest.floor := by
      rw [Double.floor_eq h.finite]
      exact Int.floor_nonneg.mpr least
    have num_nonneg : 0 ≤ c.step.h1 :=
      add_nonneg (mul_nonneg quotient h.num_nonneg) h.num_nonneg'
    have num_le : c.step.h1 ≤ r.num := by
      have := h.step_num
      have := mul_nonneg more.le h.num_nonneg
      have := le_mul_of_one_le_left num_nonneg h.right
      linarith
    have den_lt := below more
    obtain ⟨hn, hd⟩ := narrow
    obtain ⟨w, found, -⟩ := Double.ratio?_narrow (n := c.step.h1) positive.ne' (by omega) (by omega)
    have apart := alone ⟨c.step.h1, c.step.k1, positive.ne'⟩ (by show _ < _; dsimp only; omega) w
      (Fraction.toDouble_of_ratio? found)
    refine .inr ⟨more, ?_⟩
    rw [expand_succ found, apart, h.broken small more]
    rfl

/-- **A fraction that stands alone is recovered**: every integer part from the second on halves the
product of what is left. -/
theorem Approaches.expand (double : (Fraction.ofRat r).toDouble = .ok v) (alone : StandsAlone r v)
    (narrow : Narrow r) (h : Approaches r E A B c) (least : 1 ≤ c.rest.value) (den : 0 < c.k1)
    (enough : A * B < 2 ^ bound) (wide : A * B ≤ 2 ^ 26) (small : E + bound / 2 ^ 25 ≤ 1 / 2 ^ 20) :
    ∃ c', expand v bound c = .ok c' ∧ c'.h1 = r.num ∧ c'.k1 = r.den := by
  -- on the bound: the product of numerator and denominator is halved in each round
  induction bound generalizing c E A B with
  | zero =>
    have := mul_pos h.left h.right
    omega
  | succ bound ih =>
    push_cast at small
    have here : E ≤ 1 / 2 ^ 20 := by
      have : (0 : ℚ) ≤ (bound + 1) / 2 ^ 25 := by positivity
      linarith
    have quotient : 1 ≤ c.rest.floor := by
      rw [Double.floor_eq h.finite]
      exact Int.le_floor.mpr (by exact_mod_cast least)
    have positive : 0 < c.step.k1 :=
      add_pos_of_pos_of_nonneg (mul_pos (by omega) den) h.den_nonneg'
    have below (more : 0 < remainder A B c) : c.step.k1 < r.den := by
      have := h.step_den
      have := mul_pos more den
      have := le_mul_of_one_le_left positive.le h.right
      linarith
    obtain ⟨done, result⟩ | ⟨more, result⟩ :=
      h.expand_step here narrow double alone (by linarith) positive below bound
    · exact ⟨_, result, h.step_eq done⟩
    · have halved : B * (2 * remainder A B c) ≤ B * A := by
        have := h.remainder_le here
        have := le_mul_of_one_le_left h.right.le quotient
        have whole : A = c.rest.floor * B + remainder A B c := by unfold remainder; ring
        exact mul_le_mul_of_nonneg_left (by linarith) h.right.le
      rw [mul_left_comm, mul_comm B A] at halved
      obtain ⟨next, one_le⟩ := h.invert here more (by omega)
        ((show (1 / 2 ^ 53 : ℚ) ≤ 1 by norm_num).trans least)
      rw [result]
      refine ih next one_le positive ?_ ?_ ?_
      · rw [pow_succ] at enough
        omega
      · omega
      · linarith

/-- The expansion starts at the double of the fraction. -/
theorem approaches_start (standard : Tolerance.relative = 1e-7) (hr : 0 < r) (narrow : Narrow r)
    (double : (Fraction.ofRat r).toDouble = .ok v) (alone : StandsAlone r v) :
    Approaches r (1 / 2 ^ 27) r.num r.den (start v) where
  num := by simp [start]
  den := by simp [start]
  left := Rat.num_pos.mpr hr
  right := Int.natCast_pos.mpr r.den_pos
  num_nonneg := zero_le_one
  den_nonneg := le_rfl
  num_nonneg' := le_rfl
  den_nonneg' := zero_le_one
  finite := (Fraction.toDouble_isNearest double).finite
  near := by
    have den : (0 : ℚ) < r.den := Nat.cast_pos.mpr r.den_pos
    have parts : r * r.den = r.num := Rat.mul_den_eq_num r
    rw [Int.cast_natCast, ← parts, ← sub_mul, abs_mul, abs_of_pos den]
    show |v.value - r| * r.den * r.den ≤ 1 / 2 ^ 27
    -- an integer is exact, so only a fraction starts with an error
    by_cases integer : r.den = 1
    · rw [value_of_integer hr narrow integer double, sub_self, abs_zero, zero_mul, zero_mul]
      norm_num
    · have error := Fraction.toDouble_ofRat_error hr narrow double
      have small : (r.num.natAbs * r.den : ℚ) ≤ 2 ^ 26 := by
        exact_mod_cast alone.mul_le standard hr narrow double integer
      rw [Nat.cast_natAbs, abs_of_pos (Rat.num_pos.mpr hr), ← parts] at small
      have scaled := mul_le_mul_of_nonneg_right error (mul_pos den den).le
      linarith

end Convergents

variable [Tolerance] {r : ℚ} {v : Double}

/-- **A fraction that stands alone is recovered from its double.** -/
theorem recover?_of_standsAlone (standard : Tolerance.relative = 1e-7) (hr : 0 < r)
    (narrow : Narrow r) (double : (Fraction.ofRat r).toDouble = .ok v) (alone : StandsAlone r v) :
    recover? v = .ok (some (exact (.ofRat r))) := by
  have start := Convergents.approaches_start standard hr narrow double alone
  have finite := (Fraction.toDouble_isNearest double).finite
  obtain ⟨least, -⟩ := value_mem hr narrow double
  have positive : 0 < v.value := lt_of_lt_of_le (by norm_num) least
  have small : (1 / 2 ^ 27 : ℚ) ≤ 1 / 2 ^ 20 := by norm_num
  have den : (Convergents.start v).step.k1 = 1 := by
    show v.floor * 0 + 1 = 1
    ring
  -- an integer leaves nothing
  have proper (more : 0 < Convergents.remainder r.num r.den (.start v)) : r.den ≠ 1 := by
    intro integer
    have integral : v.isIntegral = true := by
      refine (Double.isIntegral_iff finite).mpr ⟨r.num, ?_⟩
      rw [value_of_integer hr narrow integer double]
      exact ((Rat.den_eq_one_iff r).mp integer).symm
    exact absurd (integral.symm.trans (start.broken small more)) (by decide)
  have recovered : ∃ c, Convergents.expand v Convergents.stepLimit (.start v) = .ok c ∧
      c.h1 = r.num ∧ c.k1 = r.den := by
    unfold Convergents.stepLimit
    obtain ⟨done, result⟩ | ⟨more, result⟩ :=
      start.expand_step small narrow double alone positive.le (den ▸ one_pos)
        (fun more => by have := proper more; have := r.den_pos; omega) 29
    · exact ⟨_, result, start.step_eq done⟩
    · have wide : r.den * Convergents.remainder r.num r.den (.start v) ≤ 2 ^ 26 := by
        have parts := alone.mul_le standard hr narrow double (proper more)
        have num : (r.num.natAbs : ℤ) = r.num := Int.natAbs_of_nonneg (Rat.num_pos.mpr hr).le
        have quotient : 0 ≤ v.floor := by
          rw [Double.floor_eq finite]
          exact Int.floor_nonneg.mpr positive.le
        have part : Convergents.remainder r.num r.den (.start v) ≤ r.num :=
          sub_le_self _ (mul_nonneg quotient (Int.natCast_nonneg _))
        calc r.den * Convergents.remainder r.num r.den (.start v) ≤ r.den * r.num := by gcongr
          _ = (r.num.natAbs * r.den : ℕ) := by
            rw [Nat.cast_mul, num, mul_comm]
          _ ≤ 2 ^ 26 := by exact_mod_cast parts
      obtain ⟨next, one_le⟩ := start.invert small more wide least
      rw [result]
      exact next.expand double alone narrow one_le (den ▸ one_pos) (by omega) wide
        (by norm_num)
  obtain ⟨c, expanded, num, den⟩ := recovered
  have quotient : (r.num / (r.den : ℤ) : ℚ) = r := by
    rw [Int.cast_natCast]
    exact r.num_div_den
  have found := ofQuotient_eq r.num (Int.natCast_ne_zero.mpr r.den_ne_zero) (by rwa [quotient])
  rw [recover?_of_pos finite positive, expanded]
  show some <$> ofQuotient c.h1 c.k1 = _
  rw [num, den, found, quotient]
  rfl

end Scalar

end SymbolicAlgebra
