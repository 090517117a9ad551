import SymbolicAlgebra.Proofs.Exact.Range
import SymbolicAlgebra.Proofs.Exact.Rational
import SymbolicAlgebra.Proofs.Exact.Roots

/-!
# Powers of fractions

A fraction to a fractional power `p / q` is a fraction where both of its parts have `q`-th roots
among the integers, and a symbolic square root or a double where they do not. `Value.pow_ends` says
how the calculation ends, for fractions of any width and whatever the guesses for the roots are:

* a fraction that comes back is the power (`IsPower`), and it is one of a positive number or to an
  integer exponent;
* zero to a negative power fails, and a number out of range may;
* a base or exponent that is too wide for a fraction fails where one of its parts is asked for.

The last is no undefined power: lowest terms that are too wide are a double, which has no parts.
Within the range of doubles these failures are all (`Value.pow_eq_error_iff`), and the square root
of every integer above the width limit is one of them (`Value.pow_half_of_wide`).

If the guesses are accurate, powers with exact roots do come back as fractions
(`Value.pow_exact`).
-/

namespace SymbolicAlgebra

/-! ## Results and failures -/

/-- `r` is `x` to the power `y`: a root of a power, which is one of a positive number unless the
exponent is an integer. -/
structure IsPower (x y r : ℚ) : Prop where
  real : 0 ≤ x ∨ y.den = 1
  power : r ^ y.den = x ^ y.num

/-- The ways in which `x` to the power `y` fails. -/
inductive PowerFailure (x y : ℚ) : Failure → Prop
  /-- Zero has no negative power. -/
  | zeroToNegative (zero : x = 0) (negative : y < 0) :
    PowerFailure x y (.undefined .zeroToNegative)
  /-- The base has no double. -/
  | base (outside : Double.range ≤ |x|) : PowerFailure x y .tooWide
  /-- The exponent has no double. -/
  | exponent (outside : Double.range ≤ |y|) : PowerFailure x y .tooWide
  /-- The exponent is too wide for a fraction, and its denominator is asked for. -/
  | den (wide : ¬Narrow y) : PowerFailure x y (.widened "den")
  /-- The base is too wide for a fraction, and a root of its numerator is asked for. -/
  | num (real : 0 ≤ x) (wide : ¬Narrow x) (broken : y.den ≠ 1) : PowerFailure x y (.widened "num")

theorem IsPower.whole (x : ℚ) (n : ℤ) : IsPower x n (x ^ n) where
  real := .inr (Rat.den_intCast n)
  power := by rw [Rat.den_intCast, Rat.num_intCast, pow_one]

section

variable {x y r : ℚ} {n d : ℤ} {e : Failure}

theorem quotient_pow {k : ℕ} (hn : n ^ k = x.num) (hd : d ^ k = (x.den : ℤ)) :
    ((n : ℚ) / d) ^ k = x := by
  rw [div_pow, ← Int.cast_pow, ← Int.cast_pow, hn, hd, Int.cast_natCast, x.num_div_den]

/-- The quotient of roots of the parts, raised to the numerator of the exponent. -/
theorem IsPower.of_roots (real : 0 ≤ x) (hn : n ^ y.den = x.num) (hd : d ^ y.den = (x.den : ℤ))
    (h : IsPower (n / d) y.num r) : IsPower x y r := by
  have root := quotient_pow hn hd
  have power := h.power
  rw [Rat.den_intCast, Rat.num_intCast, pow_one] at power
  refine ⟨.inl real, ?_⟩
  rw [power, ← root, ← zpow_natCast, ← zpow_mul, ← zpow_natCast, ← zpow_mul, mul_comm]

/-- A failure of that power is one of the whole. -/
theorem PowerFailure.of_roots (hy : Narrow y) (hn : n ^ y.den = x.num)
    (hd : d ^ y.den = (x.den : ℤ)) (h : PowerFailure (n / d) y.num e) : PowerFailure x y e := by
  have root := quotient_pow hn hd
  have narrow : Narrow (y.num : ℚ) := ⟨hy.1, by norm_num⟩
  -- the exponent is an integer here, so neither its denominator nor a root can fail
  cases h with
  | zeroToNegative zero negative =>
    refine .zeroToNegative ?_ (Rat.num_neg.mp (Int.cast_lt_zero.mp negative))
    rw [← root, zero, zero_pow y.den_ne_zero]
  | base outside =>
    refine .base (outside.trans ?_)
    rw [← root, abs_pow]
    exact le_self_pow₀ (Double.one_lt_range.le.trans outside) y.den_ne_zero
  | exponent outside => exact absurd outside (not_le.mpr narrow.lt_range)
  | den wide => exact absurd narrow wide
  | num _ _ broken => exact absurd (Rat.den_intCast _) broken

/-- Two ways to fail are left if the exponent is narrow and the base is within the range. -/
theorem PowerFailure.of_narrow (h : PowerFailure x y e) (hx : |x| < Double.range) (hy : Narrow y) :
    e = .widened "num" ∧ y.den ≠ 1 ∧ 0 ≤ x ∧ ¬Narrow x ∨
      e = .undefined .zeroToNegative ∧ x = 0 ∧ y < 0 := by
  cases h with
  | zeroToNegative zero negative => exact .inr ⟨rfl, zero, negative⟩
  | base outside => exact absurd outside (not_le.mpr hx)
  | exponent outside => exact absurd outside (not_le.mpr hy.lt_range)
  | den wide => exact absurd hy wide
  | num real wide broken => exact .inl ⟨rfl, broken, real, wide⟩

end

namespace Fraction

/-- The parts of a positive fraction without a common factor are those of its number. -/
theorem parts_of_coprime {f : Fraction} (positive : 0 < f.toRat)
    (coprime : f.num.natAbs.Coprime f.den.natAbs) :
    f.toRat.num = f.num.natAbs ∧ f.toRat.den = f.den.natAbs := by
  have bottom : 0 < (f.den.natAbs : ℤ) := Int.natCast_pos.mpr (Int.natAbs_pos.mpr f.den_ne_zero)
  have value : f.toRat = ((f.num.natAbs : ℤ) : ℚ) / (f.den.natAbs : ℤ) := by
    rw [← abs_of_pos positive, toRat, ← Double.natAbs_div_natAbs]
    rfl
  have num := Rat.num_div_eq_of_coprime (a := f.num.natAbs) bottom coprime
  have den := Rat.den_div_eq_of_coprime (a := f.num.natAbs) bottom coprime
  rw [← value] at num den
  exact ⟨num, Int.natCast_inj.mp den⟩

/-! ### Bit lengths -/

theorem bitLength_natAbs (m : ℤ) : bitLength m.natAbs = bitLength m := by
  unfold bitLength
  rw [Int.natAbs_natCast, if_congr (Int.natCast_eq_zero.trans Int.natAbs_eq_zero) rfl rfl]

/-- The larger number has the larger bit length. -/
theorem bitLength_max (x y : ℕ) : bitLength ((max x y : ℕ) : ℤ) =
    max (bitLength x) (bitLength y) := by
  have monotone : Monotone fun n : ℕ => bitLength n := by
    intro m n below
    have logs := Nat.log_mono_right (b := 2) below
    simp only [bitLength, Nat.cast_eq_zero, Int.natAbs_natCast, Nat.log2_eq_log_two]
    split_ifs <;> omega
  exact monotone.map_max

/-- A number is below the power of two with its bit length. -/
theorem natAbs_lt_two_pow (m : ℤ) : m.natAbs < 2 ^ bitLength m := by
  unfold bitLength
  split
  next zero => rw [zero]; norm_num
  next => exact Nat.lt_log2_self

/-- Powers that are computed stay far within the range of doubles. -/
theorem natAbs_pow_le {m : ℤ} {k : ℕ} (small : k * bitLength m ≤ powerLimit) :
    (m ^ k).natAbs ≤ 2 ^ 256 := by
  rw [Int.natAbs_pow]
  calc m.natAbs ^ k ≤ (2 ^ bitLength m) ^ k :=
        Nat.pow_le_pow_left (natAbs_lt_two_pow m).le k
    _ = 2 ^ (k * bitLength m) := by rw [← pow_mul, mul_comm]
    _ ≤ 2 ^ 256 := pow_le_pow_right₀ one_le_two small

end Fraction

namespace Scalar

variable {f : Fraction} {s : Scalar} {x y : ℚ} {F : Failure → Prop}

/-- The scalar may stand for the power: that is defined, and if the scalar is a fraction it is the
power. -/
structure MayBePower (x y : ℚ) (s : Scalar) : Prop where
  defined : x = 0 → 0 ≤ y
  exact : ∀ r, s = .exact r → IsPower x y r.toRat

/-- Anything to the power zero is one. -/
theorem mayBePower_one (x : ℚ) : one.MayBePower x 0 where
  defined _ := le_rfl
  exact := by
    rintro _ ⟨rfl⟩
    have whole := IsPower.whole x 0
    rw [zpow_zero, Int.cast_zero] at whole
    exact (Fraction.toRat_ofInt 1).trans Int.cast_one ▸ whole

/-- The quotient of roots of the parts, raised to the numerator of the exponent. -/
theorem MayBePower.of_roots {n d : ℤ} (real : 0 ≤ x) (hn : n ^ y.den = x.num)
    (hd : d ^ y.den = (x.den : ℤ)) (h : s.MayBePower (n / d) y.num) : s.MayBePower x y where
  defined zero := by
    rw [← Rat.num_nonneg]
    refine Int.cast_nonneg_iff.mp (h.defined ?_)
    exact (pow_eq_zero_iff y.den_ne_zero).mp ((quotient_pow hn hd).trans zero)
  exact r hr := .of_roots real hn hd (h.exact r hr)

/-- Doubles are no fractions. -/
theorem approximate_ends {v : Calc Double} (h : v.FailsAs F) (defined : x = 0 → 0 ≤ y) :
    Ends (approximate v) F (MayBePower x y) :=
  .map ((Ends.of_failsAs h).mono (fun _ => id) fun _ _ => ⟨defined, nofun⟩)

/-- What comes back as a fraction has not been rounded. -/
theorem Rounds.toRat_eq {r : Fraction} (h : s.Rounds x) (exact : s = .exact r) : r.toRat = x := by
  subst exact
  by_cases narrow : Narrow x
  · cases h.1 narrow
    exact Fraction.toRat_ofRat x
  · obtain ⟨v, -, approx⟩ := h.2 narrow
    cases approx

/-! ### Lowest terms -/

/-- A fraction whose lowest terms are narrow has parts. -/
theorem reduceExact_of_narrow [Exactness] (h : Narrow f.toRat) (part : String) :
    reduceExact f part = .ok (.ofRat f.toRat) := by
  unfold reduceExact reduce
  rw [ofQuotient_eq _ f.den_ne_zero h]
  rfl

/-- A fraction that is too wide has no parts. -/
theorem reduceExact_of_wide (wide : ¬Narrow f.toRat) (inside : |f.toRat| < Double.range)
    (part : String) : reduceExact f part = .error (.widened part) := by
  obtain ⟨s, rounded, rounds⟩ := ofQuotient_rounds_of_lt f.den_ne_zero inside
  obtain ⟨v, -, rfl⟩ := rounds.2 wide
  unfold reduceExact reduce
  rw [rounded]
  rfl

/-- A fraction beyond the range of doubles has not even a double in its place. -/
theorem reduceExact_of_range_le (outside : Double.range ≤ |f.toRat|) (part : String) :
    reduceExact f part = .error .tooWide := by
  unfold reduceExact reduce
  rw [ofQuotient_of_range_le f.den_ne_zero outside]
  rfl

/-- The ways in which the parts of a fraction are missing. -/
theorem reduceExact_ends (f : Fraction) (part : String) (wide : ¬Narrow f.toRat → F (.widened part))
    (outside : Double.range ≤ |f.toRat| → F .tooWide) :
    Ends (reduceExact f part) F fun r => r = .ofRat f.toRat ∧ Narrow f.toRat := by
  by_cases narrow : Narrow f.toRat
  · exact .of_ok (reduceExact_of_narrow narrow part) ⟨rfl, narrow⟩
  · rcases lt_or_ge |f.toRat| Double.range with inside | beyond
    · exact .of_error (reduceExact_of_wide narrow inside part) (wide narrow)
    · exact .of_error (reduceExact_of_range_le beyond part) (outside beyond)

/-! ### Integer powers -/

/-- An integer power that is computed is the power, if it is a fraction still. -/
theorem exactPower?_ends (f : Fraction) (n : ℤ) :
    Ends (exactPower? f n) (PowerFailure f.toRat n) fun o =>
      ∀ s, o = some s → s.MayBePower f.toRat n := by
  obtain ⟨a, b, nonzero, value, part, power⟩ := exactPower?_eq f n
  rw [power]
  split
  · exact .none
  next small =>
    split
    next undefined => exact .throw (.zeroToNegative undefined.1 (Int.cast_lt_zero.mpr undefined.2))
    next defined =>
      have defined : f.toRat = 0 → 0 ≤ n := fun zero =>
        not_lt.mp fun negative => defined ⟨zero, negative⟩
      have hb : b ≠ 0 := nonzero ((em (f.toRat = 0)).symm.imp_right defined)
      -- a power that is computed at all is far within the range of doubles
      have bound : a.natAbs ≤ 2 ^ 256 := by
        unfold Fraction.bitWidth at small
        have wider := not_lt.mp small
        rcases part with rfl | rfl
        · exact Fraction.natAbs_pow_le ((Nat.mul_le_mul_left _ (le_max_left ..)).trans wider)
        · exact Fraction.natAbs_pow_le ((Nat.mul_le_mul_left _ (le_max_right ..)).trans wider)
      have inside := Double.abs_div_lt_range hb
        ((Nat.add_le_add_right bound _).trans_lt (by decide +kernel))
      obtain ⟨s, quotient, rounds⟩ := ofQuotient_rounds_of_lt hb inside
      rw [value] at rounds
      refine .of_ok (congrArg (some <$> ·) quotient) ?_
      rintro _ ⟨rfl⟩
      refine ⟨fun zero => Int.cast_nonneg (defined zero), fun r hr => ?_⟩
      rw [rounds.toRat_eq hr]
      exact .whole _ _

/-- A power that is not too wide to compute and not too wide for a fraction is one. -/
theorem exactPower?_of_narrow [Exactness] {n : ℤ} (nonzero : f.toRat ≠ 0)
    (small : n.natAbs * f.bitWidth ≤ Fraction.powerLimit) (narrow : Narrow (f.toRat ^ n)) :
    exactPower? f n = .ok (some (exact (.ofRat (f.toRat ^ n)))) := by
  obtain ⟨a, b, hb, value, -, power⟩ := exactPower?_eq f n
  rw [← value] at narrow
  rw [power, if_neg (not_lt.mpr small), if_neg fun undefined => nonzero undefined.1,
    ofQuotient_eq a (hb (.inl nonzero)) narrow, value]
  rfl

variable [Tolerance]

/-- An integer power whose lowest terms are narrow is exact. -/
theorem wholePower_of_narrow [Exactness] {n : ℤ} (hn : n ≠ 0) (nonzero : f.toRat ≠ 0)
    (small : n.natAbs * f.bitWidth ≤ Fraction.powerLimit) (narrow : Narrow (f.toRat ^ n)) :
    wholePower f n = .ok (exact (.ofRat (f.toRat ^ n))) := by
  unfold wholePower
  rw [if_neg hn, exactPower?_of_narrow nonzero small narrow]
  rfl

/-- Zero to a negative power fails also where doubles are used. -/
theorem approxPower_ends (f g : Fraction) : Ends (approxPower (exact f) (exact g))
    (PowerFailure f.toRat g.toRat) (MayBePower f.toRat g.toRat) := by
  -- the test is on the signs of the fractions, and the failure speaks of their values
  have undefined_iff : ((exact f).isZero && decide ((exact g).sgn < 0)) = true ↔
      f.toRat = 0 ∧ g.toRat < 0 := by
    rw [Bool.and_eq_true, decide_eq_true_iff]
    exact and_congr f.isZero_iff g.sgn_neg_iff
  unfold approxPower
  split
  next undefined =>
    obtain ⟨zero, negative⟩ := undefined_iff.mp undefined
    exact .throw (.zeroToNegative zero negative)
  next defined =>
    refine approximate_ends ?doubles fun zero => ?defined
    case doubles =>
      refine .bind (f.toDouble_failsAs_range.mono ?base) fun v => ?_
      case base =>
        rintro e ⟨rfl, outside⟩
        exact .base outside
      refine .bind (g.toDouble_failsAs_range.mono ?exponent) fun w => .pure _
      rintro e ⟨rfl, outside⟩
      exact .exponent outside
    case defined =>
      exact not_lt.mp fun negative => defined (undefined_iff.mpr ⟨zero, negative⟩)

/-- How an integer power ends: what is not computed is left to doubles. -/
theorem wholePower_ends (f : Fraction) (n : ℤ) :
    Ends (wholePower f n) (PowerFailure f.toRat n) (MayBePower f.toRat n) := by
  unfold wholePower
  split
  next zero =>
    rw [zero, Int.cast_zero]
    exact .pure (mayBePower_one _)
  next =>
    refine .bind (exactPower?_ends f n) fun o ho => ?_
    cases o with
    | some s => exact .pure (ho s rfl)
    | none =>
      have power := approxPower_ends f (.ofInt n)
      rwa [Fraction.toRat_ofInt] at power

end Scalar

namespace Value

/-- The value may stand for the power: that is defined, and if the value is a fraction it is the
power. -/
structure MayBePower (x y : ℚ) (v : Value) : Prop where
  defined : x = 0 → 0 ≤ y
  exact : ∀ r, v = .exact r → IsPower x y r.toRat

variable {f g : Fraction} {x y : ℚ} {F : Failure → Prop}

/-- What holds of a scalar holds of it as a value. -/
theorem mayBePower_plain {s : Scalar} (h : s.MayBePower x y) : (plain s).MayBePower x y where
  defined := h.defined
  exact := by
    rintro r ⟨rfl⟩
    exact h.exact r rfl

variable [Tolerance]

/-- What becomes of a multiple of a power to which none of the simpler rules applies. -/
theorem collapse_power_eq [Exactness] {mult : Scalar} {base exponent : Double} {o : Option Fraction}
    (nonzero : mult.isZero = false) (zero : exponent.isZero = false) (one : base.equals 1 = false)
    (found : wholeBase? base exponent = .ok o) :
    collapse mult (.power base exponent) =
      o.elim (.ok (symbolic mult (.power base exponent))) fun q => do
        return plain (← mult.mul (← Scalar.wholePower q exponent.toInt)) := by
  unfold collapse
  rw [nonzero]
  dsimp only
  rw [zero, one, found]
  cases o <;> rfl

/-- No rule makes a multiple of a power plain, unless the base is one, the exponent is an integer,
or the multiple is zero. -/
theorem collapse_power [Exactness] {mult : Scalar} {base exponent : Double}
    (nonzero : mult.isZero = false) (other : base.value ≠ 1)
    (broken : ∀ k : ℤ, exponent.value ≠ k) :
    collapse mult (.power base exponent) = .ok (symbolic mult (.power base exponent)) := by
  -- each rule has a test that fails: an exponent zero, an integer exponent, or a base one
  have zero : exponent.isZero = false := by
    by_contra zero
    rw [Bool.not_eq_false] at zero
    exact broken 0 ((Double.value_of_isZero zero).trans Int.cast_zero.symm)
  have integral : exponent.isIntegral = false := by
    by_contra integral
    obtain ⟨k, hk⟩ := Double.value_of_isIntegral (Bool.not_eq_false _ ▸ integral)
    exact broken k hk
  have one : base.equals 1 = false := by
    by_contra one
    exact other (Double.value_of_equals_one (Bool.not_eq_false _ ▸ one))
  have kept : wholeBase? base exponent = .ok none := by
    unfold wholeBase?
    rw [integral]
    rfl
  exact collapse_power_eq nonzero zero one kept

/-- Zero and one are their own roots, and any other number keeps its square root symbolic. -/
theorem symbolicRoot_ends (narrow : Narrow x) (real : 0 ≤ x) (other : ¬(x.num < 2 ∧ x.den < 2))
    (hy : Narrow y) :
    Ends (if (Fraction.ofRat y).den = 2 then do
      let base ← (Fraction.ofRat x).toDouble
      let exponent ← (Fraction.ofRat y).toDouble
      some <$> collapse .one (.power base exponent)
    else pure none) F fun o => ∀ v, o = some v → v.MayBePower x y := by
  split
  next half =>
    have half : y.den = 2 := Int.natCast_inj.mp half
    have hx := (Fraction.isNarrow_ofRat x).mpr narrow
    have hy := (Fraction.isNarrow_ofRat y).mpr hy
    obtain ⟨v, base, -⟩ := Fraction.toDouble_narrow hx
    obtain ⟨w, exponent, -⟩ := Fraction.toDouble_narrow hy
    have zero : x ≠ 0 := fun zero => other (by rw [zero]; decide)
    have one : x ≠ 1 := fun one => other (by rw [one]; decide)
    have positive : 0 < x := lt_of_le_of_ne real zero.symm
    -- an exponent in lowest terms over two has an odd numerator
    have odd : Odd y.num := by
      rw [← Int.not_even_iff_odd]
      intro even
      have common := Nat.dvd_gcd (Int.natAbs_dvd_natAbs.mpr even.two_dvd) half.symm.dvd
      rw [y.reduced.gcd_eq_one] at common
      exact absurd common (by decide)
    have symbolic := collapse_power (show Scalar.one.isZero = false from rfl)
      (Fraction.value_ofRat_ne_one positive narrow base one)
      (Fraction.value_half_odd hy odd (congrArg Nat.cast half) exponent)
    rw [base, exponent]
    refine .of_ok (congrArg (some <$> ·) symbolic) ?_
    rintro _ ⟨rfl⟩
    exact ⟨fun undefined => absurd undefined zero, nofun⟩
  next => exact .none

/-- The quotient of exact roots to the numerator of the exponent. -/
theorem quotientPower_ends {n d : ℤ} (real : 0 ≤ x) (hy : Narrow y) (hn : n ^ y.den = x.num)
    (hd : d ^ y.den = (x.den : ℤ)) :
    Ends (do return some (plain (← Scalar.wholePower (← Fraction.ofParts n d) y.num)))
      (PowerFailure x y) fun o => ∀ v, o = some v → v.MayBePower x y := by
  have nonzero : d ≠ 0 := by
    rintro rfl
    rw [zero_pow y.den_ne_zero] at hd
    exact x.den_ne_zero (by exact_mod_cast hd.symm)
  refine .bind (.of_ok (dif_neg nonzero) (Q := (· = ⟨n, d, nonzero⟩)) rfl) fun _ quotient => ?_
  subst quotient
  have power := (Scalar.wholePower_ends ⟨n, d, nonzero⟩ y.num).mono
    (fun e he => PowerFailure.of_roots hy hn hd he) fun s hs => hs.of_roots real hn hd
  refine .bind power fun s hs => .pure ?_
  rintro _ ⟨rfl⟩
  exact mayBePower_plain hs

variable [DoubleRoot]

/-- A fraction to a power that is no integer. -/
theorem rootPower?_ends (f : Fraction) (hy : Narrow y) (broken : y.den ≠ 1) :
    Ends (rootPower? f (.ofRat y)) (PowerFailure f.toRat y) fun o =>
      ∀ v, o = some v → v.MayBePower f.toRat y := by
  unfold rootPower?
  split
  · exact .none
  next sign =>
  have real : 0 ≤ f.toRat := not_lt.mp (mt f.sgn_neg_iff.mpr sign)
  refine .bind (Scalar.reduceExact_ends f "num" (.num real · broken) .base) fun r hr => ?_
  obtain ⟨rfl, narrow⟩ := hr
  have order : 0 < (Fraction.ofRat y).den := Int.natCast_pos.mpr y.den_pos
  obtain ⟨n, hn, above⟩ := Fraction.exactRoot?_sound (Rat.num_nonneg.mpr real) order
  obtain ⟨d, hd, below⟩ := Fraction.exactRoot?_sound (Int.natCast_nonneg f.toRat.den) order
  refine .bind (.of_ok hn (Q := (· = n)) rfl) fun _ hn' => ?_
  refine .bind (.of_ok hd (Q := (· = d)) rfl) fun _ hd' => ?_
  subst hn' hd'
  split
  next n d => exact quotientPower_ends real hy (above n rfl).2 (below d rfl).2
  next missing =>
    refine symbolicRoot_ends narrow real (fun small => ?_) hy
    -- small parts are their own roots, and so none is missing
    have num := Fraction.exactRoot?_of_lt_two (k := (Fraction.ofRat y).den) small.1
    have den := Fraction.exactRoot?_of_lt_two (n := f.toRat.den) (k := (Fraction.ofRat y).den)
      (by omega)
    exact missing _ _ (Except.ok.inj (hn.symm.trans num)) (Except.ok.inj (hd.symm.trans den))

/-- How a power of fractions ends where no doubles are asked. -/
theorem fractionPower?_ends (f g : Fraction) :
    Ends (fractionPower? f g) (PowerFailure f.toRat g.toRat) fun o =>
      ∀ v, o = some v → v.MayBePower f.toRat g.toRat := by
  unfold fractionPower?
  refine .bind (Scalar.reduceExact_ends g "den" .den .exponent) fun r hr => ?_
  obtain ⟨rfl, narrow⟩ := hr
  split
  next integer =>
    have whole : ((Fraction.ofRat g.toRat).num : ℚ) = g.toRat :=
      Rat.den_eq_one_iff _ |>.mp (Int.natCast_inj.mp integer)
    have power := Scalar.exactPower?_ends f (Fraction.ofRat g.toRat).num
    rw [whole] at power
    refine .bind power fun o ho => .pure fun v hv => ?_
    obtain ⟨s, found, rfl⟩ := Option.map_eq_some_iff.mp hv
    exact mayBePower_plain (ho s found)
  next broken => exact rootPower?_ends f narrow fun one => broken (congrArg Nat.cast one)

omit [DoubleRoot] in
/-- How a power ends that is left to doubles. -/
theorem powDoubles_ends (f g : Fraction) : Ends (powDoubles (exact f) (exact g))
    (PowerFailure f.toRat g.toRat) (MayBePower f.toRat g.toRat) := by
  have scalars : powDoubles (exact f) (exact g) =
      plain <$> Scalar.approxPower (.exact f) (.exact g) := by
    have asked : Calc.both (exact f).isZero (return (← (exact g).sgn) < 0) =
        .ok (f.isZero && decide (g.sgn < 0)) := Calc.both_eq_ok rfl rfl
    unfold powDoubles Scalar.approxPower
    rw [asked, apply_ite (plain <$> ·)]
    rfl
  rw [scalars]
  exact .map ((Scalar.approxPower_ends f g).mono (fun _ => id) fun s hs => mayBePower_plain hs)

/-- **How a power of fractions ends**, whatever the guesses for the roots are: a fraction that
comes back is the power, and there are few ways to fail. -/
theorem pow_ends (f g : Fraction) :
    Ends ((exact f).pow (exact g)) (PowerFailure f.toRat g.toRat)
      (MayBePower f.toRat g.toRat) := by
  show Ends (plainPow (.exact f) (plain (.exact g))) _ _
  unfold plainPow
  refine .bind (.of_ok (Q := (· = g.isZero)) rfl rfl) fun c hc => ?_
  split
  next zero =>
    rw [hc, g.isZero_iff] at zero
    rw [zero]
    exact .pure (mayBePower_plain (Scalar.mayBePower_one _))
  next =>
    refine .bind (fractionPower?_ends f g) fun o ho => ?_
    cases o with
    | some v => exact .pure (ho v rfl)
    | none => exact powDoubles_ends f g

/-! ### Failures -/

/-- Everything to the power zero is one, zero too. -/
theorem pow_of_zero (zero : g.toRat = 0) : (exact f).pow (exact g) = .ok one := by
  have zero : (exact g).isZero = .ok true := congrArg Except.ok (g.isZero_iff.mpr zero)
  show plainPow (.exact f) (plain (.exact g)) = _
  unfold plainPow
  rw [show (plain (.exact g)).isZero = .ok true from zero]
  rfl

/-- A power to another exponent than zero. -/
theorem pow_of_ne_zero (nonzero : g.toRat ≠ 0) : (exact f).pow (exact g) = (do
    match ← fractionPower? f g with
    | some r => pure r
    | none => powDoubles (exact f) (exact g)) := by
  have zero : (exact g).isZero = .ok false :=
    congrArg Except.ok (Bool.eq_false_iff.mpr (mt g.isZero_iff.mp nonzero))
  show plainPow (.exact f) (plain (.exact g)) = _
  unfold plainPow
  rw [show (plain (.exact g)).isZero = .ok false from zero]
  rfl

/-- An exponent that is too wide fails, whatever the base is. -/
theorem pow_of_wide_exponent (wide : ¬Narrow g.toRat) (inside : |g.toRat| < Double.range) :
    (exact f).pow (exact g) = .error (.widened "den") := by
  have nonzero : g.toRat ≠ 0 := fun zero => wide (zero ▸ Narrow.zero)
  have reduced := Scalar.reduceExact_of_wide wide inside "den"
  rw [pow_of_ne_zero nonzero, fractionPower?, reduced]
  rfl

/-- A root of a base that is too wide fails. -/
theorem pow_of_wide_base (hg : Narrow g.toRat) (broken : g.toRat.den ≠ 1) (real : 0 ≤ f.toRat)
    (wide : ¬Narrow f.toRat) (inside : |f.toRat| < Double.range) :
    (exact f).pow (exact g) = .error (.widened "num") := by
  have nonzero : g.toRat ≠ 0 := fun zero => broken (zero ▸ rfl)
  have exponent := Scalar.reduceExact_of_narrow hg "den"
  have base := Scalar.reduceExact_of_wide wide inside "num"
  have order : (Fraction.ofRat g.toRat).den ≠ 1 := fun one => broken (Int.natCast_inj.mp one)
  have sign : ¬f.sgn < 0 := fun negative => not_le.mpr (f.sgn_neg_iff.mp negative) real
  have root : fractionPower? f g = .error (.widened "num") := by
    unfold fractionPower?
    rw [exponent]
    refine (if_neg order).trans ?_
    unfold rootPower?
    rw [if_neg sign, base]
    rfl
  rw [pow_of_ne_zero nonzero, root]
  rfl

/-- **The failures of powers within the range of doubles.** Apart from zero to a negative power,
these are the exponents that are too wide, and the roots of numbers that are. -/
theorem pow_eq_error_iff (hf : |f.toRat| < Double.range) (hg : |g.toRat| < Double.range)
    (e : Failure) : (exact f).pow (exact g) = .error e ↔
      (e = .widened "den" ∧ ¬Narrow g.toRat) ∨
      (e = .widened "num" ∧ Narrow g.toRat ∧ g.toRat.den ≠ 1 ∧ 0 ≤ f.toRat ∧ ¬Narrow f.toRat) ∨
      (e = .undefined .zeroToNegative ∧ Narrow g.toRat ∧ f.toRat = 0 ∧ g.toRat < 0) := by
  -- the exponent is put in lowest terms first, and fails there if it is too wide
  by_cases narrow : Narrow g.toRat
  · obtain ⟨fails, returns⟩ := pow_ends f g
    constructor
    · intro failed
      rcases (fails e failed).of_narrow hf narrow with ⟨rfl, wide⟩ | ⟨rfl, undefined⟩
      · exact .inr (.inl ⟨rfl, narrow, wide⟩)
      · exact .inr (.inr ⟨rfl, narrow, undefined⟩)
    · rintro (⟨-, wide⟩ | ⟨rfl, -, broken, real, wide⟩ | ⟨rfl, -, zero, negative⟩)
      · exact absurd narrow wide
      · exact pow_of_wide_base narrow broken real wide hf
      · -- there is no result, and no other failure of zero
        cases power : (exact f).pow (exact g) with
        | ok v => exact absurd ((returns v power).defined zero) (not_le.mpr negative)
        | error e =>
          rcases (fails e power).of_narrow hf narrow with ⟨-, -, -, wide⟩ | ⟨rfl, -⟩
          · exact absurd (zero ▸ Narrow.zero) wide
          · rfl
  · rw [pow_of_wide_exponent narrow hg, Except.error.injEq, eq_comm]
    simp only [narrow, not_false_iff, and_true, false_and, and_false, or_false]

/-- **The square root of an integer above the width limit fails**, up to the range of doubles. -/
theorem pow_half_of_wide {n : ℤ} (wide : 2 ^ 53 < n) (inside : (n : ℚ) < Double.range) :
    (ofInt n).pow half = .error (.widened "num") := by
  have base := Fraction.toRat_ofInt n
  have exponent : (Fraction.halves 1).toRat = 1 / 2 := by norm_num [Fraction.toRat, Fraction.halves]
  have positive : (0 : ℚ) ≤ n := Int.cast_nonneg (by omega)
  refine pow_of_wide_base ?_ ?_ (base ▸ positive) ?_ ?_
  · rw [exponent]
    norm_num [Narrow]
  · rw [exponent]
    norm_num
  · rw [base]
    rintro ⟨num, -⟩
    rw [Rat.num_intCast] at num
    omega
  · rwa [base, abs_of_nonneg positive]

/-! ### Exact powers -/

/-- With roots of both parts the power is that of their quotient. -/
theorem rootPower?_of_roots [Exactness] {r : Fraction} {n d : ℤ} (real : 0 ≤ f.toRat)
    (hf : Narrow f.toRat)
    (hd : d ≠ 0) (top : Fraction.exactRoot? (Fraction.ofRat f.toRat).num r.den = .ok (some n))
    (bottom : Fraction.exactRoot? (Fraction.ofRat f.toRat).den r.den = .ok (some d)) :
    rootPower? f r = (fun s => some (plain s)) <$> Scalar.wholePower ⟨n, d, hd⟩ r.num := by
  have sign : ¬f.sgn < 0 := fun negative => not_le.mpr (f.sgn_neg_iff.mp negative) real
  have parts : Fraction.ofParts n d = .ok ⟨n, d, hd⟩ := dif_neg hd
  unfold rootPower?
  rw [if_neg sign, Scalar.reduceExact_of_narrow hf]
  show (Fraction.exactRoot? (Fraction.ofRat f.toRat).num r.den >>= _) = _
  rw [top]
  show (Fraction.exactRoot? (Fraction.ofRat f.toRat).den r.den >>= _) = _
  rw [bottom]
  show (Fraction.ofParts n d >>= _) = _
  rw [parts, map_eq_pure_bind]
  rfl

/-- A power whose base has exact roots is that of the quotient of these. -/
theorem fractionPower?_of_roots (accurate : DoubleRoot.Accurate) {x y : ℕ} (hf : Narrow f.toRat)
    (hg : Narrow g.toRat) (broken : g.toRat.den ≠ 1) (hx : 0 < x) (hy : 0 < y)
    (num : f.toRat.num = (x : ℤ) ^ g.toRat.den) (den : (f.toRat.den : ℤ) = (y : ℤ) ^ g.toRat.den)
    (small : g.toRat.num.natAbs * max (Fraction.bitLength x) (Fraction.bitLength y) ≤
      Fraction.powerLimit) (narrow : Narrow ((x / y : ℚ) ^ g.toRat.num)) :
    fractionPower? f g = .ok (some (exact (.ofRat ((x / y : ℚ) ^ g.toRat.num)))) := by
  have least : (2 : ℤ) ≤ g.toRat.den := by
    have := g.toRat.den_pos
    omega
  have most : (g.toRat.den : ℤ) ≤ 2 ^ 53 := by exact_mod_cast hg.2
  have positive : 0 < f.toRat.num := num ▸ pow_pos (Int.natCast_pos.mpr hx) _
  have top : f.toRat.num ≤ 2 ^ 53 := by
    have := hf.1
    omega
  have bottom : (f.toRat.den : ℤ) ≤ 2 ^ 53 := by exact_mod_cast hf.2
  -- the two roots are narrower than the base, so the fraction of them is formed
  have root : (⟨x, y, Int.natCast_ne_zero.mpr hy.ne'⟩ : Fraction).toRat = x / y := by
    simp [Fraction.toRat]
  have power : Scalar.wholePower ⟨x, y, Int.natCast_ne_zero.mpr hy.ne'⟩ g.toRat.num =
      .ok (.exact (.ofRat ((x / y : ℚ) ^ g.toRat.num))) := by
    rw [← root] at narrow ⊢
    refine Scalar.wholePower_of_narrow ?_ ?_ small narrow
    · exact Rat.num_ne_zero.mpr fun zero => broken (zero ▸ rfl)
    · rw [root]
      positivity
  have found := rootPower?_of_roots (r := .ofRat g.toRat) (Rat.num_nonneg.mp positive.le) hf
    (Int.natCast_ne_zero.mpr hy.ne')
    (Fraction.exactRoot?_of_pow accurate num.symm least most positive top)
    (Fraction.exactRoot?_of_pow accurate den.symm least most
      (Int.natCast_pos.mpr f.toRat.den_pos) bottom)
  have order : (Fraction.ofRat g.toRat).den ≠ 1 := fun one => broken (Int.natCast_inj.mp one)
  unfold fractionPower?
  rw [Scalar.reduceExact_of_narrow hg]
  refine (if_neg order).trans (found.trans ?_)
  rw [show (Fraction.ofRat g.toRat).num = g.toRat.num from rfl, power]
  rfl

/-- An integer power that is not too wide is a fraction. -/
theorem fractionPower?_of_integer [Exactness] (hg : Narrow g.toRat) (integer : g.toRat.den = 1)
    (nonzero : f.toRat ≠ 0) (small : g.toRat.num.natAbs * f.bitWidth ≤ Fraction.powerLimit)
    (narrow : Narrow (f.toRat ^ g.toRat.num)) :
    fractionPower? f g = .ok (some (exact (.ofRat (f.toRat ^ g.toRat.num)))) := by
  have order : (Fraction.ofRat g.toRat).den = 1 := congrArg Nat.cast integer
  have power : Scalar.exactPower? f (Fraction.ofRat g.toRat).num = _ :=
    Scalar.exactPower?_of_narrow nonzero small narrow
  unfold fractionPower?
  rw [Scalar.reduceExact_of_narrow hg]
  refine (if_pos order).trans ?_
  rw [power]
  rfl

/-- One is its own root, whatever the guess for that is, and its powers are one. -/
theorem one_pow [Exactness] {v : Value} {q : ℚ} (hv : v.Is q) (hq : q ≠ 0)
    (small : q.num.natAbs ≤ Fraction.powerLimit) : one.pow v = .ok one := by
  have isZero := hv.isZero_eq
  obtain ⟨s, rfl, f, rfl, hf, rfl⟩ := hv
  have narrow := Fraction.narrow_toRat hf
  have base : (Fraction.ofInt 1).toRat = 1 := (Fraction.toRat_ofInt 1).trans Int.cast_one
  have unit : Narrow ((Fraction.ofInt 1).toRat ^ f.toRat.num) := by
    rw [base, one_zpow]
    exact is_one.narrow
  have width : (Fraction.ofInt 1).bitWidth = 1 := by decide
  rw [← mul_one f.toRat.num.natAbs, ← width] at small
  have found : fractionPower? (.ofInt 1) f = .ok (some one) := by
    -- with one as the base every root and every power is one
    by_cases integer : f.toRat.den = 1
    · rw [fractionPower?_of_integer narrow integer (base.trans_ne one_ne_zero) small unit, base,
        one_zpow]
      rfl
    · have order : (Fraction.ofRat f.toRat).den ≠ 1 := fun one => integer (Int.natCast_inj.mp one)
      have power : Scalar.wholePower (.ofInt 1) f.toRat.num = _ :=
        Scalar.wholePower_of_narrow (Rat.num_ne_zero.mpr hq) (base.trans_ne one_ne_zero) small unit
      refine Calc.bind_eq_ok.mpr ⟨_, Scalar.reduceExact_of_narrow narrow "den", ?_⟩
      rw [if_neg order]
      show (do return some (plain (← Scalar.wholePower (.ofInt 1) f.toRat.num))) = _
      rw [power, base, one_zpow]
      rfl
  show plainPow (.ofInt 1) (plain (.exact f)) = _
  unfold plainPow
  rw [isZero, decide_eq_false hq]
  exact Calc.bind_eq_ok.mpr ⟨_, rfl, Calc.bind_eq_ok.mpr ⟨_, found, rfl⟩⟩

/-- **A power that comes back as a fraction is exact, and powers with exact roots come back.** The
first holds whatever the guesses for the roots are. For the second they have to be accurate, and
the base is positive and in lowest terms, with parts that are powers of `x` and `y`. -/
theorem pow_exact (f g : Fraction) :
    (∀ r, (exact f).pow (exact g) = .ok (exact r) →
      (0 ≤ f.toRat ∨ g.toRat.den = 1) ∧ r.toRat ^ g.toRat.den = f.toRat ^ g.toRat.num ∧
        (f.toRat = 0 → 0 ≤ g.toRat)) ∧
    (DoubleRoot.Accurate → f.isNarrow = true → g.isNarrow = true →
      f.num.natAbs.Coprime f.den.natAbs → 0 < f.toRat →
      ∀ x y : ℕ, f.num.natAbs = x ^ g.toRat.den → f.den.natAbs = y ^ g.toRat.den →
        g.toRat.num.natAbs * Fraction.bitLength (max x y : ℕ) ≤ Fraction.powerLimit →
        Narrow ((x / y : ℚ) ^ g.toRat.num) →
        (exact f).pow (exact g) = .ok (exact (.ofRat ((x / y : ℚ) ^ g.toRat.num)))) := by
  constructor
  · intro r power
    obtain ⟨defined, exact⟩ := (pow_ends f g).returns _ power
    obtain ⟨real, value⟩ := exact r rfl
    exact ⟨real, value, defined⟩
  intro accurate hf hg coprime positive x y num den small narrow
  rw [Fraction.bitLength_max] at small
  have hf' := Fraction.narrow_toRat hf
  have hg' := Fraction.narrow_toRat hg
  have order := g.toRat.den_ne_zero
  have hx : 0 < x := by
    refine Nat.pos_of_ne_zero fun zero => positive.ne' (f.toRat_eq_zero_iff.mpr ?_)
    rw [← Int.natAbs_eq_zero, num, zero, zero_pow order]
  have hy : 0 < y := by
    refine Nat.pos_of_ne_zero fun zero => f.den_ne_zero ?_
    rw [← Int.natAbs_eq_zero, den, zero, zero_pow order]
  obtain ⟨top, bottom⟩ := f.parts_of_coprime positive coprime
  rw [num] at top
  rw [den] at bottom
  -- the three rules in turn: the power zero, an integer power of the base itself, and roots
  by_cases zero : g.toRat = 0
  · rw [pow_of_zero zero, zero, Rat.num_zero, zpow_zero]
    rfl
  rw [pow_of_ne_zero zero]
  by_cases integer : g.toRat.den = 1
  · rw [integer, pow_one] at num den top bottom
    have base : f.toRat = x / y := by
      rw [← f.toRat.num_div_den, top, bottom]
      rfl
    have width : f.bitWidth = max (Fraction.bitLength x) (Fraction.bitLength y) := by
      rw [← num, ← den, Fraction.bitLength_natAbs, Fraction.bitLength_natAbs]
      rfl
    rw [← width] at small
    rw [← base] at narrow ⊢
    rw [fractionPower?_of_integer hg' integer positive.ne' small narrow]
    rfl
  · rw [fractionPower?_of_roots accurate hf' hg' integer hx hy (by rw [top]; push_cast; rfl)
      (by rw [bottom]; push_cast; rfl) small narrow]
    rfl

omit [Tolerance] [DoubleRoot] in
/-- The square of the cube root of `8 / 27`. -/
theorem pow_exact_cube_root :
    letI := Double.standardTolerance
    letI := DoubleRoot.rounded
    let f : Fraction := ⟨8, 27, by decide⟩
    let g : Fraction := ⟨2, 3, by decide⟩
    (exact f).pow (exact g) = .ok (exact (.ofRat (4 / 9))) ∧ (0 ≤ f.toRat ∨ g.toRat.den = 1) ∧
      (Fraction.ofRat (4 / 9)).toRat ^ g.toRat.den = f.toRat ^ g.toRat.num := by
  let := Double.standardTolerance
  let := DoubleRoot.rounded
  intro f g
  have base : f.toRat = 8 / 27 := by norm_num [Fraction.toRat, f]
  have num : g.toRat.num = 2 := by decide +kernel
  have den : g.toRat.den = 3 := by decide +kernel
  obtain ⟨exact, root⟩ := pow_exact f g
  have power := root DoubleRoot.rounded_accurate (by decide) (by decide) (by decide)
    (by rw [base]; norm_num) 2 3 (by rw [den]; rfl) (by rw [den]; rfl)
    -- the roots of numerator and denominator, the width of the result
    (by rw [num]; decide +kernel) (by rw [num]; unfold Narrow; decide +kernel)
  have value : ((2 : ℕ) / (3 : ℕ) : ℚ) ^ g.toRat.num = 4 / 9 := by
    rw [num]
    norm_num
  rw [value] at power
  obtain ⟨real, same, -⟩ := exact _ power
  exact ⟨power, real, same⟩

end Value

end SymbolicAlgebra
