import SymbolicAlgebra.Proofs.Exact.Powers
import SymbolicAlgebra.Proofs.Exact.Recovery

/-!
# Squares of square roots

The square root of a positive rational is a rational if the roots of both parts are found, and
otherwise it keeps the double of the rational as the base of a symbolic power
(`Value.pow_half`). Its square is the base to the power one, and that goes through
`Value.collapse`: a base with the name of a constant is kept, and any other is recovered as a
fraction. So the square is the rational or symbolic, and it has the double of the rational in
either case.

`Value.pow_half_mul_self` says when it is the rational. Integers come back, and so do fractions that
stand alone (`StandsAlone`) if their double counts as none of the constants. Others may not, and
`Value.mul_self_lost` has one of each kind.
-/

namespace SymbolicAlgebra

/-! ## Products and powers with one -/

namespace Double

variable {v w : Double}

/-- A positive number is the value of one double only. -/
theorem eq_of_value (hv : v.isFinite = true) (hw : w.isFinite = true) (positive : 0 < v.value)
    (same : w.value = v.value) : w = v := by
  have hv' := isNegative_eq_false hv positive
  have hw' := isNegative_eq_false hw (same ▸ positive)
  obtain ⟨m, e, canonical, bits, value⟩ := value_eq hv
  obtain ⟨n, k, canonical', bits', value'⟩ := value_eq hw
  rw [hv', if_neg Bool.false_ne_true] at value
  rw [hw', if_neg Bool.false_ne_true] at value'
  rw [value, value'] at same
  have below := (canonical.lt_iff canonical').not.mp same.le.not_gt
  have above := (canonical'.lt_iff canonical).not.mp same.ge.not_gt
  obtain rfl : e = k := by omega
  obtain rfl : m = n := by omega
  exact eq_of_isNegative_of_magnitude (hw'.trans hv'.symm) (bits'.trans bits.symm)

/-- Multiplication by one does not round. -/
theorem one_mul_eq (finite : v.isFinite = true) (positive : 0 < v.value) : 1 * v = v := by
  have value : (1 : Double).value * v.value = v.value := by rw [one_spec.2.1, one_mul]
  have product := mul_isNearest one_spec.1 finite (by
    rw [value]
    linarith [abs_value_lt finite])
  rw [value] at product
  exact eq_of_value finite product.finite positive (product.eq_value finite rfl)

/-- A positive number to the power one is itself. -/
theorem power_one [Tolerance] (finite : v.isFinite = true) (positive : 0 < v.value) :
    power v 1 = v := by
  obtain ⟨finite', value, zero, whole, -⟩ := one_spec
  have sign : decide ((1 : Double) < 0) = false := by
    rw [decide_eq_false_iff_not, lt_iff_value finite' zero_spec.1, value, zero_spec.2]
    norm_num
  have pow : v.pow 1 = v := by
    unfold pow
    rw [zero, isNaN_eq_false finite, equals_self finite', if_neg Bool.false_ne_true,
      if_neg Bool.false_ne_true]
    split
    next one =>
      exact eq_of_value finite finite' positive (value.trans (value_of_equals_one one).symm)
    next => rfl
  unfold power
  rw [whole, sign, Bool.not_true, Bool.and_false, Bool.and_false]
  exact pow

end Double

namespace Fraction

variable {f : Fraction}

/-- Narrow parts have few bits. -/
theorem bitWidth_le (h : f.isNarrow = true) : f.bitWidth ≤ 54 := by
  have part {m : ℤ} (hm : m.natAbs ≤ 2 ^ 53) : bitLength m ≤ 54 := by
    unfold bitLength
    split
    · exact Nat.zero_le _
    next nonzero =>
      have := (Nat.log2_lt (Int.natAbs_ne_zero.mpr nonzero)).mpr
        (hm.trans_lt (by norm_num : 2 ^ 53 < 2 ^ 54))
      omega
  obtain ⟨num, den⟩ := (isNarrow_iff f).mp h
  exact max_le (part num) (part den)

/-- With accurate guesses the parts of a square have roots. -/
theorem exactRoot?_of_isSquare [DoubleRoot] (accurate : DoubleRoot.Accurate) {r : ℚ}
    (hr : 0 < r) (narrow : Narrow r) (square : IsSquare r) :
    (∃ n, exactRoot? r.num 2 = .ok (some n)) ∧ ∃ d, exactRoot? r.den 2 = .ok (some d) := by
  have root {m : ℤ} (hm : 0 < m) (most : m ≤ 2 ^ 53) (square : IsSquare m) :
      ∃ c, exactRoot? m 2 = .ok (some c) := by
    obtain ⟨c, rfl⟩ := square
    refine ⟨c.natAbs, exactRoot?_of_pow accurate ?_ le_rfl (by norm_num) hm most⟩
    rw [Int.natCast_natAbs]
    exact (sq_abs c).trans (sq c)
  obtain ⟨num, den⟩ := Rat.isSquare_iff.mp square
  have bottom : (r.den : ℤ) ≤ 2 ^ 53 := by exact_mod_cast narrow.2
  refine ⟨root (Rat.num_pos.mpr hr) ?_ num, root (Int.natCast_pos.mpr r.den_pos) bottom ?_⟩
  · have := narrow.1
    omega
  · obtain ⟨c, hc⟩ := den
    exact ⟨c, by exact_mod_cast hc⟩

end Fraction

namespace Scalar

variable [Exactness] {q : ℚ}

/-- The first power of a narrow fraction. -/
theorem wholePower_one [Tolerance] (hq : q ≠ 0) (narrow : Narrow q) {f : Fraction}
    (value : f.toRat = q) (hf : f.isNarrow = true) : wholePower f 1 = .ok (exact (.ofRat q)) := by
  have small : (1 : ℤ).natAbs * f.bitWidth ≤ Fraction.powerLimit := by
    rw [Int.natAbs_one, one_mul]
    exact (Fraction.bitWidth_le hf).trans (by decide)
  have power := wholePower_of_narrow (n := 1) one_ne_zero (value.trans_ne hq) small
    (by rwa [value, zpow_one])
  rwa [value, zpow_one] at power

end Scalar

namespace Value

/-- One half in lowest terms, and its double, two of which add up to one. -/
theorem half_spec : (Fraction.ofRat (1 / 2)).num = 1 ∧ (Fraction.ofRat (1 / 2)).den = 2 ∧
    (Fraction.ofRat (1 / 2)).toDouble = .ok 0.5 ∧ (0.5 : Double) + 1 * 0.5 = 1 := by
  decide +kernel

variable [Tolerance] {r : ℚ} {v : Double}

/-! ## The root -/

section

variable [DoubleRoot]

/-- Where a part has no exact root, the square root stays symbolic. -/
theorem rootPower?_half_of_missing {n d : Option ℤ} (hr : 0 < r) (narrow : Narrow r) (other : r ≠ 1)
    (double : (Fraction.ofRat r).toDouble = .ok v) (hn : Fraction.exactRoot? r.num 2 = .ok n)
    (hd : Fraction.exactRoot? r.den 2 = .ok d) (missing : n = none ∨ d = none) :
    rootPower? (.ofRat r) (.ofRat (1 / 2)) = .ok (some (symbolic .one (.power v 0.5))) := by
  obtain ⟨num, den, exponent, -⟩ := half_spec
  have sign : ¬(Fraction.ofRat r).sgn < 0 := fun negative => by
    have := (Fraction.ofRat r).sgn_neg_iff.mp negative
    rw [Fraction.toRat_ofRat] at this
    exact lt_asymm hr this
  have terms := Scalar.reduceExact_of_narrow (f := .ofRat r) (by rwa [Fraction.toRat_ofRat]) "num"
  rw [Fraction.toRat_ofRat] at terms
  have collapsed := collapse_power (show Scalar.one.isZero = false from rfl)
    (Fraction.value_ofRat_ne_one hr narrow double other)
    (Fraction.value_half_odd (by rw [Fraction.isNarrow_iff, num, den]; norm_num)
      (num ▸ odd_one) den exponent)
  -- without a root of one of the parts the power keeps its double and its exponent
  have fallback : (do
      let base ← (Fraction.ofRat r).toDouble
      let exponent ← (Fraction.ofRat (1 / 2)).toDouble
      some <$> collapse .one (.power base exponent)) =
        Except.ok (some (symbolic .one (.power v 0.5))) := by
    rw [double, exponent]
    exact congrArg (some <$> ·) collapsed
  unfold rootPower?
  rw [if_neg sign, terms, den]
  show (Fraction.exactRoot? r.num 2 >>= _) = _
  rw [hn]
  show (Fraction.exactRoot? r.den 2 >>= _) = _
  rw [hd]
  rcases missing with rfl | rfl
  · exact fallback
  · cases n <;> exact fallback

/-- Where both parts have exact roots, the square root is their quotient. -/
theorem rootPower?_half_of_roots {n d : ℤ} (hr : 0 < r) (narrow : Narrow r)
    (hn : Fraction.exactRoot? r.num 2 = .ok (some n))
    (hd : Fraction.exactRoot? r.den 2 = .ok (some d)) :
    ∃ t, t * t = r ∧
      rootPower? (.ofRat r) (.ofRat (1 / 2)) = .ok (some (exact (.ofRat t))) := by
  obtain ⟨num, den, -⟩ := half_spec
  -- an exact root is positive and no wider than the integer it is a root of
  have root {m c : ℤ} (hm : 0 < m) (found : Fraction.exactRoot? m 2 = .ok (some c)) :
      0 < c ∧ c ^ 2 = m ∧ c.natAbs ≤ m.natAbs := by
    obtain ⟨o, found', sound⟩ := Fraction.exactRoot?_sound (n := m) (k := 2) hm.le two_pos
    obtain rfl : some c = o := Except.ok.inj (found.symm.trans found')
    obtain ⟨nonneg, square⟩ := sound c rfl
    have square : c ^ 2 = m := square
    have positive : 0 < c := by
      refine lt_of_le_of_ne nonneg fun zero => hm.ne ?_
      rw [← square, ← zero, zero_pow two_ne_zero]
    refine ⟨positive, square, Int.natAbs_le_of_dvd_ne_zero ?_ hm.ne'⟩
    rw [← square]
    exact dvd_pow_self c two_ne_zero
  obtain ⟨npos, nsquare, nwidth⟩ := root (Rat.num_pos.mpr hr) hn
  obtain ⟨dpos, dsquare, dwidth⟩ := root (Int.natCast_pos.mpr r.den_pos) hd
  rw [Int.natAbs_natCast] at dwidth
  have square : (n / d : ℚ) * (n / d) = r := by
    rw [← sq]
    exact quotient_pow nsquare dsquare
  refine ⟨n / d, square, ?_⟩
  have positive : (0 : ℚ) < n / d := div_pos (Int.cast_pos.mpr npos) (Int.cast_pos.mpr dpos)
  have quotient : (⟨n, d, dpos.ne'⟩ : Fraction).isNarrow = true :=
    (Fraction.isNarrow_iff _).mpr ⟨nwidth.trans narrow.1, dwidth.trans narrow.2⟩
  have power := Scalar.wholePower_one positive.ne' (Fraction.narrow_toRat quotient) rfl quotient
  have found := rootPower?_of_roots (f := .ofRat r) (r := .ofRat (1 / 2))
    (by rw [Fraction.toRat_ofRat]; exact hr.le) (by rwa [Fraction.toRat_ofRat]) dpos.ne'
    (by rw [Fraction.toRat_ofRat, den]; exact hn) (by rw [Fraction.toRat_ofRat, den]; exact hd)
  rw [found, num, power]
  rfl

/-- The power one half is the square root. -/
theorem pow_half_of_root {s : Value}
    (root : rootPower? (.ofRat r) (.ofRat (1 / 2)) = .ok (some s)) :
    (exact (.ofRat r)).pow half = .ok s := by
  have exponent : (Fraction.halves 1).toRat = 1 / 2 := by norm_num [Fraction.toRat, Fraction.halves]
  have terms := Scalar.reduceExact_of_narrow (f := .halves 1)
    (by rw [exponent]; norm_num [Narrow]) "den"
  rw [exponent] at terms
  have order : (Fraction.ofRat (1 / 2)).den ≠ 1 := by
    rw [half_spec.2.1]
    norm_num
  have found : fractionPower? (.ofRat r) (.halves 1) = .ok (some s) := by
    unfold fractionPower?
    rw [terms]
    exact (if_neg order).trans root
  refine (pow_of_ne_zero (by rw [exponent]; norm_num)).trans ?_
  rw [found]
  rfl

/-- **The square root of a positive rational is a rational or symbolic.** With accurate guesses
the root of a square is rational. -/
theorem pow_half (hr : 0 < r) (narrow : Narrow r)
    (double : (Fraction.ofRat r).toDouble = .ok v) :
    ∃ s, (exact (.ofRat r)).pow half = .ok s ∧
      ((∃ t, t * t = r ∧ s = exact (.ofRat t)) ∨
        r ≠ 1 ∧ ¬(DoubleRoot.Accurate ∧ IsSquare r) ∧ s = symbolic .one (.power v 0.5)) := by
  obtain ⟨n, hn, -⟩ := Fraction.exactRoot?_sound (k := 2) (Rat.num_nonneg.mpr hr.le) two_pos
  obtain ⟨d, hd, -⟩ := Fraction.exactRoot?_sound (k := 2) (Int.natCast_nonneg r.den) two_pos
  by_cases missing : n = none ∨ d = none
  · -- one is its own root, and so are the parts of a square with accurate guesses
    have other : r ≠ 1 := by
      rintro rfl
      have root : Fraction.exactRoot? 1 2 = .ok (some 1) :=
        Fraction.exactRoot?_of_lt_two (by decide)
      rcases missing with rfl | rfl
      · cases hn.symm.trans root
      · cases hd.symm.trans root
    refine ⟨_, pow_half_of_root
      (rootPower?_half_of_missing hr narrow other double hn hd missing), .inr ⟨other, ?_, rfl⟩⟩
    rintro ⟨accurate, square⟩
    obtain ⟨⟨_, top⟩, _, bottom⟩ := Fraction.exactRoot?_of_isSquare accurate hr narrow square
    rcases missing with rfl | rfl
    · cases hn.symm.trans top
    · cases hd.symm.trans bottom
  · -- both parts have roots, and the quotient of them is the root
    rw [not_or] at missing
    obtain ⟨n, rfl⟩ := Option.ne_none_iff_exists'.mp missing.1
    obtain ⟨d, rfl⟩ := Option.ne_none_iff_exists'.mp missing.2
    obtain ⟨t, square, root⟩ := rootPower?_half_of_roots hr narrow hn hd
    exact ⟨_, pow_half_of_root root, .inl ⟨t, square, rfl⟩⟩

end

/-! ## The first power of a double -/

/-- The first power of a double is that of the fraction that is recovered from it, if the double
has no name and is that of the fraction. -/
theorem wholeBase?_one (finite : v.isFinite = true) (least : 1 / 2 ^ 53 ≤ v.value)
    (most : v.value ≤ 2 ^ 53) : ∃ o, wholeBase? v 1 = .ok o ∧
      (∀ f, o = some f → f.toDouble = .ok v ∧ ∃ q, Narrow q ∧ f = .ofRat q) ∧
      ∀ f, f.toDouble = .ok v → (o = some f ↔
        v.isNamed = false ∧ Scalar.recover? (.snap v) = .ok (some (.exact f))) := by
  obtain ⟨-, -, -, whole, order⟩ := Double.one_spec
  have positive : 0 < v.value := lt_of_lt_of_le (by norm_num) least
  obtain ⟨s, q, recovered, rounds⟩ := Scalar.recover?_snap_ok finite least most
  unfold wholeBase?
  rw [whole, recovered, Bool.true_and, order, Int.natAbs_one]
  -- a double with a name is not recovered, and another one only as a narrow fraction
  cases v.isNamed with
  | true => exact ⟨none, rfl, nofun, fun f _ => iff_of_false nofun fun h => nomatch h.1⟩
  | false =>
    by_cases narrow : Narrow q
    · obtain rfl := rounds.1 narrow
      have width := (Fraction.isNarrow_ofRat q).mpr narrow
      obtain ⟨w, double, finite', -⟩ := Fraction.toDouble_narrow width
      have small : 1 * (Fraction.ofRat q).bitWidth ≤ Fraction.powerLimit := by
        rw [one_mul]
        exact (Fraction.bitWidth_le width).trans (by decide)
      have test : (do
          if (← (Fraction.ofRat q).toDouble).equals v &&
              1 * (Fraction.ofRat q).bitWidth ≤ Fraction.powerLimit then
            pure (some (Fraction.ofRat q))
          else pure none : Calc (Option Fraction)) =
            if w.equals v then .ok (some (.ofRat q)) else .ok none := by
        rw [double, decide_eq_true small]
        exact if_congr (by rw [Bool.and_true]) rfl rfl
      -- the fraction found counts only if its double is the base on the bit
      by_cases same : w.equals v = true
      · obtain rfl := Double.eq_of_value finite finite' positive (Double.value_of_equals same)
        refine ⟨some (.ofRat q), test.trans (if_pos same), ?_, fun f _ => by simp⟩
        rintro _ ⟨rfl⟩
        exact ⟨double, q, narrow, rfl⟩
      · refine ⟨none, test.trans (if_neg same), nofun, fun f hf => iff_of_false nofun ?_⟩
        rintro ⟨-, ⟨rfl⟩⟩
        obtain rfl := Except.ok.inj (double.symm.trans hf)
        exact same (Double.equals_self finite)
    · obtain ⟨w, -, rfl⟩ := rounds.2 narrow
      exact ⟨none, rfl, nofun, fun f _ => iff_of_false nofun fun h => nomatch h.2⟩

/-- A double to the power one, which is not one, becomes a fraction with this double, or stays. -/
theorem collapse_one_power (finite : v.isFinite = true) (least : 1 / 2 ^ 53 ≤ v.value)
    (most : v.value ≤ 2 ^ 53) (other : v.value ≠ 1) :
    ∃ p, collapse .one (.power v 1) = .ok p ∧ p.toDouble = .ok v ∧
      (p = symbolic .one (.power v 1) ∨ ∃ q, p = exact (.ofRat q)) ∧
      ∀ f, f.toDouble = .ok v → (p = exact f ↔
        v.isNamed = false ∧ Scalar.recover? (.snap v) = .ok (some (.exact f))) := by
  have positive : 0 < v.value := lt_of_lt_of_le (by norm_num) least
  obtain ⟨-, -, zero, -, order⟩ := Double.one_spec
  have base : v.equals 1 = false := by
    rw [Bool.eq_false_iff]
    exact fun one => other (Double.value_of_equals_one one)
  obtain ⟨o, found, sound, recovered⟩ := wholeBase?_one finite least most
  have collapsed := collapse_power_eq (show Scalar.one.isZero = false from rfl) zero base found
  rw [order] at collapsed
  cases o with
  | none =>
    refine ⟨_, collapsed, ?_, .inl rfl, fun f hf => ?_⟩
    · show Except.ok (1 * Double.power v 1) = _
      rw [Double.power_one finite positive, Double.one_mul_eq finite positive]
    · rw [← recovered f hf]
      simp [Value.exact]
  -- the fraction that was found is multiplied by one, so nothing is rounded again
  | some f =>
    obtain ⟨double, q, narrow, rfl⟩ := sound f rfl
    have nonzero : q ≠ 0 := by
      rintro rfl
      have nearest := Fraction.toDouble_ofRat_isNearest double
      exact positive.ne' (nearest.eq_value Double.zero_spec.1 Double.zero_spec.2)
    have power := Scalar.wholePower_one nonzero narrow (Fraction.toRat_ofRat q)
      ((Fraction.isNarrow_ofRat q).mpr narrow)
    have product := Scalar.one_mul_exact (f := .ofRat q) (by rwa [Fraction.toRat_ofRat])
    rw [Fraction.toRat_ofRat] at product
    refine ⟨exact (.ofRat q), ?_, double, .inr ⟨q, rfl⟩, fun f hf => ?_⟩
    · refine collapsed.trans ?_
      show (do return plain (← Scalar.one.mul (← Scalar.wholePower (.ofRat q) 1))) = _
      rw [power]
      show (do return plain (← Scalar.one.mul (.exact (.ofRat q)))) = _
      rw [product]
      rfl
    · rw [← recovered f hf]
      simp [Value.exact]

/-! ## The square of the root -/

/-- A symbolic square root times itself is its base to the power one. -/
theorem mul_self_root {p : Value} (finite : v.isFinite = true)
    (collapsed : collapse .one (.power v 1) = .ok p) :
    (symbolic .one (.power v 0.5)).mul (symbolic .one (.power v 0.5)) = .ok p := by
  have mult : Scalar.one.mul .one = .ok .one := by
    have unit : (Fraction.ofInt 1).toRat = 1 := (Fraction.toRat_ofInt 1).trans Int.cast_one
    have product := Scalar.one_mul_exact (unit.symm ▸ is_one.narrow)
    rw [unit] at product
    exact product
  obtain ⟨-, -, -, exponent⟩ := half_spec
  have merged : mergeProduct? .one (.power v 0.5) (.power v 0.5) 1 = .ok (some p) := by
    have same : Double.approxEq v v = true := if_pos (Double.equals_self finite)
    refine (if_pos same).trans ?_
    rw [exponent, collapsed]
    rfl
  exact Calc.bind_eq_ok.mpr ⟨_, mult, Calc.bind_eq_ok.mpr ⟨_, merged, rfl⟩⟩

/-- A symbolic square root of a rational, squared, stays symbolic or becomes the fraction that is
recovered from the double of the rational. -/
theorem root_mul_self (hr : 0 < r) (narrow : Narrow r) (other : r ≠ 1)
    (double : (Fraction.ofRat r).toDouble = .ok v) :
    ∃ p, (symbolic .one (.power v 0.5)).mul (symbolic .one (.power v 0.5)) = .ok p ∧
      p.toDouble = .ok v ∧ (p = symbolic .one (.power v 1) ∨ ∃ q, p = exact (.ofRat q)) ∧
      ∀ f, f.toDouble = .ok v → (p = exact f ↔
        v.isNamed = false ∧ Scalar.recover? (.snap v) = .ok (some (.exact f))) := by
  obtain ⟨least, most⟩ := value_mem hr narrow double
  have finite := (Fraction.toDouble_isNearest double).finite
  obtain ⟨p, collapsed, result⟩ := collapse_one_power finite least most
    (Fraction.value_ofRat_ne_one hr narrow double other)
  exact ⟨p, mul_self_root finite collapsed, result⟩

/-- A fraction that stands alone, without a name, is recovered from its double. -/
theorem recovered_of_standsAlone (standard : Tolerance.relative = 1e-7) (hr : 0 < r)
    (narrow : Narrow r) (double : (Fraction.ofRat r).toDouble = .ok v) (alone : StandsAlone r v) :
    Scalar.recover? (.snap v) = .ok (some (.exact (.ofRat r))) := by
  rw [alone.snap_eq hr narrow double]
  exact Scalar.recover?_of_standsAlone standard hr narrow double alone

variable [DoubleRoot]

/-- A number that is no square and is not recovered from its double does not come back. -/
theorem mul_self_of_lost (hr : 0 < r) (narrow : Narrow r)
    (double : (Fraction.ofRat r).toDouble = .ok v) (irrational : ¬IsSquare r)
    (lost : ∀ f : Fraction, f.toDouble = .ok v → v.isNamed = false →
      Scalar.recover? (.snap v) ≠ .ok (some (.exact f))) :
    ∃ s, (exact (.ofRat r)).pow half = .ok s ∧ s.mul s = .ok (symbolic .one (.power v 1)) := by
  obtain ⟨s, power, ⟨t, square, -⟩ | ⟨other, -, rfl⟩⟩ := pow_half hr narrow double
  · exact absurd ⟨t, square.symm⟩ irrational
  obtain ⟨p, product, value, rfl | ⟨q, rfl⟩, recovered⟩ := root_mul_self hr narrow other double
  · exact ⟨_, power, product⟩
  · obtain ⟨unnamed, found⟩ := (recovered _ value).mp rfl
    exact absurd found (lost _ value unnamed)

/-- **The square of the square root of a positive rational.** It is a rational or symbolic, and its
double is that of the rational. It is the rational exactly if the root is rational, or the double
has no name and the rational is recovered from it; so it is for integers, and where the rational
stands alone. -/
theorem pow_half_mul_self (standard : Tolerance.relative = 1e-7) (hr : 0 < r) (narrow : Narrow r) :
    ∃ v s p, (Fraction.ofRat r).toDouble = .ok v ∧ (exact (.ofRat r)).pow half = .ok s ∧
      s.mul s = .ok p ∧
      ((∃ t, t * t = r ∧ s = exact (.ofRat t)) ∨ s = symbolic .one (.power v 0.5)) ∧
      (DoubleRoot.Accurate → IsSquare r → ∃ t, s = exact (.ofRat t)) ∧
      p.toDouble = .ok v ∧ ((∃ q, p = exact (.ofRat q)) ∨ p = symbolic .one (.power v 1)) ∧
      (p = exact (.ofRat r) ↔ (∃ t, s = exact (.ofRat t)) ∨ v.isNamed = false ∧
        Scalar.recover? (.snap v) = .ok (some (.exact (.ofRat r)))) ∧
      (r.den = 1 ∨ v.isNamed = false ∧ (StandsAlone r v ∨ r.num ≤ 3000 ∧ r.den ≤ 3000) →
        p = exact (.ofRat r)) := by
  obtain ⟨v, double, finite, -⟩ :=
    Fraction.toDouble_narrow ((Fraction.isNarrow_ofRat r).mpr narrow)
  obtain ⟨s, power, root⟩ := pow_half hr narrow double
  -- an exact root multiplies back exactly; a symbolic one has to be recovered from its double
  rcases root with ⟨t, square, rfl⟩ | ⟨other, irrational, rfl⟩
  · have product := Scalar.exact_mul (f := .ofRat t) (g := .ofRat t)
      (by rwa [Fraction.toRat_ofRat, square])
    rw [Fraction.toRat_ofRat, square] at product
    refine ⟨v, _, exact (.ofRat r), double, power, congrArg (plain <$> ·) product,
      .inl ⟨t, square, rfl⟩, fun _ _ => ⟨t, rfl⟩, double, .inl ⟨r, rfl⟩,
      iff_of_true rfl (.inl ⟨t, rfl⟩), fun _ => rfl⟩
  · obtain ⟨p, product, value, shape, recovered⟩ := root_mul_self hr narrow other double
    have recovered := recovered _ double
    refine ⟨v, _, p, double, power, product, .inr rfl,
      fun accurate square => absurd ⟨accurate, square⟩ irrational, value, shape.symm, ?_, ?_⟩
    · rw [recovered]
      exact (or_iff_right fun ⟨_, exact⟩ => nomatch exact).symm
    · intro sufficient
      have alone : v.isNamed = false ∧ StandsAlone r v := by
        rcases sufficient with integer | ⟨unnamed, alone | ⟨num, den⟩⟩
        · have value : v.value = r.num := by
            rw [value_of_integer hr narrow integer double]
            exact ((Rat.den_eq_one_iff r).mp integer).symm
          exact ⟨Double.isNamed_of_integer standard finite value, standsAlone_of_integer integer⟩
        · exact ⟨unnamed, alone⟩
        · exact ⟨unnamed, standsAlone_of_small standard hr num den double⟩
      exact recovered.mpr
        ⟨alone.1, recovered_of_standsAlone standard hr narrow double alone.2⟩

omit [Tolerance] [DoubleRoot] in
/-- The square root of `22 / 7` squared is `22 / 7`. -/
theorem pow_half_mul_self_of_small_parts :
    letI := Double.standardTolerance
    letI := DoubleRoot.rounded
    (0 : ℚ) < 22 / 7 ∧ Narrow (22 / 7) ∧ ∃ s, (exact (.ofRat (22 / 7))).pow half = .ok s ∧
      s.mul s = .ok (exact (.ofRat (22 / 7))) := by
  let := Double.standardTolerance
  let := DoubleRoot.rounded
  have hr : (0 : ℚ) < 22 / 7 := by norm_num
  have narrow : Narrow (22 / 7) := by unfold Narrow; decide +kernel
  obtain ⟨v, s, p, double, power, product, -, -, -, -, -, sufficient⟩ :=
    pow_half_mul_self (r := 22 / 7) rfl hr narrow
  have bits : (Fraction.ofRat (22 / 7)).toDouble = .ok ⟨0x4009249249249249⟩ := by decide +kernel
  obtain rfl := Except.ok.inj (double.symm.trans bits)
  rw [sufficient (.inr ⟨by decide +kernel, .inr (by decide +kernel)⟩)] at product
  exact ⟨hr, narrow, s, power, product⟩

omit [Tolerance] [DoubleRoot] in
/-- The square root of `355 / 113` squared stays symbolic, since the double of this counts as `π`.
That of `3165 / 3164` does so because a simpler fraction counts as equal to its double. -/
theorem mul_self_lost :
    letI := Double.standardTolerance
    letI := DoubleRoot.rounded
    ((0 : ℚ) < 355 / 113 ∧ Narrow (355 / 113) ∧
      ∃ s, (exact (.ofRat (355 / 113))).pow half = .ok s ∧
        s.mul s = .ok (symbolic .one (.power ⟨0x400921fb78121fb8⟩ 1)) ∧
        ∀ f, s.mul s ≠ .ok (exact f)) ∧
    (0 : ℚ) < 3165 / 3164 ∧ Narrow (3165 / 3164) ∧
      ∃ s, (exact (.ofRat (3165 / 3164))).pow half = .ok s ∧
        s.mul s = .ok (symbolic .one (.power ⟨0x3ff0014b68893949⟩ 1)) ∧
        ∀ f, s.mul s ≠ .ok (exact f) := by
  let := Double.standardTolerance
  let := DoubleRoot.rounded
  have narrow : Narrow (355 / 113) := by unfold Narrow; decide +kernel
  have narrow' : Narrow (3165 / 3164) := by unfold Narrow; decide +kernel
  refine ⟨⟨by norm_num, narrow, ?_⟩, by norm_num, narrow', ?_⟩
  · -- its double is close enough to the one of π to have its name, and is not recovered
    obtain ⟨s, power, product⟩ := mul_self_of_lost (r := 355 / 113) (v := ⟨0x400921fb78121fb8⟩)
      (by norm_num) narrow (by decide +kernel) (by decide +kernel)
      (fun f _ unnamed => absurd unnamed (by decide +kernel))
    exact ⟨s, power, product, fun f same => nomatch product.symm.trans same⟩
  · -- its double is recovered as another fraction with smaller parts
    have other : Scalar.recover? (.snap ⟨0x3ff0014b68893949⟩) =
        .ok (some (.exact (.ofRat (3164 / 3163)))) := by decide +kernel
    obtain ⟨s, power, product⟩ := mul_self_of_lost (r := 3165 / 3164) (v := ⟨0x3ff0014b68893949⟩)
      (by norm_num) narrow' (by decide +kernel) (by decide +kernel) (fun f double _ found => by
        cases found.symm.trans other
        exact absurd double (by decide +kernel))
    exact ⟨s, power, product, fun f same => nomatch product.symm.trans same⟩

end Value

end SymbolicAlgebra
