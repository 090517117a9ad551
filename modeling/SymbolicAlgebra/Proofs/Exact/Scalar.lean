import SymbolicAlgebra.Number.Basic
import SymbolicAlgebra.Proofs.Exact.Calculation
import SymbolicAlgebra.Proofs.Exact.Fraction

/-!
# Exact arithmetic of scalars and values

`Scalar.Is s q` and `Value.Is v q` say that a scalar or value is a narrow exact fraction that
stands for the rational `q`. Beside them stands one lemma for each operation: on operands
that are exact it calculates exactly what the rational operation gives, unless the strict run
is refused because a part of the result is too wide (`Exactly`).

The operations of values are those of scalars here, since an exact value is plain.
-/

namespace SymbolicAlgebra

namespace Scalar

/-- The scalar is a narrow exact fraction and stands for a rational. -/
def Is (s : Scalar) (q : ℚ) : Prop :=
  ∃ f : Fraction, s = .exact f ∧ f.isNarrow = true ∧ f.toRat = q

theorem is_ofInt {n : Int} (h : n.natAbs ≤ 2 ^ 53) : (ofInt n).Is n :=
  ⟨.ofInt n, rfl, Fraction.isNarrow_ofInt h, Fraction.toRat_ofInt n⟩

theorem is_zero : zero.Is 0 := by
  rw [← Int.cast_zero]
  exact is_ofInt (by norm_num)

theorem is_one : one.Is 1 := by
  rw [← Int.cast_one]
  exact is_ofInt (by norm_num)

variable {s t : Scalar} {p q : ℚ}

theorem Is.unique (h : s.Is p) (h' : s.Is q) : p = q := by
  obtain ⟨f, rfl, -, rfl⟩ := h
  obtain ⟨_, ⟨rfl⟩, -, rfl⟩ := h'
  rfl

/-! ## Tests -/

theorem Is.isZero_iff (h : s.Is q) : s.isZero = true ↔ q = 0 := by
  obtain ⟨f, rfl, -, rfl⟩ := h
  exact f.isZero_iff

theorem Is.sgn_pos_iff (h : s.Is q) : 0 < s.sgn ↔ 0 < q := by
  obtain ⟨f, rfl, -, rfl⟩ := h
  exact f.sgn_pos_iff

theorem Is.sgn_neg_iff (h : s.Is q) : s.sgn < 0 ↔ q < 0 := by
  obtain ⟨f, rfl, -, rfl⟩ := h
  exact f.sgn_neg_iff

/-- Exact scalars are compared without their doubles, so the answer is the right one. -/
theorem Is.same_eq [Tolerance] (hs : s.Is p) (ht : t.Is q) : s.same t = .ok (decide (p = q)) := by
  obtain ⟨f, rfl, -, rfl⟩ := hs
  obtain ⟨g, rfl, -, rfl⟩ := ht
  show Except.ok (f.same g) = _
  rw [Bool.eq_iff_iff.mpr ((f.same_iff g).trans decide_eq_true_iff.symm)]

/-- The double of an exact scalar is finite, and it is nought for nought alone. -/
theorem Is.toDouble_eq (h : s.Is q) :
    ∃ v, s.toDouble = .ok v ∧ v.isFinite = true ∧ (v.isZero = true ↔ q = 0) := by
  obtain ⟨f, rfl, narrow, rfl⟩ := h
  obtain ⟨v, hv, finite, zero⟩ := Fraction.toDouble_narrow narrow
  exact ⟨v, hv, finite, by rw [zero, f.isZero_iff]⟩

/-! ## Operations -/

theorem Is.neg (h : s.Is q) : s.neg.Is (-q) := by
  obtain ⟨f, rfl, narrow, rfl⟩ := h
  exact ⟨f.neg, rfl, Fraction.isNarrow_neg narrow, f.toRat_neg⟩

/-- The quotient of two integers is that number, or a double that is refused. -/
theorem ofQuotient_exactly (n : Int) {d : Int} (h : d ≠ 0) :
    Exactly (fun _ => ofQuotient n d) (·.Is (n / d)) := by
  unfold ofQuotient
  simp only [dif_neg h]
  refine Exactly.ite (fun narrow => ?_) fun _ => Exactly.approximate _
  exact Exactly.pure ⟨_, rfl, narrow, Fraction.toRat_lowest n h⟩

/-- Exact scalars have an exact sum, unless it is refused. -/
theorem add_exactly (hs : s.Is p) (ht : t.Is q) :
    Exactly (fun _ => s.add t) (·.Is (p + q)) := by
  obtain ⟨f, rfl, -, rfl⟩ := hs
  obtain ⟨g, rfl, -, rfl⟩ := ht
  rw [f.toRat_add g]
  exact ofQuotient_exactly _ (mul_ne_zero f.den_ne_zero g.den_ne_zero)

/-- Exact scalars have an exact product, unless it is refused. -/
theorem mul_exactly (hs : s.Is p) (ht : t.Is q) :
    Exactly (fun _ => s.mul t) (·.Is (p * q)) := by
  obtain ⟨f, rfl, -, rfl⟩ := hs
  obtain ⟨g, rfl, -, rfl⟩ := ht
  unfold mul
  refine Exactly.ite (fun zero => ?_) fun _ => ?_
  · refine Exactly.pure ?_
    rw [Bool.or_eq_true, f.isZero_iff, g.isZero_iff, ← mul_eq_zero] at zero
    rw [zero]
    exact is_zero
  · rw [f.toRat_mul g]
    exact ofQuotient_exactly _ (mul_ne_zero f.den_ne_zero g.den_ne_zero)

/-- Exact scalars have an exact quotient if the divisor is not nought, unless it is refused. -/
theorem div_exactly (hs : s.Is p) (ht : t.Is q) (hq : q ≠ 0) :
    Exactly (fun _ => s.div t) (·.Is (p / q)) := by
  obtain ⟨v, double, -, zero⟩ := ht.toDouble_eq
  obtain ⟨f, rfl, -, rfl⟩ := hs
  obtain ⟨g, rfl, -, rfl⟩ := ht
  unfold div
  refine Exactly.bind (Exactly.of_eq double rfl) fun w hw => ?_
  subst hw
  refine Exactly.ite (fun h => absurd (zero.mp h) hq) fun _ => ?_
  have num : g.num ≠ 0 := mt g.toRat_eq_zero_iff.mpr hq
  rw [f.toRat_div g]
  exact ofQuotient_exactly _ (mul_ne_zero f.den_ne_zero num)

/-- Lowest terms stay within the limit. -/
theorem reduce_eq [Exactness] {f : Fraction} (h : f.isNarrow = true) :
    reduce f = .ok (exact f.reduced) := by
  have narrow := Fraction.isNarrow_reduced h
  unfold Fraction.reduced at narrow
  unfold reduce ofQuotient
  rw [dif_neg f.den_ne_zero]
  simp only [narrow]
  rfl

/-- A narrow fraction stays a fraction in lowest terms. -/
theorem reduceExact_eq [Exactness] {f : Fraction} (h : f.isNarrow = true) (part : String) :
    reduceExact f part = .ok f.reduced := by
  unfold reduceExact
  rw [reduce_eq h]
  rfl

/-- The power of a fraction by its parts, for a natural exponent. -/
theorem toRat_pow (f : Fraction) (k : Nat) :
    f.toRat ^ k = ((f.num.pow k : Int) : ℚ) / (f.den.pow k : Int) := by
  unfold Fraction.toRat
  rw [div_pow, Int.pow_eq, Int.pow_eq]
  push_cast
  rfl

/-- How an exact power is computed: as a quotient of powers of the parts, where a power of a
fraction turns around for a negative exponent. -/
theorem exactPower?_eq (f : Fraction) (n : Int) : ∃ a b : Int,
    (f.toRat ≠ 0 ∨ 0 ≤ n → b ≠ 0) ∧ (a / b : ℚ) = f.toRat ^ n ∧
      (a = f.num ^ n.natAbs ∨ a = f.den ^ n.natAbs) ∧
      ∀ [Exactness], exactPower? f n =
        if Fraction.powerLimit < n.natAbs * f.bitWidth then pure none
        else if f.toRat = 0 ∧ n < 0 then throw (.undefined .zeroToNegative)
        else some <$> ofQuotient a b := by
  by_cases negative : n < 0
  · refine ⟨f.den.pow n.natAbs, f.num.pow n.natAbs, fun h => ?_, ?_, .inr (Int.pow_eq ..), ?_⟩
    · exact pow_ne_zero _ (mt f.toRat_eq_zero_iff.mpr (h.resolve_right (not_le.mpr negative)))
    · obtain ⟨k, rfl⟩ : ∃ k : Nat, n = -(k : Int) := ⟨n.natAbs, by omega⟩
      rw [Int.natAbs_neg, Int.natAbs_natCast, zpow_neg, zpow_natCast, toRat_pow, inv_div]
    · intro _
      unfold exactPower?
      rw [if_pos negative, if_congr (f.isZero_iff.trans (and_iff_left negative).symm) rfl rfl]
  · refine ⟨f.num.pow n.natAbs, f.den.pow n.natAbs, fun _ => pow_ne_zero _ f.den_ne_zero, ?_,
      .inl (Int.pow_eq ..), ?_⟩
    · obtain ⟨k, rfl⟩ := Int.eq_ofNat_of_zero_le (not_lt.mp negative)
      rw [Int.natAbs_natCast, zpow_natCast, toRat_pow]
    · intro _
      have defined : ¬(f.toRat = 0 ∧ n < 0) := fun both => negative both.2
      unfold exactPower?
      rw [if_neg negative, if_neg defined]

/-- An exact power, if it is computed. -/
theorem exactPower?_exactly {f : Fraction} {n : Int} (h : f.toRat ≠ 0 ∨ 0 ≤ n) :
    Exactly (fun _ => exactPower? f n) fun r => ∀ s, r = some s → s.Is (f.toRat ^ n) := by
  obtain ⟨a, b, nonzero, value, -, power⟩ := exactPower?_eq f n
  simp only [power]
  refine Exactly.ite (fun _ => Exactly.pure (by simp)) fun _ => ?_
  refine Exactly.ite (fun undefined => ?_) fun _ => ?_
  · exact absurd (h.resolve_left (not_not.mpr undefined.1)) (not_le.mpr undefined.2)
  · refine Exactly.map ((ofQuotient_exactly _ (nonzero h)).mono fun r hr s hs => ?_)
    cases hs
    rwa [value] at hr

end Scalar

namespace Value

/-- The value is a narrow exact fraction and stands for a rational. -/
def Is (v : Value) (q : ℚ) : Prop := ∃ s, v = .plain s ∧ s.Is q

theorem is_zero : zero.Is 0 := ⟨_, rfl, Scalar.is_zero⟩

theorem is_one : one.Is 1 := ⟨_, rfl, Scalar.is_one⟩

theorem Is.unique {v : Value} {p q : ℚ} (h : v.Is p) (h' : v.Is q) : p = q := by
  obtain ⟨s, rfl, hs⟩ := h
  obtain ⟨_, ⟨rfl⟩, hs'⟩ := h'
  exact hs.unique hs'

theorem Is.narrow {v : Value} {q : ℚ} (h : v.Is q) : Narrow q := by
  obtain ⟨s, rfl, f, rfl, narrow, rfl⟩ := h
  exact Fraction.narrow_toRat narrow

variable [Tolerance] {v w : Value} {p q : ℚ}

/-! ## Tests -/

/-- An exact value is asked whether it is nought, and gives the right answer. -/
theorem Is.isZero_eq (h : v.Is q) : v.isZero = .ok (decide (q = 0)) := by
  obtain ⟨s, rfl, hs⟩ := h
  show Except.ok s.isZero = _
  rw [Bool.eq_iff_iff.mpr (hs.isZero_iff.trans decide_eq_true_iff.symm)]

/-- An exact value is an integer just if its number has the denominator 1. -/
theorem Is.isInt_eq (h : v.Is q) : v.isInt = .ok (decide (q.den = 1)) := by
  obtain ⟨s, rfl, f, rfl, -, rfl⟩ := h
  show Except.ok f.isInt = _
  rw [Bool.eq_iff_iff.mpr (f.isInt_iff.trans decide_eq_true_iff.symm)]

theorem Is.sgn_eq (h : v.Is q) : ∃ n, v.sgn = .ok n ∧ (0 < n ↔ 0 < q) ∧ (n < 0 ↔ q < 0) := by
  obtain ⟨s, rfl, hs⟩ := h
  exact ⟨s.sgn, rfl, hs.sgn_pos_iff, hs.sgn_neg_iff⟩

theorem Is.same_eq (hv : v.Is p) (hw : w.Is q) : v.same w = .ok (decide (p = q)) := by
  obtain ⟨s, rfl, hs⟩ := hv
  obtain ⟨t, rfl, ht⟩ := hw
  exact hs.same_eq ht

/-- The double of an exact value is finite, and it is nought for nought alone. -/
theorem Is.toDouble_eq (h : v.Is q) :
    ∃ d, v.toDouble = .ok d ∧ d.isFinite = true ∧ (d.isZero = true ↔ q = 0) := by
  obtain ⟨s, rfl, hs⟩ := h
  exact hs.toDouble_eq

/-- The double of an integer other than zero is that integer. -/
theorem Is.toInt_eq {n : Int} (h : v.Is n) (hn : n ≠ 0) :
    ∃ d, v.toDouble = .ok d ∧ d.toInt = n := by
  obtain ⟨s, rfl, f, rfl, narrow, value⟩ := h
  obtain ⟨d, hd, -, -, int, -⟩ := Fraction.toDouble_int narrow value hn
  exact ⟨d, hd, int⟩

/-- An exact value is finite. -/
theorem Is.isFinite_eq (h : v.Is q) : v.isFinite = .ok true := by
  obtain ⟨d, hd, finite, -⟩ := h.toDouble_eq
  unfold isFinite
  rw [hd]
  show Except.ok d.isFinite = _
  rw [finite]

/-! ## Operations -/

theorem neg_exactly (hv : v.Is q) : Exactly (fun _ => v.neg) (·.Is (-q)) := by
  obtain ⟨s, rfl, hs⟩ := hv
  exact Exactly.pure ⟨_, rfl, hs.neg⟩

theorem add_exactly (hv : v.Is p) (hw : w.Is q) : Exactly (fun _ => v.add w) (·.Is (p + q)) := by
  obtain ⟨s, rfl, hs⟩ := hv
  obtain ⟨t, rfl, ht⟩ := hw
  exact Exactly.map ((Scalar.add_exactly hs ht).mono fun _ hr => ⟨_, rfl, hr⟩)

theorem sub_exactly (hv : v.Is p) (hw : w.Is q) : Exactly (fun _ => v.sub w) (·.Is (p - q)) := by
  refine Exactly.bind (neg_exactly hw) fun r hr => ?_
  rw [sub_eq_add_neg]
  exact add_exactly hv hr

theorem mul_exactly (hv : v.Is p) (hw : w.Is q) : Exactly (fun _ => v.mul w) (·.Is (p * q)) := by
  obtain ⟨s, rfl, hs⟩ := hv
  obtain ⟨t, rfl, ht⟩ := hw
  exact Exactly.map ((Scalar.mul_exactly hs ht).mono fun _ hr => ⟨_, rfl, hr⟩)

/-- The quotient of exact values is that of the scalars. -/
theorem div_exactly (hv : v.Is p) (hw : w.Is q) (hq : q ≠ 0) :
    Exactly (fun _ => v.div w) (·.Is (p / q)) := by
  obtain ⟨d, double, -, zero⟩ := hw.toDouble_eq
  obtain ⟨s, rfl, hs⟩ := hv
  obtain ⟨t, rfl, ht⟩ := hw
  refine Exactly.bind (Exactly.of_eq double rfl) fun e he => ?_
  subst he
  refine Exactly.ite (fun h => absurd (zero.mp h) hq) fun _ => ?_
  exact Exactly.map ((Scalar.div_exactly hs ht hq).mono fun _ hr => ⟨_, rfl, hr⟩)

/-- A fraction to an integer power is an exact power, or none is found. -/
theorem fractionPower?_exactly {f g : Fraction} {n : Int} (hg : g.isNarrow = true)
    (hn : g.toRat = n) (h : f.toRat ≠ 0 ∨ 0 ≤ n) :
    Exactly (fun _ => fractionPower? f g) fun r => ∀ v, r = some v → v.Is (f.toRat ^ n) := by
  obtain ⟨num, den⟩ := Fraction.reduced_of_int hn
  unfold fractionPower?
  refine Exactly.bind (Exactly.of_forall (fun _ => Scalar.reduceExact_eq hg "den") rfl)
    fun r hr => ?_
  subst hr
  refine Exactly.ite (fun _ => ?_) fun h' => absurd den h'
  rw [num]
  refine Exactly.bind (Scalar.exactPower?_exactly h) fun r hr => Exactly.pure fun v hv => ?_
  obtain ⟨s, hs, rfl⟩ := Option.map_eq_some_iff.mp hv
  exact ⟨s, rfl, hr s hs⟩

/-- A power that only doubles can give is refused. -/
theorem powDoubles_exactly {P : Value → Prop} (hv : v.Is q) (hw : w.Is p) (h : q ≠ 0 ∨ 0 ≤ p) :
    Exactly (fun _ => v.powDoubles w) P := by
  obtain ⟨sign, sgn, -, negative⟩ := hw.sgn_eq
  unfold powDoubles
  refine Exactly.bind (Exactly.of_eq (Calc.both_eq_ok hv.isZero_eq (b := decide (sign < 0)) ?_) rfl)
    fun c hc => ?_
  · rw [sgn]
    rfl
  · subst hc
    refine Exactly.ite (fun undefined => ?_) fun _ => Exactly.map (Exactly.approximate _)
    rw [Bool.and_eq_true, decide_eq_true_iff, decide_eq_true_iff, negative] at undefined
    rcases h with h | h
    · exact absurd undefined.1 h
    · exact absurd undefined.2 (not_lt.mpr h)

/-- An integer power. -/
theorem pow_exactly {n : Int} (hv : v.Is q) (hw : w.Is n) (h : q ≠ 0 ∨ 0 ≤ n) :
    Exactly (fun _ => v.pow w) (·.Is (q ^ n)) := by
  have refused := powDoubles_exactly (P := (·.Is (q ^ n))) hv hw (h.imp_right Int.cast_nonneg)
  have isZero := hw.isZero_eq
  obtain ⟨s, rfl, f, rfl, -, rfl⟩ := hv
  obtain ⟨t, rfl, g, rfl, narrow, value⟩ := hw
  show Exactly (fun _ => plainPow (.exact f) (plain (.exact g))) _
  unfold plainPow
  refine Exactly.decided isZero (fun zero => ?_) fun _ => ?_
  · rw [Int.cast_eq_zero.mp zero, zpow_zero]
    exact Exactly.pure is_one
  · refine Exactly.bind (fractionPower?_exactly narrow value h) fun r hr => ?_
    cases r with
    | some v => exact Exactly.pure (hr v rfl)
    | none => exact refused

end Value

end SymbolicAlgebra
