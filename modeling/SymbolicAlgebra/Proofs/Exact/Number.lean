import SymbolicAlgebra.Number.Polar
import SymbolicAlgebra.Proofs.Exact.Scalar

/-!
# Exact arithmetic of complex numbers

A number with exact parts stands for a Gaussian rational (`Number.Is`), and its field
operations and integer powers calculate the ones of that field, as long as they stay exact.

Powers go three ways. Small exponents multiply by repeated squaring. Beyond that a positive
base is raised as a value, and any other number is raised and its first root taken, which is
the power itself. All three give the exact power or are refused.
-/

namespace SymbolicAlgebra

/-- The Gaussian rationals. -/
abbrev GaussianRat := QuadraticAlgebra ℚ (-1) 0

/-- No rational squares to minus one, so the Gaussian rationals are a field. -/
instance GaussianRat.sq_ne_negOne : Fact (∀ r : ℚ, r ^ 2 ≠ -1 + 0 * r) :=
  ⟨fun r h => by nlinarith [sq_nonneg r]⟩

namespace Number

/-- The number has exact parts and stands for a Gaussian rational. -/
def Is (z : Number) (g : GaussianRat) : Prop := z.re.Is g.re ∧ z.im.Is g.im

theorem is_ofValue {v : Value} {q : ℚ} (h : v.Is q) : (ofValue v).Is ⟨q, 0⟩ :=
  ⟨h, Value.is_zero⟩

theorem is_zero : zero.Is 0 := is_ofValue Value.is_zero

theorem is_one : one.Is 1 := is_ofValue Value.is_one

theorem is_ofInt {n : Int} (h : n.natAbs ≤ 2 ^ 53) : (ofInt n).Is n :=
  is_ofValue ⟨_, rfl, Scalar.is_ofInt h⟩

theorem Is.unique {z : Number} {g h : GaussianRat} (hg : z.Is g) (hh : z.Is h) : g = h :=
  QuadraticAlgebra.ext (hg.1.unique hh.1) (hg.2.unique hh.2)

variable [Tolerance] {z w : Number} {g h : GaussianRat}

/-! ## Tests -/

theorem Is.isReal_eq (hz : z.Is g) : z.isReal = .ok (decide (g.im = 0)) := hz.2.isZero_eq

/-- The test for zero is the one of the field. -/
theorem Is.isZero_eq (hz : z.Is g) : z.isZero = .ok (decide (g = 0)) := by
  unfold isZero
  rw [Calc.both_eq_ok hz.1.isZero_eq hz.2.isZero_eq, ← Bool.decide_and]
  congr 1
  refine decide_eq_decide.mpr ?_
  rw [QuadraticAlgebra.ext_iff]
  rfl

theorem Is.isFinite_eq (hz : z.Is g) : z.isFinite = .ok true :=
  Calc.both_eq_ok hz.1.isFinite_eq hz.2.isFinite_eq

/-- Exact numbers are the same if they stand for the same. -/
theorem Is.same_eq (hz : z.Is g) (hw : w.Is h) : z.same w = .ok (decide (g = h)) := by
  unfold same
  rw [Calc.both_eq_ok (hz.1.same_eq hw.1) (hz.2.same_eq hw.2), ← Bool.decide_and]
  congr 1
  exact decide_eq_decide.mpr QuadraticAlgebra.ext_iff.symm

/-- The sign of an exact number can be taken: that of its real part, or of the imaginary one. -/
theorem Is.sgn_eq (hz : z.Is g) : ∃ n, z.sgn = .ok n := by
  obtain ⟨m, re, -⟩ := hz.1.sgn_eq
  obtain ⟨n, im, -⟩ := hz.2.sgn_eq
  by_cases zero : g.re = 0
  · refine ⟨n, Calc.bind_eq_ok.mpr ⟨_, hz.1.isZero_eq, ?_⟩⟩
    rw [if_pos (decide_eq_true zero)]
    exact im
  · refine ⟨m, Calc.bind_eq_ok.mpr ⟨_, hz.1.isZero_eq, ?_⟩⟩
    rw [if_neg (by simpa using zero)]
    exact re

/-! ## Field operations -/

theorem neg_exactly (hz : z.Is g) : Exactly (fun _ => z.neg) (·.Is (-g)) := by
  refine Exactly.bind (Value.neg_exactly hz.1) fun re hre => ?_
  refine Exactly.bind (Value.neg_exactly hz.2) fun im him => ?_
  exact Exactly.pure ⟨hre, him⟩

theorem conj_exactly (hz : z.Is g) : Exactly (fun _ => z.conj) (·.Is ⟨g.re, -g.im⟩) := by
  refine Exactly.bind (Value.neg_exactly hz.2) fun im him => ?_
  exact Exactly.pure ⟨hz.1, him⟩

theorem add_exactly (hz : z.Is g) (hw : w.Is h) : Exactly (fun _ => z.add w) (·.Is (g + h)) := by
  refine Exactly.bind (Value.add_exactly hz.1 hw.1) fun re hre => ?_
  refine Exactly.bind (Value.add_exactly hz.2 hw.2) fun im him => ?_
  exact Exactly.pure ⟨hre, him⟩

theorem sub_exactly (hz : z.Is g) (hw : w.Is h) : Exactly (fun _ => z.sub w) (·.Is (g - h)) := by
  refine Exactly.bind (Value.sub_exactly hz.1 hw.1) fun re hre => ?_
  refine Exactly.bind (Value.sub_exactly hz.2 hw.2) fun im him => ?_
  exact Exactly.pure ⟨hre, him⟩

/-- The product, with a real factor on either side or without one. -/
theorem mul_exactly (hz : z.Is g) (hw : w.Is h) : Exactly (fun _ => z.mul w) (·.Is (g * h)) := by
  have re : (g * h).re = g.re * h.re - g.im * h.im := by simp; ring
  have im : (g * h).im = g.re * h.im + g.im * h.re := by simp
  unfold mul
  refine Exactly.decided hw.isReal_eq (fun real => ?_) fun _ => ?_
  · refine Exactly.bind (Value.mul_exactly hz.1 hw.1) fun x hx => ?_
    refine Exactly.bind (Value.mul_exactly hz.2 hw.1) fun y hy => ?_
    refine Exactly.pure ⟨?_, ?_⟩
    · simpa [re, real] using hx
    · simpa [im, real] using hy
  refine Exactly.decided hz.isReal_eq (fun real => ?_) fun _ => ?_
  · refine Exactly.bind (Value.mul_exactly hw.1 hz.1) fun x hx => ?_
    refine Exactly.bind (Value.mul_exactly hw.2 hz.1) fun y hy => ?_
    refine Exactly.pure ⟨?_, ?_⟩
    · simpa [re, real, mul_comm] using hx
    · simpa [im, real, mul_comm] using hy
  -- neither is real, so all four products are needed
  refine Exactly.bind (Value.mul_exactly hz.1 hw.1) fun rr h₁ => ?_
  refine Exactly.bind (Value.mul_exactly hz.2 hw.2) fun ii h₂ => ?_
  refine Exactly.bind (Value.sub_exactly h₁ h₂) fun x hx => ?_
  refine Exactly.bind (Value.mul_exactly hz.1 hw.2) fun ri h₃ => ?_
  refine Exactly.bind (Value.mul_exactly hz.2 hw.1) fun ir h₄ => ?_
  refine Exactly.bind (Value.add_exactly h₃ h₄) fun y hy => ?_
  refine Exactly.pure ⟨?_, ?_⟩
  · rw [re]
    exact hx
  · rw [im]
    exact hy

/-- The quotient by a number that is not zero: part by part where the divisor is real, and by
its conjugate otherwise. -/
theorem div_exactly (hz : z.Is g) (hw : w.Is h) (hh : h ≠ 0) :
    Exactly (fun _ => z.div w) (·.Is (g / h)) := by
  unfold div
  refine Exactly.decided hw.isZero_eq (fun zero => absurd zero hh) fun _ => ?_
  refine Exactly.bind (Exactly.of_eq hw.isFinite_eq rfl) fun c hc => ?_
  subst hc
  refine Exactly.ite (fun infinite => absurd infinite (by decide)) fun _ => ?_
  refine Exactly.decided hw.isReal_eq (fun real => ?_) fun _ => ?_
  · have hre : h.re ≠ 0 := fun zero => hh (QuadraticAlgebra.ext zero real)
    have quotient : g / h = ⟨g.re / h.re, g.im / h.re⟩ := by
      rw [div_eq_iff hh]
      ext <;> simp [real, hre]
    rw [quotient]
    refine Exactly.bind (Value.div_exactly hz.1 hw.1 hre) fun x hx => ?_
    refine Exactly.bind (Value.div_exactly hz.2 hw.1 hre) fun y hy => ?_
    exact Exactly.pure ⟨hx, hy⟩
  · have norm : h.re * h.re + h.im * h.im ≠ 0 := by
      intro zero
      refine hh (QuadraticAlgebra.norm_eq_zero_iff_eq_zero.mp ?_)
      rw [QuadraticAlgebra.norm_def]
      linarith
    have quotient : g / h = ⟨(g * ⟨h.re, -h.im⟩ : GaussianRat).re / (h.re * h.re + h.im * h.im),
        (g * ⟨h.re, -h.im⟩ : GaussianRat).im / (h.re * h.re + h.im * h.im)⟩ := by
      have norm' : h.re ^ 2 + h.im ^ 2 ≠ 0 := by
        simpa [sq] using norm
      rw [div_eq_iff hh]
      ext <;> simp only [QuadraticAlgebra.re_mul, QuadraticAlgebra.im_mul] <;> field_simp <;> ring
    rw [quotient]
    refine Exactly.bind (Value.mul_exactly hw.1 hw.1) fun rr h₁ => ?_
    refine Exactly.bind (Value.mul_exactly hw.2 hw.2) fun ii h₂ => ?_
    refine Exactly.bind (Value.add_exactly h₁ h₂) fun square hd => ?_
    refine Exactly.bind (conj_exactly hw) fun conjugate hc => ?_
    refine Exactly.bind (mul_exactly hz hc) fun numerator hn => ?_
    refine Exactly.bind (Value.div_exactly hn.1 hd norm) fun x hx => ?_
    refine Exactly.bind (Value.div_exactly hn.2 hd norm) fun y hy => ?_
    exact Exactly.pure ⟨hx, hy⟩

/-- A quotient by zero is infinite, or undefined, and never exact. -/
theorem div_zero_exactly {P : Number → Prop} (hz : z.Is g) (hg : g ≠ 0) (hw : w.Is 0) :
    Exactly (fun _ => z.div w) P := by
  -- the part that is not zero becomes an infinity
  have infinite : ∀ {v : Value} {q : ℚ} {Q : Value → Prop}, v.Is q → q ≠ 0 →
      Exactly (fun _ => partOverZero v) Q := by
    intro v q Q hv hq
    refine Exactly.decided hv.isZero_eq (fun zero => absurd zero hq) fun _ => ?_
    exact Exactly.map (Exactly.approximate _)
  have part : Exactly (fun _ => partOverZero z.re) fun _ => g.im ≠ 0 := by
    by_cases zero : g.re = 0
    · refine Exactly.decided hz.1.isZero_eq (fun _ => Exactly.pure fun im => ?_)
        fun no => absurd zero no
      exact hg (QuadraticAlgebra.ext zero im)
    · exact infinite hz.1 zero
  unfold div
  refine Exactly.decided hw.isZero_eq (fun _ => ?_) fun no => absurd rfl no
  refine Exactly.decided hz.isZero_eq (fun zero => absurd zero hg) fun _ => ?_
  exact Exactly.bind part fun _ im => Exactly.bind (P := fun _ => False) (infinite hz.2 im) nofun

/-! ## Powers -/

/-- Repeated squaring, from an accumulated product. -/
theorem powFrom_exactly (n : Nat) : ∀ {z w : Number} {g h : GaussianRat}, z.Is g → w.Is h →
    Exactly (fun _ => powFrom z w n) (·.Is (g * h ^ n)) := by
  induction n using Nat.strong_induction_on with
  | _ n ih =>
    intro z w g h hz hw
    unfold powFrom
    refine Exactly.ite (fun zero => ?_) fun nonzero => ?_
    · subst zero
      rw [pow_zero, mul_one]
      exact Exactly.pure hz
    have power : h ^ n = h ^ (n % 2) * (h * h) ^ (n / 2) := by
      rw [← sq, ← pow_mul, ← pow_add, Nat.mod_add_div]
    -- once the lowest bit is in the product, the rest of the exponent squares the base
    have rest : ∀ {a : Number}, a.Is (g * h ^ (n % 2)) →
        Exactly (fun _ => if n / 2 = 0 then pure a else do
          powFrom a (← w.mul w) (n / 2)) (·.Is (g * h ^ n)) := by
      intro a ha
      refine Exactly.ite (fun last => ?_) fun _ => ?_
      · rw [power, last, pow_zero, mul_one]
        exact Exactly.pure ha
      · refine Exactly.bind (mul_exactly hw hw) fun b hb => ?_
        rw [power, ← mul_assoc]
        exact ih (n / 2) (by omega) ha hb
    refine Exactly.ite (fun odd => ?_) fun even => ?_
    · refine Exactly.bind (mul_exactly hz hw) fun a ha => rest ?_
      rw [odd, pow_one]
      exact ha
    · refine Exactly.bind (Exactly.pure (P := (·.Is g)) hz) fun a ha => rest ?_
      rw [show n % 2 = 0 by omega, pow_zero, mul_one]
      exact ha

theorem powNat_exactly (n : Nat) (hz : z.Is g) : Exactly (fun _ => z.powNat n) (·.Is (g ^ n)) := by
  rw [← one_mul (g ^ n)]
  exact powFrom_exactly n is_one hz

/-- A power by repeated squaring, for an integer exponent: a negative one divides. -/
theorem powInt_exactly {n : Int} (hz : z.Is g) (hg : g ≠ 0 ∨ 0 ≤ n) :
    Exactly (fun _ => z.powInt n) (·.Is (g ^ n)) := by
  unfold powInt
  refine Exactly.ite (fun negative => ?_) fun positive => ?_
  · obtain ⟨k, rfl⟩ : ∃ k : Nat, n = -(k : Int) := ⟨n.natAbs, by omega⟩
    have nonzero := hg.resolve_right (not_le.mpr negative)
    refine Exactly.bind (powNat_exactly _ hz) fun w hw => ?_
    rw [Int.natAbs_neg, Int.natAbs_natCast] at hw
    rw [zpow_neg, zpow_natCast, ← one_div]
    exact div_exactly is_one hw (pow_ne_zero k nonzero)
  · obtain ⟨k, rfl⟩ := Int.eq_ofNat_of_zero_le (not_lt.mp positive)
    rw [zpow_natCast]
    exact powNat_exactly _ hz

/-- The first root of order one is the number itself. -/
theorem root_one [Exactness] (z : Number) : z.root 1 = .ok z := rfl

omit [Tolerance] in
/-- The power of a real Gaussian rational. -/
theorem real_zpow (q : ℚ) (n : Int) : (⟨q, 0⟩ : GaussianRat) ^ n = ⟨q ^ n, 0⟩ := by
  have cast : ∀ r : ℚ, (⟨r, 0⟩ : GaussianRat) = algebraMap ℚ GaussianRat r := fun _ => rfl
  rw [cast, cast, map_zpow₀]

/-- An integer exponent that does not multiply is recognised as one over one. -/
theorem rootExponent?_exactly {e : Value} {n : Int} (he : e.Is n) (hn : n ≠ 0) :
    Exactly (fun _ => rootExponent? e) fun r => ∃ f, r = some f ∧ f.num = n ∧ f.den = 1 := by
  obtain ⟨s, rfl, f, rfl, narrow, value⟩ := he
  obtain ⟨num, den⟩ := Fraction.reduced_of_int value
  obtain ⟨v, double, reduced, finite, -⟩ := Fraction.toDouble_int narrow value hn
  have same : Double.approxEq v v = true := by
    unfold Double.approxEq
    rw [if_pos (Double.equals_self finite)]
  refine Exactly.of_forall (a := some f.reduced) (fun x => ?_) ⟨_, rfl, num, den⟩
  unfold rootExponent?
  refine Calc.bind_eq_ok.mpr ⟨_, rfl, Calc.bind_eq_ok.mpr ⟨_, Scalar.reduceExact_eq narrow _, ?_⟩⟩
  rw [if_pos (by rw [den]; decide)]
  refine Calc.bind_eq_ok.mpr ⟨_, reduced, Calc.bind_eq_ok.mpr ⟨_, double, ?_⟩⟩
  rw [if_pos same]
  rfl

/-- An integer power other than the one with exponent zero, by any of the three ways. -/
theorem powReal_exactly {n : Int} (hz : z.Is g) (hw : w.Is n) (hg : g ≠ 0 ∨ 0 ≤ n)
    (hn : n ≠ 0) : Exactly (fun _ => z.powReal w) (·.Is (g ^ n)) := by
  have exponent : w.re.Is n := hw.1
  obtain ⟨d, double, int⟩ := exponent.toInt_eq hn
  obtain ⟨sign, sgn, positive, -⟩ := hz.1.sgn_eq
  unfold powReal
  dsimp only
  refine Exactly.bind (Exactly.of_eq (Calc.both_eq_ok exponent.isInt_eq
    (Calc.bind_eq_ok.mpr ⟨d, double, rfl⟩)) rfl) fun c hc => ?_
  -- whether the exponent is small does not matter: the way that it goes ends in the same power
  refine Exactly.ite (fun _ => ?_) fun _ => ?_
  · refine Exactly.bind (Exactly.of_eq double rfl) fun v hv => ?_
    subst hv
    rw [int]
    exact powInt_exactly hz hg
  refine Exactly.bind (Exactly.of_eq (Calc.both_eq_ok hz.isReal_eq
    (Calc.bind_eq_ok.mpr ⟨sign, sgn, rfl⟩)) rfl) fun c hc => ?_
  subst hc
  refine Exactly.ite (fun both => ?_) fun _ => ?_
  · rw [Bool.and_eq_true, decide_eq_true_iff, decide_eq_true_iff, positive] at both
    have real : g = ⟨g.re, 0⟩ := QuadraticAlgebra.ext rfl both.1
    refine Exactly.bind (Value.pow_exactly hz.1 exponent (.inl both.2.ne')) fun v hv => ?_
    rw [real, real_zpow]
    exact Exactly.pure (is_ofValue hv)
  · -- the exponent is a root exponent whose root has order one
    refine Exactly.bind (rootExponent?_exactly exponent hn) fun r hr => ?_
    obtain ⟨f, rfl, num, den⟩ := hr
    refine Exactly.bind (powInt_exactly hz (by rwa [num])) fun v hv => ?_
    rw [num] at hv
    rw [den]
    exact Exactly.of_forall (fun _ => root_one v) hv

/-- An integer power. -/
theorem pow_exactly {n : Int} (hz : z.Is g) (hw : w.Is n) (hg : g ≠ 0 ∨ 0 ≤ n) :
    Exactly (fun _ => z.pow w) (·.Is (g ^ n)) := by
  obtain ⟨sign, sgn, positive, -⟩ := hw.1.sgn_eq
  unfold pow
  refine Exactly.decided hw.isZero_eq (fun zero => ?_) fun nonzero => ?_
  · rw [Int.cast_eq_zero.mp zero, zpow_zero]
    exact Exactly.pure is_one
  have hn : n ≠ 0 := mt Int.cast_eq_zero.mpr nonzero
  refine Exactly.decided hz.isZero_eq (fun zero => ?_) fun _ => ?_
  · -- zero has positive powers only
    have pos : 0 < n := by
      have := hg.resolve_left (not_not.mpr zero)
      omega
    refine Exactly.bind (Exactly.of_eq sgn rfl) fun c hc => ?_
    subst hc
    refine Exactly.ite (fun _ => Exactly.pure ?_) fun h => absurd (positive.mpr ?_) h
    · rw [zero, zero_zpow n hn]
      exact is_zero
    · show (0 : ℚ) < n
      exact_mod_cast pos
  exact Exactly.decided hw.isReal_eq (fun _ => powReal_exactly hz hw hg hn)
    fun complex => absurd rfl complex

end Number

end SymbolicAlgebra
