import SymbolicAlgebra.Eval
import SymbolicAlgebra.Rewrite.Leaves
import SymbolicAlgebra.Proofs.Exact.Number
import SymbolicAlgebra.Proofs.Exact.Powers
import SymbolicAlgebra.Proofs.Exact.Rounding

/-!
# Roots of even powers

A monomial takes a power in: its coefficient is raised, and the exponents multiply. For integer
exponents this is a law, but for roots it fails on negative numbers. An even power forgets the sign
of what it is a power of. So its root is positive, like any root of a positive number
(`Number.pow_root_exactly`). But the leaf that the two make is the variable itself, and negative
where that is (`Expr.root_of_power`).

The root of an exact number is exact if both of its parts have roots among the integers, which are
checked by their powers. Else it is a symbolic square root, or for higher orders a double.
-/

namespace SymbolicAlgebra

/-! ## Exponents -/

namespace Fraction

/-- The reciprocal of a natural number. -/
theorem parts_one_div {k : ℕ} (hk : 0 < k) : (1 / k : ℚ).num = 1 ∧ (1 / k : ℚ).den = k := by
  have positive : (0 : ℤ) < k := Int.natCast_pos.mpr hk
  have coprime : Nat.Coprime (1 : ℤ).natAbs (k : ℤ).natAbs := Nat.coprime_one_left _
  have num := Rat.num_div_eq_of_coprime positive coprime
  have den := Rat.den_div_eq_of_coprime positive coprime
  push_cast at num den
  exact ⟨num, by exact_mod_cast den⟩

/-- In lowest terms a reciprocal has numerator one and its order for denominator. -/
theorem reduced_one_div {f : Fraction} {k : ℕ} (hk : 0 < k) (h : f.toRat = 1 / k) :
    f.reduced.num = 1 ∧ f.reduced.den = k := by
  obtain ⟨num, den⟩ := f.reduced_parts
  obtain ⟨one, order⟩ := parts_one_div hk
  rw [h] at num den
  exact ⟨num.trans one, den.trans (congrArg _ order)⟩

variable {n k : ℤ}

/-- The root of a positive integer, if there is one, is positive, and its power is the integer. -/
theorem exactRoot?_pos (hn : 0 < n) (hk : 0 < k) :
    ∃ o, exactRoot? n k = .ok o ∧ ∀ c, o = some c → 0 < c ∧ c ^ k.toNat = n := by
  obtain ⟨o, root, sound⟩ := exactRoot?_sound hn.le hk
  refine ⟨o, root, fun c found => ?_⟩
  obtain ⟨nonneg, power⟩ := sound c found
  have nonzero : c ≠ 0 := by
    rintro rfl
    rw [zero_pow (by omega)] at power
    omega
  exact ⟨lt_of_le_of_ne nonneg nonzero.symm, power⟩

end Fraction

/-! ## Roots of positive numbers -/

namespace Value

/-- If the value is an exact number, that is positive. -/
def IsPositive (v : Value) : Prop := ∀ s, v.Is s → 0 < s

/-- Symbolic values are not exact, so nothing is said of them. -/
theorem isPositive_symbolic (m : Scalar) (c : Constant) : (symbolic m c).IsPositive := by
  rintro s ⟨_, ⟨⟩, -⟩

theorem isPositive_of_is {v : Value} {s : ℚ} (h : v.Is s) (positive : 0 < s) : v.IsPositive := by
  intro t ht
  rwa [ht.unique h]

variable [Tolerance] {f g : Fraction} {b : ℚ} {k : ℕ} {v w : Value}

/-- A positive fraction to the power one. -/
theorem wholePower_one_exactly (positive : 0 < f.toRat) :
    Exactly (fun _ => Scalar.wholePower f 1) fun s => (plain s).IsPositive := by
  unfold Scalar.wholePower
  refine Exactly.ite (fun zero => absurd zero one_ne_zero) fun _ => ?_
  refine Exactly.bind (Scalar.exactPower?_exactly (.inl positive.ne')) fun o ho => ?_
  cases o with
  | some s =>
    have value := ho s rfl
    rw [zpow_one] at value
    exact Exactly.pure (isPositive_of_is ⟨s, rfl, value⟩ positive)
  | none =>
    -- what does not fit is a double, and only zero has no such power
    refine Exactly.ite (fun undefined => ?_) fun _ => Exactly.approximate _
    rw [Bool.and_eq_true] at undefined
    exact absurd ((Fraction.isZero_iff _).mp undefined.1) positive.ne'

/-- A symbolic square root. -/
theorem collapse_half_exactly (d : Double) :
    Exactly (fun _ => collapse .one (.power d 0.5)) (·.IsPositive) := by
  have whole (e : Exactness) : wholeBase? d 0.5 = .ok none := by
    have half : Double.isIntegral 0.5 = false := by decide +kernel
    unfold wholeBase?
    rw [half]
    rfl
  refine Exactly.ite (fun zero => by cases zero) fun _ => ?_
  refine Exactly.ite (fun _ => ?_) fun _ => ?_
  · exact Exactly.pure (isPositive_of_is ⟨_, rfl, Scalar.is_one⟩ one_pos)
  refine Exactly.bind (Exactly.of_forall whole rfl) fun o ho => ?_
  subst ho
  exact Exactly.pure (isPositive_symbolic _ _)

/-- The root of a fraction is a quotient of roots, or for order two a symbolic square root. -/
theorem rootPower?_exactly (hf : f.isNarrow = true) (positive : 0 < f.toRat) (hk : 2 ≤ k)
    (num : g.num = 1) (den : g.den = k) :
    Exactly (fun _ => rootPower? f g) fun o => ∀ v, o = some v → v.IsPositive := by
  obtain ⟨rnum, rden⟩ := f.reduced_parts
  have order : 0 < g.den := by omega
  have top : 0 < f.reduced.num := rnum ▸ Rat.num_pos.mpr positive
  have bottom : 0 < f.reduced.den := rden ▸ Int.natCast_pos.mpr f.toRat.den_pos
  obtain ⟨n, hn, above⟩ := Fraction.exactRoot?_pos top order
  obtain ⟨d, hd, below⟩ := Fraction.exactRoot?_pos bottom order
  unfold rootPower?
  refine Exactly.ite (fun negative => ?_) fun _ => ?_
  · exact absurd (f.sgn_neg_iff.mp negative) (not_lt.mpr positive.le)
  refine Exactly.bind (Exactly.of_forall (fun _ => Scalar.reduceExact_eq hf "num") rfl)
    fun r hr => ?_
  subst hr
  refine Exactly.bind (Exactly.of_eq hn rfl) fun n' hn' => ?_
  refine Exactly.bind (Exactly.of_eq hd rfl) fun d' hd' => ?_
  subst hn' hd'
  -- without both roots only the square root is left
  have rest : Exactly (fun _ => if g.den = 2 then do
      some <$> collapse .one (.power (← f.reduced.toDouble) (← g.toDouble)) else pure none)
      fun o => ∀ v, o = some v → v.IsPositive := by
    refine Exactly.ite (fun two => ?_) fun _ => Exactly.none
    obtain ⟨v, double, -⟩ := Fraction.toDouble_narrow (Fraction.isNarrow_reduced hf)
    have half : g.toDouble = .ok 0.5 := by
      unfold Fraction.toDouble
      rw [num, two]
      decide +kernel
    refine Exactly.bind (Exactly.of_eq double rfl) fun d _ => ?_
    refine Exactly.bind (Exactly.of_eq half rfl) fun e he => ?_
    subst he
    refine Exactly.map ((collapse_half_exactly _).mono ?_)
    rintro s hs v ⟨rfl⟩
    exact hs
  cases n with
  | none => exact rest
  | some n =>
    cases d with
    | none => exact rest
    | some d =>
      have hn : 0 < n := (above n rfl).1
      have hd : 0 < d := (below d rfl).1
      have parts : Fraction.ofParts n d = .ok ⟨n, d, hd.ne'⟩ := dif_neg hd.ne'
      have quotient : 0 < (Fraction.mk n d hd.ne').toRat :=
        div_pos (Int.cast_pos.mpr hn) (Int.cast_pos.mpr hd)
      rw [num]
      refine Exactly.bind (Exactly.of_eq parts rfl) fun q hq => ?_
      subst hq
      refine Exactly.bind (wholePower_one_exactly quotient) fun s hs => Exactly.pure ?_
      rintro v ⟨rfl⟩
      exact hs

/-- A root of a positive value is positive, if it is exact at all. -/
theorem pow_root_exactly (hv : v.Is b) (hb : 0 < b) (hk : 2 ≤ k) (hw : w.Is (1 / k)) :
    Exactly (fun _ => v.pow w) (·.IsPositive) := by
  have refused := powDoubles_exactly (P := IsPositive) hv hw (.inl hb.ne')
  have isZero := hw.isZero_eq
  obtain ⟨s, rfl, f, rfl, hf, rfl⟩ := hv
  obtain ⟨t, rfl, g, rfl, hg, value⟩ := hw
  obtain ⟨num, den⟩ := Fraction.reduced_one_div (by omega) value
  show Exactly (fun _ => plainPow (.exact f) (plain (.exact g))) _
  unfold plainPow
  refine Exactly.decided isZero (fun zero => ?_) fun _ => ?_
  · rw [one_div, inv_eq_zero, Nat.cast_eq_zero] at zero
    omega
  have found : Exactly (fun _ => fractionPower? f g) fun o => ∀ v, o = some v → v.IsPositive := by
    unfold fractionPower?
    refine Exactly.bind (Exactly.of_forall (fun _ => Scalar.reduceExact_eq hg "den") rfl)
      fun r hr => ?_
    subst hr
    -- the order is no one, so the exponent is not taken as an integer
    refine Exactly.ite (fun whole => by omega) fun _ => ?_
    exact rootPower?_exactly hf hb hk num den
  refine Exactly.bind found fun o ho => ?_
  cases o with
  | some v => exact Exactly.pure (ho v rfl)
  | none => exact refused

end Value

namespace Number

/-- If the number is exact and real, it is positive. -/
def IsPositive (z : Number) : Prop := ∀ s : ℚ, z.Is ⟨s, 0⟩ → 0 < s

variable [Tolerance] {b : ℚ} {k : ℕ} {z w : Number}

/-- A root of a positive number is taken as one of a value. -/
theorem pow_root_eq [Exactness] (hz : z.Is ⟨b, 0⟩) (hb : 0 < b) (hk : 2 ≤ k)
    (hw : w.Is ⟨1 / k, 0⟩) : z.pow w = ofValue <$> z.re.pow w.re := by
  have exponent : (⟨1 / k, 0⟩ : GaussianRat) ≠ 0 := fun zero =>
    one_div_ne_zero (Nat.cast_ne_zero.mpr (by omega)) (congrArg (·.re) zero)
  have base : (⟨b, 0⟩ : GaussianRat) ≠ 0 := fun zero => hb.ne' (congrArg (·.re) zero)
  have broken : w.re.isInt = .ok false := by
    have den := (Fraction.parts_one_div (by omega : 0 < k)).2
    rw [hw.1.isInt_eq, den, decide_eq_false (by omega)]
  obtain ⟨sign, sgn, positive, -⟩ := hz.1.sgn_eq
  have above : Calc.both z.isReal (return 0 < (← z.re.sgn)) = .ok true := by
    rw [Calc.both_eq_ok hz.isReal_eq (Calc.bind_eq_ok.mpr ⟨sign, sgn, rfl⟩),
      decide_eq_true rfl, decide_eq_true (positive.mpr hb)]
    rfl
  unfold pow
  rw [hw.isZero_eq, hz.isZero_eq, hw.isReal_eq, decide_eq_false exponent, decide_eq_false base,
    decide_eq_true rfl]
  show z.powReal w = _
  have uncounted (more : Calc Bool) : Calc.both w.re.isInt more = .ok false := by
    unfold Calc.both
    rw [broken]
    rfl
  unfold powReal
  dsimp only
  rw [uncounted, above]
  exact (map_eq_pure_bind ofValue (z.re.pow w.re)).symm

/-- A root of a positive number is positive. -/
theorem pow_root_exactly (hz : z.Is ⟨b, 0⟩) (hb : 0 < b) (hk : 2 ≤ k) (hw : w.Is ⟨1 / k, 0⟩) :
    Exactly (fun _ => z.pow w) (·.IsPositive) := by
  have same : (fun _ : Exactness => z.pow w) = fun _ : Exactness => ofValue <$> z.re.pow w.re :=
    funext fun _ => pow_root_eq hz hb hk hw
  rw [same]
  exact Exactly.map ((Value.pow_root_exactly hz.1 hb hk hw.1).mono fun v hv s hs => hv s hs.1)

/-! ### Powers of one -/

section

variable [Exactness]

theorem one_mul_one : one.mul one = .ok one := rfl

theorem one_div_one : one.div one = .ok one := rfl

/-- Repeated squaring of one. -/
theorem one_powFrom (n : ℕ) : powFrom one one n = .ok one := by
  induction n using Nat.strong_induction_on with
  | _ n ih =>
    have rest : (do if n / 2 = 0 then pure one else powFrom one (← one.mul one) (n / 2)) =
        (.ok one : Calc Number) := by
      split
      · rfl
      · rw [one_mul_one]
        exact ih (n / 2) (by omega)
    unfold powFrom
    split
    · rfl
    · by_cases odd : n % 2 = 1
      · rw [if_pos odd]
        exact Calc.bind_eq_ok.mpr ⟨_, one_mul_one, rest⟩
      · rw [if_neg odd]
        exact rest

/-- An integer power of one, a negative one too. -/
theorem one_powInt (n : ℤ) : one.powInt n = .ok one := by
  unfold powInt powNat
  rw [one_powFrom]
  split
  · exact one_div_one
  · rfl

/-- Every power of one is one, whether its exponent is taken as an integer or not. -/
theorem one_pow {q : ℚ} (hw : w.Is ⟨q, 0⟩) (hq : q ≠ 0)
    (small : q.num.natAbs ≤ Fraction.powerLimit) : one.pow w = .ok one := by
  have exponent : (⟨q, 0⟩ : GaussianRat) ≠ 0 := fun zero => hq (congrArg (·.re) zero)
  have above : Calc.both one.isReal (return 0 < (← one.re.sgn)) = .ok true := rfl
  obtain ⟨d, double, -⟩ := hw.1.toDouble_eq
  have counted : Calc.both w.re.isInt (return (← w.re.toDouble).abs ≤ powLimit) = _ :=
    Calc.both_eq_ok hw.1.isInt_eq (Calc.bind_eq_ok.mpr ⟨d, double, rfl⟩)
  unfold pow
  rw [hw.isZero_eq, is_one.isZero_eq, hw.isReal_eq, decide_eq_false exponent,
    decide_eq_false one_ne_zero, decide_eq_true rfl]
  show one.powReal w = _
  unfold powReal
  dsimp only
  rw [counted, above, double]
  generalize (decide (q.den = 1) && _) = c
  cases c with
  | true => exact one_powInt _
  | false =>
    show ofValue <$> Value.one.pow w.re = _
    rw [Value.one_pow hw.1 hq small]
    rfl

end

end Number

/-! ## Roots of monomials -/

variable [Tolerance] {k : ℕ}

/-- The reciprocal of an order. -/
def Value.reciprocal (k : ℕ) (hk : 2 ≤ k) : Value := .exact ⟨1, k, by omega⟩

omit [Tolerance] in
theorem Value.is_reciprocal (hk : 2 ≤ k) (narrow : k ≤ 2 ^ 53) : (reciprocal k hk).Is (1 / k) :=
  ⟨_, rfl, _, rfl, (Fraction.isNarrow_iff _).mpr ⟨by norm_num, narrow⟩, by simp [Fraction.toRat]⟩

/-- An order times its reciprocal is one: the exponents of a root of a power cancel. -/
theorem Value.mul_reciprocal [Exactness] (hk : 2 ≤ k) :
    (ofInt k).mul (reciprocal k hk) = .ok one := by
  have order : (k : ℚ) ≠ 0 := Nat.cast_ne_zero.mpr (by omega)
  have product : (Fraction.ofInt k).toRat * (Fraction.mk 1 k (by omega)).toRat = 1 := by
    simp [Fraction.toRat, Fraction.ofInt, order]
  have narrow : Narrow 1 := by norm_num [Narrow]
  rw [← product] at narrow
  have exact := Scalar.exact_mul narrow
  rw [product] at exact
  exact congrArg (plain <$> ·) exact

namespace Expr

/-- A root of a power of a variable merges to the variable. -/
theorem combineLeaves_root [Exactness] (name : String) (hk : 2 ≤ k) (narrow : k ≤ 2 ^ 53) :
    combineLeaves (.binary .pow) (leaf (.monomial name .one (.ofInt k)))
      (number (.ofValue (.reciprocal k hk))) = .ok (ofName name) := by
  have root : (Number.ofValue (.reciprocal k hk)).Is ⟨1 / k, 0⟩ :=
    Number.is_ofValue (Value.is_reciprocal hk narrow)
  have coefficient : Number.one.pow (.ofValue (.reciprocal k hk)) = .ok .one := by
    refine Number.one_pow root (one_div_ne_zero (Nat.cast_ne_zero.mpr (by omega))) ?_
    rw [(Fraction.parts_one_div (by omega)).1]
    decide
  have power : Leaf.power? (.monomial name .one (.ofInt k))
      (.number (.ofValue (.reciprocal k hk))) = .ok (some (.ofName name)) := by
    refine Calc.bind_eq_ok.mpr ⟨_, root.isReal_eq, ?_⟩
    rw [if_pos (decide_eq_true rfl)]
    refine Calc.bind_eq_ok.mpr ⟨_, coefficient, ?_⟩
    exact Calc.bind_eq_ok.mpr ⟨_, Value.mul_reciprocal hk, rfl⟩
  exact Calc.bind_eq_ok.mpr ⟨_, power, rfl⟩

/-- A variable with an integer exponent has that power of its value. -/
theorem evaluate_power_exactly (name : String) {x : ℚ} {n : ℤ} {v : Number} (hv : v.Is ⟨x, 0⟩)
    (narrow : n.natAbs ≤ 2 ^ 53) (positive : 0 ≤ n) :
    Exactly (fun _ => evaluate [(name, v)] (leaf (.monomial name .one (.ofInt n))))
      (·.Is ⟨x ^ n, 0⟩) := by
  have found : Bindings.find? [(name, v)] name = some v := by
    simp [Bindings.find?]
  simp only [evaluate, Leaf.evaluate, found]
  refine Exactly.bind (Number.pow_exactly hv (Number.is_ofInt narrow) (.inr positive))
    fun w hw => ?_
  rw [Number.real_zpow] at hw
  rw [← one_mul (⟨x ^ n, 0⟩ : GaussianRat)]
  exact Number.mul_exactly Number.is_one hw

/-- **A root of an even power does not merge.** The leaf that is made of the two is the
variable. Where that is negative, so is the leaf, but the root of the power is positive. -/
theorem root_of_power (name : String) (hk : 2 ≤ k) (even : Even k) (narrow : k ≤ 2 ^ 53) {x : ℚ}
    (negative : x < 0) {v : Number} (hv : v.Is ⟨x, 0⟩) :
    let power := leaf (.monomial name .one (.ofInt k))
    let order := number (.ofValue (.reciprocal k hk))
    combineLeaves (.binary .pow) power order = .ok (ofName name) ∧
      Exactly (fun _ => evaluate [(name, v)] (ofName name)) (·.Is ⟨x, 0⟩) ∧
        Exactly (fun _ => evaluate [(name, v)] (binary .pow power order)) (·.IsPositive) := by
  refine ⟨combineLeaves_root name hk narrow, ?_, ?_⟩
  · have value := evaluate_power_exactly name hv (n := 1) (by norm_num) (by norm_num)
    rwa [zpow_one] at value
  · have positive : 0 < x ^ (k : ℤ) := by
      rw [zpow_natCast]
      exact even.pow_pos negative.ne
    refine Exactly.bind (evaluate_power_exactly name hv narrow (by omega)) fun z hz => ?_
    exact Number.pow_root_exactly hz positive hk
      (Number.is_ofValue (Value.is_reciprocal hk narrow))

omit [Tolerance] in
/-- The square root of the square of minus one. -/
example :
    letI := Double.standardTolerance
    letI := Exactness.free
    let square := leaf (.monomial "x" .one (.ofInt 2))
    let half := number (.ofValue .half)
    combineLeaves (.binary .pow) square half = .ok (ofName "x") ∧
      evaluate [("x", .ofInt (-1))] (ofName "x") = .ok (.ofInt (-1)) ∧
        evaluate [("x", .ofInt (-1))] (binary .pow square half) = .ok .one := by
  decide +kernel

end Expr

end SymbolicAlgebra
