import SymbolicAlgebra.Derivative
import SymbolicAlgebra.Proofs.Combine.Sound
import SymbolicAlgebra.Proofs.Derivative.Real
import SymbolicAlgebra.Proofs.Reading

/-!
# Derivatives are derivatives

`Expr.differentiate` succeeds on every expression that is read, and means the partial
derivative of what the expression means, at every real point where all its parts are
differentiable, unless a coefficient stops being exact (`hasDerivAt_differentiate`).

The induction is on the weight of the tree, as the recursion is: a quotient calls for the
derivative of a power of its divisor, which is no part of it. That power means one over the
divisor at every point where the divisor is not zero, and not only at the one in question
(`reciprocal_exactly`), so it has the derivative of one over the divisor.

Two facts about the trees that are read come in. No exponent is zero, so the power that is
one less has a value where the power has one. And no monomial has power zero, so meanings
are strict, as combining needs them.
-/

namespace SymbolicAlgebra

open Filter Topology

namespace Expr

variable [Tolerance] {x : String} {σ : String → ℝ} {l r t u v : Expr} {a b c d : ℝ}

/-! ## Rules -/

section

variable {K : Type} [Field K] [Coefficients K] {I : Interpretation K} {σ : String → K}
  {a b c d : K}

theorem plus_exactly (hl : Combined I σ a l) (hr : Combined I σ b r) :
    Exactly (fun _ => plus l r) (Combined I σ (a + b)) :=
  combine_exactly hl.flat hr.flat (.add hl.means hr.means)

theorem minus_exactly (hl : Combined I σ a l) (hr : Combined I σ b r) :
    Exactly (fun _ => minus l r) (Combined I σ (a - b)) :=
  combine_exactly hl.flat hr.flat (.sub hl.means hr.means)

theorem times_exactly (hl : Combined I σ a l) (hr : Combined I σ b r) :
    Exactly (fun _ => times l r) (Combined I σ (a * b)) :=
  combine_exactly hl.flat hr.flat (.mul hl.means hr.means)

theorem dividedBy_exactly (hl : Combined I σ a l) (hr : Combined I σ b r) (hb : b ≠ 0) :
    Exactly (fun _ => dividedBy l r) (Combined I σ (a / b)) :=
  combine_exactly hl.flat hr.flat (.div hl.means hr.means hb)

theorem power_exactly {z : Number} {n : ℤ} (hl : Combined I σ a l) (hz : z.Is n)
    (defined : a ≠ 0 ∨ 0 ≤ n) :
    Exactly (fun _ => power l (number z)) (Combined I σ (a ^ n)) :=
  combine_exactly hl.flat True.intro (.pow hl.means hz defined)

theorem square_exactly (hl : Combined I σ a l) :
    Exactly (fun _ => square l) (Combined I σ (a ^ 2)) := by
  rw [← zpow_ofNat]
  exact power_exactly hl (Number.is_ofInt (n := 2) (by norm_num)) (.inr (by norm_num))

theorem oneOver_exactly (hl : Combined I σ a l) (ha : a ≠ 0) :
    Exactly (fun _ => oneOver l) (Combined I σ (1 / a)) :=
  dividedBy_exactly combined_one hl ha

/-- The product rule, where a factor that does not change is left out. -/
theorem productRule_exactly {du dv : Expr} (hu : Combined I σ a u) (hv : Combined I σ b v)
    (hdu : Combined I σ c du) (hdv : Combined I σ d dv) :
    Exactly (fun _ => productRule u v du dv) (Combined I σ (c * b + a * d)) := by
  refine Exactly.ask hdu.means.isZero_eq (fun zero => ?_) ?_
  · rw [zero, zero_mul, zero_add]
    exact times_exactly hu hdv
  refine Exactly.ask hdv.means.isZero_eq (fun zero => ?_) ?_
  · rw [zero, mul_zero, add_zero]
    exact times_exactly hdu hv
  -- neither derivative is zero, so both summands are built
  refine Exactly.bind (times_exactly hdu hv) fun left hl => ?_
  refine Exactly.bind (times_exactly hu hdv) fun right hr => ?_
  exact plus_exactly hl hr

/-- A number less one is a number, and not only a tree that means one. -/
theorem minus_one_exactly {z : Number} {n : ℤ} (hz : z.Is n) :
    Exactly (fun _ => minus (number z) one)
      fun t => ∃ w, t = number w ∧ w.Is ((n - 1 : ℤ) : GaussianRat) := by
  obtain ⟨rounds, depth⟩ := combineDepth_eq_succ (number z) one
  have unfolded : ∀ [Exactness], minus (number z) one =
      atomicSum (combineFrom nested rounds) .sub (number z) one := by
    intro e
    unfold minus combine
    rw [depth]
    rfl
  simp only [unfolded]
  rw [Int.cast_sub, Int.cast_one]
  refine Exactly.decided Number.is_one.isZero_eq (fun h => absurd h one_ne_zero) fun _ => ?_
  refine Exactly.decided hz.isZero_eq (fun zero => ?_) fun _ => ?_
  · refine Exactly.map (Exactly.map ((Number.neg_exactly Number.is_one).mono fun w hw => ?_))
    rw [zero, zero_sub]
    exact ⟨w, rfl, hw⟩
  refine Exactly.decided (Number.is_one.same_eq hz) (fun same => Exactly.pure ?_) fun _ => ?_
  · rw [← same, sub_self]
    exact ⟨_, rfl, Number.is_zero⟩
  refine Exactly.bind (Exactly.of_eq (a := 1) rfl rfl) fun sign hs => ?_
  subst hs
  refine Exactly.ite nofun fun _ => ?_
  have difference : Exactly (fun _ => Leaf.combine? .sub (.number z) (.number .one))
      fun o => ∃ w, o = some (.number w) ∧ w.Is (n - 1) :=
    Exactly.map (Exactly.map ((Number.sub_exactly hz Number.is_one).mono fun w hw => ⟨w, rfl, hw⟩))
  refine Exactly.bind difference fun o ho => ?_
  obtain ⟨w, rfl, hw⟩ := ho
  exact Exactly.pure ⟨w, rfl, hw⟩

/-- The power rule for an exponent that is an integer other than zero. -/
theorem powerRule_exactly {du : Expr} {z : Number} {n : ℤ} (hu : Combined I σ a u)
    (hdu : Combined I σ c du) (hz : z.Is n) (hn : n ≠ 0) (defined : a ≠ 0 ∨ 0 ≤ n) :
    Exactly (fun _ => powerRule u (number z) du zero) (Combined I σ (n * a ^ (n - 1) * c)) := by
  have exponent : Combined I σ (n : K) (number z) := combined_number ⟨_, hz, Coefficients.intCast n⟩
  have lower : a ≠ 0 ∨ 0 ≤ n - 1 := defined.imp_right fun _ => by omega
  refine Exactly.decided Number.is_zero.isZero_eq (fun _ => ?_) fun h => absurd rfl h
  refine Exactly.bind (minus_one_exactly hz) fun _ h => ?_
  obtain ⟨w, rfl, hw⟩ := h
  refine Exactly.bind (power_exactly hu hw lower) fun lowered hp => ?_
  refine Exactly.bind (times_exactly exponent hp) fun slope hm => ?_
  exact times_exactly hm hdu

/-! ## One over a divisor -/

/-- The power that is one over a divisor. -/
theorem raise_reciprocalParts_exactly (hr : MeansStrictly I σ r b) (hb : b ≠ 0) :
    Exactly (fun _ => reciprocalParts r >>= fun p => raise p.1 p.2) (MeansStrictly I σ · b⁻¹) := by
  -- of any divisor but a power
  have plain : ∀ {r : Expr} {b : K}, (∀ [Exactness], reciprocalParts r = pure (r, negOne)) →
      MeansStrictly I σ r b → b ≠ 0 →
      Exactly (fun _ => reciprocalParts r >>= fun p => raise p.1 p.2)
        (MeansStrictly I σ · b⁻¹) := by
    intro r b parts hr hb
    have minus_one : (Number.ofInt (-1)).Is ((-1 : ℤ) : GaussianRat) :=
      Number.is_ofInt (by norm_num)
    simp only [parts]
    rw [← zpow_neg_one]
    refine Exactly.bind (Exactly.pure rfl) fun p hp => ?_
    subst hp
    exact raise_exactly hr minus_one (.inl hb)
  cases hr with
  | @pow l z a n hl exponent defined =>
    -- the exponent of a power is turned round
    have turned : a ≠ 0 ∨ 0 ≤ -n := by
      by_cases ha : a = 0
      · refine .inr ?_
        by_contra negative
        exact hb (by rw [ha, zero_zpow n (by omega)])
      · exact .inl ha
    have parts : Exactly (fun _ => reciprocalParts (binary .pow l (leaf (.number z))))
        fun p => ∃ w, p = (l, number w) ∧ w.Is ((-n : ℤ) : GaussianRat) := by
      refine Exactly.bind (Number.neg_exactly exponent) fun w hw => ?_
      refine Exactly.bind (Exactly.of_eq (present_eq hl) rfl) fun l' h => ?_
      subst h
      exact Exactly.pure ⟨w, rfl, by rwa [Int.cast_neg]⟩
    refine Exactly.bind parts fun p hp => ?_
    obtain ⟨w, rfl, hw⟩ := hp
    rw [← zpow_neg]
    exact raise_exactly hl hw turned
  | number value => exact plain rfl (.number value) hb
  | monomial mult power defined => exact plain rfl (.monomial mult power defined) hb
  | equals hl hr => exact plain rfl (.equals hl hr) hb
  | add hl hr => exact plain rfl (.add hl hr) hb
  | sub hl hr => exact plain rfl (.sub hl hr) hb
  | mul hl hr => exact plain rfl (.mul hl hr) hb
  | div hl hr nonzero => exact plain rfl (.div hl hr nonzero) hb
  | factorial ht value => exact plain rfl (.factorial ht value) hb
  | apply ht value => exact plain rfl (.apply ht value) hb

/-- Base and exponent of one over a divisor have the shape that the divisor has. -/
theorem reciprocalParts_shaped [Exactness] {A : Leaf → Prop} (hA : Leaf.Closed A)
    (hr : r.Shaped A) : Returns (reciprocalParts r) fun p => p.1.Shaped A ∧ p.2.Shaped A := by
  unfold reciprocalParts
  split
  · exact Returns.throw _
  next base z =>
    refine Returns.after fun w => Returns.bind (P := (· = base)) (fun _ => eq_of_present) ?_
    rintro _ rfl
    exact Returns.pure ⟨hr.1, hA.number w⟩
  · exact Returns.throw _
  · exact Returns.pure ⟨hr, hA.number _⟩

/-- Without the bound on its weight, the reciprocal is its parts raised. -/
theorem reciprocal_val [Exactness] (r : Expr) :
    Subtype.val <$> reciprocal r = reciprocalParts r >>= fun p => raise p.1 p.2 := by
  unfold reciprocal
  split
  next h =>
    rw [h]
    rfl
  next p h =>
    refine Eq.trans ?_ (congrArg (· >>= fun p => raise p.1 p.2) h.symm)
    show _ = raise p.1 p.2
    split
    next h' => exact h'.symm
    next h' => exact h'.symm

/-- The power that stands for one over a divisor means that wherever it has a value. -/
theorem reciprocal_exactly (hs : r.Shaped Leaf.HasPower) (hr : MeansStrictly I σ r b)
    (hb : b ≠ 0) :
    Exactly (fun _ => reciprocal r) fun t => t.1.Shaped Leaf.HasPower ∧
      ∀ {σ : String → K} {b : K}, MeansStrictly I σ r b → b ≠ 0 → MeansStrictly I σ t.1 b⁻¹ := by
  let Point := { p : (String → K) × K // MeansStrictly I p.1 r p.2 ∧ p.2 ≠ 0 }
  have : Nonempty Point := ⟨(σ, b), hr, hb⟩
  have everywhere := Exactly.all fun p : Point => raise_reciprocalParts_exactly p.2.1 p.2.2
  have shaped : Returns (reciprocalParts r >>= fun p => raise p.1 p.2) (Shaped Leaf.HasPower) :=
    Returns.bind (reciprocalParts_shaped Leaf.closed_hasPower hs) fun p hp =>
      raise_shaped Leaf.closed_hasPower hp.1 hp.2
  refine Exactly.of_map (R := fun t => t.Shaped Leaf.HasPower ∧ ∀ {σ : String → K} {b : K},
    MeansStrictly I σ r b → b ≠ 0 → MeansStrictly I σ t b⁻¹) Subtype.val_injective ?_
  simp only [reciprocal_val]
  exact (everywhere.keep shaped).mono fun t ht => ⟨ht.2, fun hr hb => ht.1 ⟨(_, _), hr, hb⟩⟩

end

/-! ## Functions -/

/-- The derivative of a function at an argument. -/
theorem outer_exactly {f : Func} (hu : Combined .smooth σ a u)
    (value : Interpretation.smooth.function f a = some b) :
    Exactly (fun _ => outer u f) (Combined .smooth σ (f.slope a)) := by
  have applied : ∀ {f : Func} {b : ℝ}, Interpretation.smooth.function f a = some b →
      Combined .smooth σ b (apply f u) := fun h =>
    ⟨.apply hu.means h, True.intro, hu.flat, nofun, nofun⟩
  cases f with
  | ln =>
    have positive : 0 < a := (Option.ite_none_right_eq_some.mp value).1
    exact oneOver_exactly hu positive.ne'
  | exp => exact Exactly.pure (applied rfl)
  | abs =>
    obtain ⟨nonzero, hb⟩ := Option.ite_none_right_eq_some.mp value
    cases hb
    exact dividedBy_exactly (applied value) hu nonzero
  | sin => exact Exactly.pure (applied rfl)
  | cos => exact negate_exactly (applied rfl)
  | tan =>
    have nonzero : Real.cos a ≠ 0 := (Option.ite_none_right_eq_some.mp value).1
    refine Exactly.bind (square_exactly (applied (f := .cos) rfl)) fun square h => ?_
    exact oneOver_exactly h (pow_ne_zero 2 nonzero)
  | atan =>
    have nonzero : 1 + a ^ 2 ≠ 0 := by positivity
    refine Exactly.bind (square_exactly hu) fun square h => ?_
    refine Exactly.bind (plus_exactly combined_one h) fun sum h => ?_
    exact oneOver_exactly h nonzero
  | sinh => exact Exactly.pure (applied rfl)
  | cosh => exact Exactly.pure (applied rfl)
  | tanh =>
    refine Exactly.bind (square_exactly (applied (f := .cosh) rfl)) fun square h => ?_
    exact oneOver_exactly h (pow_ne_zero 2 (Real.cosh_pos a).ne')
  | atanh =>
    obtain ⟨above, below⟩ := (Option.ite_none_right_eq_some.mp value).1
    have nonzero : 1 - a ^ 2 ≠ 0 := by nlinarith
    refine Exactly.bind (square_exactly hu) fun square h => ?_
    refine Exactly.bind (minus_exactly combined_one h) fun difference h => ?_
    exact oneOver_exactly h nonzero
  -- the other four have no derivative that is given
  | asin => cases value
  | acos => cases value
  | asinh => cases value
  | acosh => cases value

/-! ## Derivatives -/

/-- The derivative of a leaf succeeds and means its partial derivative. -/
theorem differentiateLeaf_exactly {y : Leaf} (hv : MeansStrictly .smooth σ (leaf y) a) :
    ∃ d, HasPartial 1 x σ (leaf y) a d ∧
      Exactly (fun _ => differentiateLeaf x y) (Combined .smooth σ d) := by
  cases hv with
  | number value => exact ⟨0, .number value, Exactly.pure combined_zero⟩
  | @monomial y m p c k mult power defined =>
    by_cases hy : y = x
    · subst hy
      refine ⟨_, .monomial mult power defined zero_le_one, ?_⟩
      refine Exactly.ite (fun h => by simp at h) fun _ => ?_
      refine Exactly.decided power.isZero_eq (fun zero => Exactly.pure ?_) fun nonzero => ?_
      · rw [Int.cast_eq_zero.mp zero, Int.cast_zero, zero_mul, mul_zero]
        exact combined_zero
      have integer : (Number.ofValue p).StandsFor (k : ℝ) :=
        ⟨_, Number.is_ofValue power, Coefficients.intCast k⟩
      refine Exactly.bind (mult.mul_exactly integer) fun m' hm => ?_
      refine Exactly.bind (Value.sub_exactly power Value.is_one) fun q hq => ?_
      rw [← Int.cast_one, ← Int.cast_sub] at hq
      rw [← mul_assoc]
      refine Exactly.decided hq.isZero_eq (fun one => Exactly.pure ?_) fun other => ?_
      · rw [Int.cast_eq_zero.mp one, zpow_zero, mul_one]
        exact combined_number hm
      have still : k - 1 ≠ 0 := mt Int.cast_eq_zero.mpr other
      have defined' : σ y ≠ 0 ∨ 0 < k - 1 := defined.imp_right fun _ => by omega
      exact Exactly.pure ⟨.monomial hm hq defined', True.intro⟩
    · refine ⟨0, .monomial_of_ne hy mult power defined, ?_⟩
      exact Exactly.ite (fun _ => Exactly.pure combined_zero) fun h => by simp [hy] at h

/-- The derivative of a tree succeeds and means its partial derivative. -/
theorem differentiate_exactly (hs : t.Shaped Leaf.HasPower) (hv : MeansStrictly .smooth σ t a) :
    ∃ d, HasPartial 1 x σ t a d ∧
      Exactly (fun _ => differentiate x t) (Combined .smooth σ d) := by
  induction hw : t.weight using Nat.strong_induction_on generalizing t a with
  | _ weight ih =>
    subst hw
    -- of lighter trees
    have lighter : ∀ {u : Expr} {b : ℝ}, u.weight < t.weight → u.Shaped Leaf.HasPower →
        MeansStrictly .smooth σ u b → ∃ d, HasPartial 1 x σ u b d ∧
          Exactly (fun _ => differentiate x u) (Combined .smooth σ d) :=
      fun hw hs hv => ih _ hw hs hv rfl
    cases hv with
    | number value =>
      simp only [differentiate]
      exact differentiateLeaf_exactly (.number value)
    | monomial mult power defined =>
      simp only [differentiate]
      exact differentiateLeaf_exactly (.monomial mult power defined)
    | equals hl hr =>
      obtain ⟨c, partial_l, dl⟩ := lighter (weight_lt_left ..) hs.1 hl
      obtain ⟨d, partial_r, dr⟩ := lighter (weight_lt_right ..) hs.2.1 hr
      refine ⟨_, partial_l.equals partial_r, ?_⟩
      simp only [differentiate]
      refine Exactly.bind dl fun dl' hl => Exactly.bind dr fun dr' hr => ?_
      exact combine_exactly hl.flat hr.flat (.equals hl.means hr.means)
    | add hl hr =>
      obtain ⟨c, partial_l, dl⟩ := lighter (weight_lt_left ..) hs.1 hl
      obtain ⟨d, partial_r, dr⟩ := lighter (weight_lt_right ..) hs.2.1 hr
      refine ⟨_, partial_l.add partial_r, ?_⟩
      simp only [differentiate]
      refine Exactly.bind dl fun dl' hl => Exactly.bind dr fun dr' hr => ?_
      exact plus_exactly hl hr
    | sub hl hr =>
      obtain ⟨c, partial_l, dl⟩ := lighter (weight_lt_left ..) hs.1 hl
      obtain ⟨d, partial_r, dr⟩ := lighter (weight_lt_right ..) hs.2.1 hr
      refine ⟨_, partial_l.sub partial_r, ?_⟩
      simp only [differentiate]
      refine Exactly.bind dl fun dl' hl => Exactly.bind dr fun dr' hr => ?_
      exact minus_exactly hl hr
    | mul hl hr =>
      obtain ⟨c, partial_l, dl⟩ := lighter (weight_lt_left ..) hs.1 hl
      obtain ⟨d, partial_r, dr⟩ := lighter (weight_lt_right ..) hs.2.1 hr
      refine ⟨_, partial_l.mul partial_r, ?_⟩
      simp only [differentiate]
      refine Exactly.bind dl fun dl' hdl => Exactly.bind dr fun dr' hdr => ?_
      exact productRule_exactly ⟨hl, hs.1.flat⟩ ⟨hr, hs.2.1.flat⟩ hdl hdr
    | @div l r _ _ hl hr hb =>
      obtain ⟨c, partial_l, dl⟩ := lighter (weight_lt_left ..) hs.1 hl
      obtain ⟨d, partial_r, -⟩ := lighter (weight_lt_right ..) hs.2.1 hr
      refine ⟨_, partial_l.div partial_r hb, ?_⟩
      simp only [differentiate]
      refine Exactly.bind (reciprocal_exactly hs.2.1 hr hb) fun recip h => ?_
      obtain ⟨shaped, inverse⟩ := h
      refine Exactly.bind dl fun _ hdl => ?_
      -- one over the divisor is no part of the tree, but it is lighter
      have light := recip.2
      have weight : recip.1.weight < (binary .div l r).weight := by
        have := weight_pos l
        simp only [Expr.weight, ↓reduceIte]
        omega
      obtain ⟨d', partial_recip, dr⟩ := lighter weight shaped (inverse hr hb)
      -- and its derivative is that of one over the divisor, which it means nearby
      rw [← partial_recip.unique (partial_r.inv hb inverse)]
      refine Exactly.bind dr fun dr' hdr => ?_
      exact productRule_exactly ⟨hl, hs.1.flat⟩ ⟨inverse hr hb, shaped.flat⟩ hdl hdr
    | @pow l z _ n hl exponent defined =>
      have nonzero : n ≠ 0 := by
        rintro rfl
        have zero : z.isZero = .ok false := hs.2.2.2 rfl
        rw [exponent.isZero_eq] at zero
        simp at zero
      obtain ⟨c, partial_l, dl⟩ := lighter (weight_lt_left ..) hs.1 hl
      refine ⟨_, partial_l.pow exponent defined, ?_⟩
      simp only [differentiate, differentiateLeaf]
      refine Exactly.bind dl fun dl' hdl => ?_
      -- the exponent is a number, whose derivative is the literal zero
      refine Exactly.bind (Exactly.pure rfl) fun dr' h => ?_
      subst h
      exact powerRule_exactly ⟨hl, hs.1.flat⟩ hdl exponent nonzero defined
    | factorial _ value => cases value
    | apply ht value =>
      obtain ⟨c, partial_t, dt⟩ := lighter (weight_lt_right ..) hs.2.1 ht
      refine ⟨_, partial_t.apply value, ?_⟩
      simp only [differentiate]
      refine Exactly.bind dt fun du hdu => ?_
      refine Exactly.ask hdu.means.isZero_eq (fun zero => Exactly.pure ?_) ?_
      · rw [zero, mul_zero]
        exact combined_zero
      · rw [mul_comm]
        refine Exactly.bind (outer_exactly ⟨ht, hs.2.1.flat⟩ value) fun outside h => ?_
        exact times_exactly hdu h

/-- The derivative of an expression that is read succeeds, and means the partial derivative of
what the expression means, at every point where all parts of it are differentiable, unless a
coefficient stops being exact. -/
theorem hasDerivAt_differentiate {reading : Reading} {allowed : Option (List String)}
    {text : String} {v : ℝ} (ht : parse reading allowed text = .ok t)
    (hv : Means .smooth σ t v) (exact : StaysExact fun _ => differentiate x t) :
    ∃ t' d f, differentiate x t = .ok t' ∧ Means .smooth σ t' d ∧
      (∀ᶠ y in 𝓝 (σ x), Means .smooth (Function.update σ x y) t (f y)) ∧
      HasDerivAt f d (σ x) := by
  have hs := parse_shaped reading allowed text t ht
  obtain ⟨d, ⟨f, near, -, deriv⟩, derivative⟩ := differentiate_exactly hs (means_strictly hs hv)
  obtain ⟨t', result, combined⟩ := derivative.result exact
  exact ⟨t', d, f, result, combined.means.mono zero_le_one,
    near.mono fun _ h => h.mono zero_le_one, deriv⟩

omit [Tolerance] in
/-- The derivative of `x*sinx` at `x = 1`. -/
theorem hasDerivAt_differentiate_product :
    letI := Double.standardTolerance
    let t := binary .mul (ofName "x") (apply .sin (ofName "x"))
    let σ : String → ℝ := fun _ => 1
    ∃ t' d f, differentiate "x" t = .ok t' ∧ Means .smooth σ t' d ∧
      (∀ᶠ y in 𝓝 (σ "x"), Means .smooth (Function.update σ "x" y) t (f y)) ∧
      HasDerivAt f d (σ "x") := by
  let := Double.standardTolerance
  intro t σ
  have hx : Means .smooth σ (ofName "x") 1 := means_ofName zero_le_one "x"
  have read : parse .standard none "x*sinx" = .ok t := by decide +kernel
  refine hasDerivAt_differentiate read (.mul hx (.apply hx rfl)) ?_
  unfold StaysExact
  decide +kernel

end Expr

end SymbolicAlgebra
