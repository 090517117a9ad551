import SymbolicAlgebra.Proofs.Meaning

/-!
# Expressions over the reals

The meaning of an expression in real numbers, at points where it has a derivative, and its
partial derivatives.

`Interpretation.smooth` gives the functions their real values, each only where it is
differentiable: so an expression that means something there is differentiable together with
all its parts. `HasPartial` says that it has a partial derivative: around the point it means
a function of the variable, and that has the derivative. There is one rule for each shape of
expression.
-/

namespace SymbolicAlgebra

open Filter Topology

/-! ## Real coefficients and functions -/

/-- The Gaussian rationals without an imaginary part have a place among the reals. -/
instance : Coefficients ℝ where
  Stands g a := g.im = 0 ∧ (g.re : ℝ) = a
  one := ⟨rfl, Rat.cast_one⟩
  neg := by
    rintro g _ ⟨im, rfl⟩
    exact ⟨by rw [QuadraticAlgebra.im_neg, im, neg_zero], Rat.cast_neg g.re⟩
  add := by
    rintro g h _ _ ⟨im, rfl⟩ ⟨im', rfl⟩
    exact ⟨by rw [QuadraticAlgebra.im_add, im, im', add_zero], Rat.cast_add g.re h.re⟩
  mul := by
    rintro g h _ _ ⟨im, rfl⟩ ⟨im', rfl⟩
    refine ⟨by rw [QuadraticAlgebra.im_mul, im, im']; ring, ?_⟩
    rw [← Rat.cast_mul, QuadraticAlgebra.re_mul, im, mul_zero, zero_mul, add_zero]
  inv := by
    rintro ⟨q, i⟩ _ ⟨rfl, rfl⟩
    have inverse := Number.real_zpow q (-1)
    rw [zpow_neg_one, zpow_neg_one] at inverse
    rw [inverse]
    exact ⟨rfl, Rat.cast_inv q⟩
  eq_zero_iff := by
    rintro ⟨q, i⟩ _ ⟨rfl, rfl⟩
    rw [Rat.cast_eq_zero, QuadraticAlgebra.ext_iff]
    exact and_iff_left rfl

/-- The real functions where they are differentiable. The inverses of the sine and cosine,
those of their hyperbolic counterparts and the factorial have no meaning here. -/
noncomputable def Interpretation.smooth : Interpretation ℝ where
  function
    | .ln, a => if 0 < a then some (Real.log a) else .none
    | .exp, a => some (Real.exp a)
    | .abs, a => if a ≠ 0 then some |a| else .none
    | .sin, a => some (Real.sin a)
    | .cos, a => some (Real.cos a)
    | .tan, a => if Real.cos a ≠ 0 then some (Real.tan a) else .none
    | .atan, a => some (Real.arctan a)
    | .sinh, a => some (Real.sinh a)
    | .cosh, a => some (Real.cosh a)
    | .tanh, a => some (Real.tanh a)
    | .atanh, a => if -1 < a ∧ a < 1 then some (Real.artanh a) else .none
    | .asin, _ | .acos, _ | .asinh, _ | .acosh, _ => .none
  factorial _ := .none

/-- The derivative of the absolute value, in the form that the rule gives it. -/
theorem hasDerivAt_abs_div {a : ℝ} (h : a ≠ 0) : HasDerivAt (fun x : ℝ => |x|) (|a| / a) a := by
  rcases lt_or_gt_of_ne h with negative | positive
  · rw [abs_of_neg negative, neg_div, div_self h]
    exact hasDerivAt_abs_neg negative
  · rw [abs_of_pos positive, div_self h]
    exact hasDerivAt_abs_pos positive

/-- The derivative of the hyperbolic tangent, by the quotient rule. -/
theorem hasDerivAt_tanh (a : ℝ) : HasDerivAt Real.tanh (1 / Real.cosh a ^ 2) a := by
  have quotient : Real.tanh = Real.sinh / Real.cosh := funext Real.tanh_eq_sinh_div_cosh
  rw [quotient]
  refine HasDerivAt.congr_deriv
    ((Real.hasDerivAt_sinh a).div (Real.hasDerivAt_cosh a) (Real.cosh_pos a).ne') ?_
  rw [← sq, ← sq, Real.cosh_sq_sub_sinh_sq]

/-- The derivative of the inverse hyperbolic tangent, from its form with logarithms. -/
theorem hasDerivAt_artanh {a : ℝ} (h : -1 < a) (h' : a < 1) :
    HasDerivAt Real.artanh (1 / (1 - a ^ 2)) a := by
  have above : 1 + a ≠ 0 := by linarith
  have below : 1 - a ≠ 0 := by linarith
  have logs : HasDerivAt (fun x => 1 / 2 * (Real.log (1 + x) - Real.log (1 - x)))
      (1 / 2 * (1 / (1 + a) - -1 / (1 - a))) a :=
    ((((hasDerivAt_id a).const_add 1).log above).sub
      (((hasDerivAt_id a).const_sub 1).log below)).const_mul (1 / 2)
  have near : Real.artanh =ᶠ[𝓝 a] fun x => 1 / 2 * (Real.log (1 + x) - Real.log (1 - x)) := by
    filter_upwards [Ioo_mem_nhds h h'] with x hx
    rw [Real.artanh_eq_half_log (Set.Ioo_subset_Icc_self hx), Real.log_div]
    · linarith [hx.1]
    · linarith [hx.2]
  refine (logs.congr_of_eventuallyEq near).congr_deriv ?_
  have product : 1 - a ^ 2 = (1 + a) * (1 - a) := by ring
  rw [product]
  field_simp
  ring

/-- The derivatives of the functions. -/
noncomputable def Func.slope : Func → ℝ → ℝ
  | .ln, a => 1 / a
  | .exp, a => Real.exp a
  | .abs, a => |a| / a
  | .sin, a => Real.cos a
  | .cos, a => -Real.sin a
  | .tan, a => 1 / Real.cos a ^ 2
  | .atan, a => 1 / (1 + a ^ 2)
  | .sinh, a => Real.cosh a
  | .cosh, a => Real.sinh a
  | .tanh, a => 1 / Real.cosh a ^ 2
  | .atanh, a => 1 / (1 - a ^ 2)
  | .asin, _ | .acos, _ | .asinh, _ | .acosh, _ => 0

/-- Around a point where a function has a value it has values, and a derivative. -/
theorem hasDerivAt_smooth {f : Func} {a b : ℝ} (h : Interpretation.smooth.function f a = some b) :
    ∃ g : ℝ → ℝ, g a = b ∧ (∀ᶠ y in 𝓝 a, Interpretation.smooth.function f y = some (g y)) ∧
      HasDerivAt g (f.slope a) a := by
  -- a function that has values everywhere
  have total : ∀ {f : Func} {g : ℝ → ℝ},
      (∀ y, Interpretation.smooth.function f y = some (g y)) → HasDerivAt g (f.slope a) a →
      Interpretation.smooth.function f a = some b →
      ∃ g : ℝ → ℝ, g a = b ∧ (∀ᶠ y in 𝓝 a, Interpretation.smooth.function f y = some (g y)) ∧
        HasDerivAt g (f.slope a) a := by
    intro f g value deriv h
    exact ⟨g, Option.some_inj.mp ((value a).symm.trans h), .of_forall value, deriv⟩
  -- a function that has values in an open set of points
  have partly : ∀ {f : Func} {g : ℝ → ℝ} {p : ℝ → Prop} [DecidablePred p],
      (∀ y, Interpretation.smooth.function f y = if p y then some (g y) else none) →
      (p a → ∀ᶠ y in 𝓝 a, p y) → (p a → HasDerivAt g (f.slope a) a) →
      Interpretation.smooth.function f a = some b →
      ∃ g : ℝ → ℝ, g a = b ∧ (∀ᶠ y in 𝓝 a, Interpretation.smooth.function f y = some (g y)) ∧
        HasDerivAt g (f.slope a) a := by
    intro f g p _ value near deriv h
    rw [value] at h
    obtain ⟨hp, hb⟩ := Option.ite_none_right_eq_some.mp h
    refine ⟨g, Option.some_inj.mp hb, ?_, deriv hp⟩
    filter_upwards [near hp] with y hy
    rw [value, if_pos hy]
  cases f with
  | ln =>
    refine partly (fun _ => rfl) eventually_gt_nhds (fun ha => ?_) h
    exact (Real.hasDerivAt_log ha.ne').congr_deriv (one_div a).symm
  | exp => exact total (fun _ => rfl) (Real.hasDerivAt_exp a) h
  | abs => exact partly (fun _ => rfl) eventually_ne_nhds hasDerivAt_abs_div h
  | sin => exact total (fun _ => rfl) (Real.hasDerivAt_sin a) h
  | cos => exact total (fun _ => rfl) (Real.hasDerivAt_cos a) h
  | tan =>
    exact partly (fun _ => rfl) Real.continuous_cos.continuousAt.eventually_ne
      Real.hasDerivAt_tan h
  | atan => exact total (fun _ => rfl) (Real.hasDerivAt_arctan a) h
  | sinh => exact total (fun _ => rfl) (Real.hasDerivAt_sinh a) h
  | cosh => exact total (fun _ => rfl) (Real.hasDerivAt_cosh a) h
  | tanh => exact total (fun _ => rfl) (hasDerivAt_tanh a) h
  | atanh =>
    exact partly (fun _ => rfl) (fun ha => Ioo_mem_nhds ha.1 ha.2)
      (fun ha => hasDerivAt_artanh ha.1 ha.2) h
  | asin => cases h
  | acos => cases h
  | asinh => cases h
  | acosh => cases h

/-! ## Partial derivatives -/

/-- The expression means `v` at the point and has the partial derivative `d` there: around
the point it means a function of the variable with this derivative. -/
def HasPartial (least : ℤ) (x : String) (σ : String → ℝ) (t : Expr) (v d : ℝ) : Prop :=
  ∃ f : ℝ → ℝ, (∀ᶠ y in 𝓝 (σ x), MeansFrom least .smooth (Function.update σ x y) t (f y)) ∧
    f (σ x) = v ∧ HasDerivAt f d (σ x)

namespace HasPartial

variable {least : ℤ} {x : String} {σ : String → ℝ} {l r t : Expr} {a b c d u v : ℝ}

/-- There is one partial derivative at most. -/
theorem unique (h : HasPartial least x σ t v d) (h' : HasPartial least x σ t u c) : d = c := by
  obtain ⟨f, near, -, deriv⟩ := h
  obtain ⟨g, near', -, deriv'⟩ := h'
  refine deriv.unique (deriv'.congr_of_eventuallyEq ?_)
  filter_upwards [near, near'] with y hf hg
  exact hf.unique hg

theorem number {z : Number} (value : z.StandsFor v) :
    HasPartial least x σ (.leaf (.number z)) v 0 :=
  ⟨fun _ => v, .of_forall fun _ => .number value, rfl, hasDerivAt_const _ _⟩

/-- A monomial of another variable. -/
theorem monomial_of_ne {y : String} {m : Number} {p : Value} {k : ℤ} (hy : y ≠ x)
    (mult : m.StandsFor c) (power : p.Is k) (defined : σ y ≠ 0 ∨ least ≤ k) :
    HasPartial least x σ (.leaf (.monomial y m p)) (c * σ y ^ k) 0 := by
  refine ⟨fun _ => c * σ y ^ k, .of_forall fun z => ?_, rfl, hasDerivAt_const _ _⟩
  have same : Function.update σ x z y = σ y := Function.update_of_ne hy z σ
  rw [← same] at defined ⊢
  exact .monomial mult power defined

/-- A monomial of the variable. -/
theorem monomial {m : Number} {p : Value} {k : ℤ} (mult : m.StandsFor c) (power : p.Is k)
    (defined : σ x ≠ 0 ∨ least ≤ k) (hl : 0 ≤ least) :
    HasPartial least x σ (.leaf (.monomial x m p)) (c * σ x ^ k)
      (c * (k * σ x ^ (k - 1))) := by
  refine ⟨fun y => c * y ^ k, ?_, rfl, ?_⟩
  · have near : ∀ᶠ y in 𝓝 (σ x), y ≠ 0 ∨ least ≤ k := by
      rcases defined with nonzero | positive
      · exact (eventually_ne_nhds nonzero).mono fun _ => .inl
      · exact .of_forall fun _ => .inr positive
    filter_upwards [near] with y hy
    have same : Function.update σ x y x = y := Function.update_self x y σ
    have := MeansFrom.monomial (I := .smooth) (σ := Function.update σ x y) (x := x) mult power
      (by rw [same]; exact hy)
    rw [same] at this
    exact this
  · exact (hasDerivAt_zpow k _ (defined.imp_right hl.trans)).const_mul c

/-- An equation means the difference of its sides, and is differentiated side by side. -/
theorem equals (hl : HasPartial least x σ l a c) (hr : HasPartial least x σ r b d) :
    HasPartial least x σ (.binary .equals l r) (a - b) (c - d) := by
  obtain ⟨f, near, rfl, deriv⟩ := hl
  obtain ⟨g, near', rfl, deriv'⟩ := hr
  exact ⟨f - g, near.mp (near'.mono fun _ hr hl => .equals hl hr), rfl, deriv.sub deriv'⟩

/-- The sum rule. -/
theorem add (hl : HasPartial least x σ l a c) (hr : HasPartial least x σ r b d) :
    HasPartial least x σ (.binary .add l r) (a + b) (c + d) := by
  obtain ⟨f, near, rfl, deriv⟩ := hl
  obtain ⟨g, near', rfl, deriv'⟩ := hr
  exact ⟨f + g, near.mp (near'.mono fun _ hr hl => .add hl hr), rfl, deriv.add deriv'⟩

/-- The difference rule. -/
theorem sub (hl : HasPartial least x σ l a c) (hr : HasPartial least x σ r b d) :
    HasPartial least x σ (.binary .sub l r) (a - b) (c - d) := by
  obtain ⟨f, near, rfl, deriv⟩ := hl
  obtain ⟨g, near', rfl, deriv'⟩ := hr
  exact ⟨f - g, near.mp (near'.mono fun _ hr hl => .sub hl hr), rfl, deriv.sub deriv'⟩

/-- The product rule. -/
theorem mul (hl : HasPartial least x σ l a c) (hr : HasPartial least x σ r b d) :
    HasPartial least x σ (.binary .mul l r) (a * b) (c * b + a * d) := by
  obtain ⟨f, near, rfl, deriv⟩ := hl
  obtain ⟨g, near', rfl, deriv'⟩ := hr
  exact ⟨f * g, near.mp (near'.mono fun _ hr hl => .mul hl hr), rfl, deriv.mul deriv'⟩

/-- Around a point where an expression is not zero it is not zero either. -/
theorem eventually_ne (hr : HasPartial least x σ r b d) (hb : b ≠ 0) :
    ∃ g : ℝ → ℝ, (∀ᶠ y in 𝓝 (σ x),
        MeansFrom least .smooth (Function.update σ x y) r (g y) ∧ g y ≠ 0) ∧
      g (σ x) = b ∧ HasDerivAt g d (σ x) := by
  obtain ⟨g, near, rfl, deriv⟩ := hr
  exact ⟨g, near.and (deriv.continuousAt.eventually_ne hb), rfl, deriv⟩

/-- The quotient rule, as the product rule for the reciprocal of the divisor has it. -/
theorem div (hl : HasPartial least x σ l a c) (hr : HasPartial least x σ r b d) (hb : b ≠ 0) :
    HasPartial least x σ (.binary .div l r) (a / b) (c * b⁻¹ + a * (-d / b ^ 2)) := by
  obtain ⟨f, near, rfl, deriv⟩ := hl
  obtain ⟨g, near', rfl, deriv'⟩ := hr.eventually_ne hb
  refine ⟨f / g, ?_, rfl, (deriv.div deriv' hb).congr_deriv ?_⟩
  · filter_upwards [near, near'] with y hl hr
    exact .div hl hr.1 hr.2
  · field_simp
    ring

/-- What means one over an expression has the derivative of that. -/
theorem inv (hr : HasPartial least x σ r b d) (hb : b ≠ 0)
    (ht : ∀ {σ : String → ℝ} {b : ℝ}, MeansFrom least .smooth σ r b → b ≠ 0 →
      MeansFrom least .smooth σ t b⁻¹) : HasPartial least x σ t b⁻¹ (-d / b ^ 2) := by
  obtain ⟨g, near, rfl, deriv⟩ := hr.eventually_ne hb
  exact ⟨g⁻¹, near.mono fun _ hr => ht hr.1 hr.2, rfl, deriv.inv hb⟩

/-- The power rule, for an integer exponent. -/
theorem pow {z : Number} {n : ℤ} (hl : HasPartial least x σ l a c) (exponent : z.Is n)
    (defined : a ≠ 0 ∨ 0 ≤ n) : HasPartial least x σ (.binary .pow l (.leaf (.number z)))
      (a ^ n) (n * a ^ (n - 1) * c) := by
  obtain ⟨f, near, rfl, deriv⟩ := hl
  have near' : ∀ᶠ y in 𝓝 (σ x), f y ≠ 0 ∨ 0 ≤ n := by
    rcases defined with nonzero | positive
    · exact (deriv.continuousAt.eventually_ne nonzero).mono fun _ => .inl
    · exact .of_forall fun _ => .inr positive
  refine ⟨fun y => f y ^ n, ?_, rfl, (hasDerivAt_zpow n _ defined).comp _ deriv⟩
  filter_upwards [near, near'] with y hl hy
  exact .pow hl exponent hy

/-- The chain rule. -/
theorem apply {f : Func} (ht : HasPartial least x σ t a c)
    (value : Interpretation.smooth.function f a = some b) :
    HasPartial least x σ (.apply f t) b (f.slope a * c) := by
  obtain ⟨h, near, rfl, deriv⟩ := ht
  obtain ⟨g, rfl, near', deriv'⟩ := hasDerivAt_smooth value
  refine ⟨g ∘ h, ?_, rfl, deriv'.comp _ deriv⟩
  filter_upwards [near, deriv.continuousAt.eventually near'] with y ht hy
  exact .apply ht hy

end HasPartial

end SymbolicAlgebra
