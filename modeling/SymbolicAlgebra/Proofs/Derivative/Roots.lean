import Mathlib.Analysis.SpecialFunctions.Arcosh
import SymbolicAlgebra.Proofs.Combine.Nested
import SymbolicAlgebra.Proofs.Derivative.Sound

/-!
# Derivatives with square roots

The derivatives of the inverse sine and cosine and of their hyperbolic counterparts have square
roots in them, and these are beside what `Interpretation.smooth` gives a meaning to: their
exponent is no integer. A root stays a node where it is of an operator, and then it is a solid
operand of everything that is combined with it. So the derivative is a tree that has a meaning,
divided by one or two such roots (`OverRoots`): combining with it reaches the tree below the
roots, and the roots come after it one by one.

With that reading of the half powers the derivative is the derivative at every real point where
the function has one, provided that the rule takes roots of operators only (`hasDerivAt_inverse`).
A leaf under a root is another matter. The root merges with a monomial, which halves its power,
and of an even power that is no root where the variable is negative. So the derivative of
`acosh(x^2+1)` has the wrong sign there (`derivative_arcosh_opposite`).
-/

namespace SymbolicAlgebra

open Filter Topology

/-! ## The functions -/

/-- Left of zero the inverse hyperbolic cosine of `y ^ 2 + 1` falls. -/
theorem hasDerivAt_arcosh_square {a : ℝ} (ha : a < 0) :
    HasDerivAt (fun y => Real.arcosh (y ^ 2 + 1)) (-(2 / √(a ^ 2 + 2))) a := by
  have above : 1 < a ^ 2 + 1 := by
    have := sq_pos_of_neg ha
    linarith
  have inner : HasDerivAt (fun y : ℝ => y ^ 2 + 1) (2 * a) a := by
    refine ((hasDerivAt_pow 2 a).add_const 1).congr_deriv ?_
    norm_num
  have product : (a ^ 2 + 1) ^ 2 - 1 = a ^ 2 * (a ^ 2 + 2) := by ring
  have root : √((a ^ 2 + 1) ^ 2 - 1) = -a * √(a ^ 2 + 2) := by
    rw [product, Real.sqrt_mul (sq_nonneg a), Real.sqrt_sq_eq_abs, abs_of_neg ha]
  have nonzero := ha.ne
  refine (HasDerivAt.comp (h := fun y => y ^ 2 + 1) a (Real.hasDerivAt_arcosh above)
    inner).congr_deriv ?_
  show (√((a ^ 2 + 1) ^ 2 - 1))⁻¹ * (2 * a) = _
  rw [root]
  field_simp

namespace Func

/-- The inverse functions whose derivatives have square roots, where they are differentiable. -/
noncomputable def inverse : Func → ℝ → Option ℝ
  | .asin, a => if -1 < a ∧ a < 1 then some (Real.arcsin a) else none
  | .acos, a => if -1 < a ∧ a < 1 then some (Real.arccos a) else none
  | .asinh, a => some (Real.arsinh a)
  | .acosh, a => if 1 < a then some (Real.arcosh a) else none
  | _, _ => none

/-- The derivatives of these functions. -/
noncomputable def inverseSlope : Func → ℝ → ℝ
  | .asin, a => 1 / √(1 - a ^ 2)
  | .acos, a => -1 / √(1 - a ^ 2)
  | .asinh, a => 1 / √(a ^ 2 + 1)
  | .acosh, a => 1 / √(a - 1) / √(a + 1)
  | _, _ => 0

variable {f : Func} {a b : ℝ}

/-- Around a point where an inverse function has a value it has values, and a derivative. -/
theorem hasDerivAt_inverse (h : f.inverse a = some b) :
    ∃ g : ℝ → ℝ, g a = b ∧ (∀ᶠ y in 𝓝 a, f.inverse y = some (g y)) ∧
      HasDerivAt g (f.inverseSlope a) a := by
  cases f with
  | asin =>
    obtain ⟨⟨above, below⟩, value⟩ := Option.ite_none_right_eq_some.mp h
    refine ⟨Real.arcsin, Option.some_inj.mp value, ?_, Real.hasDerivAt_arcsin above.ne' below.ne⟩
    filter_upwards [Ioo_mem_nhds above below] with y hy
    exact if_pos hy
  | acos =>
    obtain ⟨⟨above, below⟩, value⟩ := Option.ite_none_right_eq_some.mp h
    refine ⟨Real.arccos, Option.some_inj.mp value, ?_, ?_⟩
    · filter_upwards [Ioo_mem_nhds above below] with y hy
      exact if_pos hy
    · refine (Real.hasDerivAt_arccos above.ne' below.ne).congr_deriv ?_
      exact (neg_div _ _).symm
  | asinh =>
    refine ⟨Real.arsinh, Option.some_inj.mp h, .of_forall fun _ => rfl, ?_⟩
    refine (Real.hasDerivAt_arsinh a).congr_deriv ?_
    rw [← one_div, add_comm]
    rfl
  | acosh =>
    obtain ⟨above, value⟩ := Option.ite_none_right_eq_some.mp h
    refine ⟨Real.arcosh, Option.some_inj.mp value, ?_, ?_⟩
    · filter_upwards [Ioi_mem_nhds above] with y hy
      exact if_pos hy
    · refine (Real.hasDerivAt_arcosh above).congr_deriv ?_
      have product : a ^ 2 - 1 = (a - 1) * (a + 1) := by ring
      rw [product, Real.sqrt_mul (by linarith), ← one_div, ← div_div]
      rfl
  | _ => cases h

end Func

namespace Number

theorem is_half : (ofValue .half).Is ⟨1 / 2, 0⟩ :=
  is_ofValue ⟨_, rfl, _, rfl, by decide, by simp [Fraction.toRat, Fraction.halves]⟩

end Number

namespace Expr

variable [Tolerance] {x : String} {σ : String → ℝ} {p q t u w : Expr} {a b c s v : ℝ}

/-! ## Roots -/

/-- A square root of a tree with a positive value. -/
inductive Root (σ : String → ℝ) : Expr → ℝ → Prop
  | of {w : Expr} {a : ℝ} (radicand : MeansStrictly .smooth σ w a) (positive : 0 < a) :
    Root σ (binary .pow w half) √a

/-- A tree that has a value, divided by square roots one after the other. -/
inductive OverRoots (σ : String → ℝ) : Expr → ℝ → Prop
  | plain {t : Expr} {v : ℝ} (value : Combined .smooth σ v t) : OverRoots σ t v
  | divided {t p : Expr} {v s : ℝ} (dividend : OverRoots σ t v) (root : Root σ p s) :
    OverRoots σ (binary .div t p) (v / s)

namespace Root

omit [Tolerance] in
/-- A root is an operand that nothing joins and that is not taken apart. -/
theorem solid (h : Root σ p s) : p.Solid := by
  cases h with
  | of => exact fun _ => rfl

/-- Roots with different values are different trees. -/
theorem same_eq (hp : Root σ p s) (hq : Root σ q v) :
    ∃ e, p.same q = .ok e ∧ (e = true → s = v) := by
  cases hp with
  | of hw =>
    cases hq with
    | of hw' =>
      exact MeansFrom.same_node (hw.same_eq hw') ⟨_, Number.is_half.same_eq Number.is_half, id⟩
        fun h _ => by rw [h]

end Root

namespace OverRoots

/-- A tree over roots is not the same as a root: an exponent that has a value is an integer. -/
theorem root_same_eq (hp : Root σ p s) (ht : OverRoots σ t v) : p.same t = .ok false := by
  cases hp with
  | of hw =>
    cases ht with
    | divided => rfl
    | plain h =>
      cases h.means with
      | @pow l z a n hl exponent =>
        obtain ⟨e, same, -⟩ := hw.same_eq hl
        have half : Expr.half.same (number z) = .ok false := by
          refine (Number.is_half.same_eq exponent).trans (congrArg Except.ok (decide_eq_false ?_))
          intro equal
          have real : (1 / 2 : ℚ) = n := congrArg (·.re) equal
          have double : (1 : ℤ) = n * 2 := by exact_mod_cast (div_eq_iff two_ne_zero).mp real
          omega
        exact (if_pos rfl).trans ((Calc.both_eq_ok same half).trans (by rw [Bool.and_false]))
      | _ => rfl

theorem isZero_eq (ht : OverRoots σ t v) : ∃ e, t.isZero = .ok e ∧ (e = true → v = 0) := by
  cases ht with
  | plain h => exact h.means.isZero_eq
  | divided => exact ⟨false, rfl, nofun⟩

theorem zero (σ : String → ℝ) : OverRoots σ zero 0 := .plain combined_zero

/-! ## Combining with roots -/

/-- Division by a root makes a node, but for zero. -/
theorem atomicQuotient_exactly {rec : Exactness → Combiner} (ht : OverRoots σ t v)
    (hp : Root σ p s) :
    Exactly (fun e => atomicQuotient (rec e) t p) (OverRoots σ · (v / s)) := by
  have quotient : ∀ [Exactness] (rec : Combiner), atomicQuotient rec t p =
      t.isZero >>= fun zero => if zero = true then pure Expr.zero else pure (binary .div t p) := by
    intro _ rec
    have same := root_same_eq hp ht
    cases hp with
    | of =>
      unfold atomicQuotient
      rw [same]
      unfold mergeLeaves
      cases t <;> rfl
  simp only [quotient]
  refine Exactly.ask ht.isZero_eq (fun zero => Exactly.pure ?_) (Exactly.pure (.divided ht hp))
  rw [zero, zero_div]
  exact .zero σ

/-- A solid divisor leaves nothing to join and nothing to take apart. -/
theorem combine_div_solid [Exactness] (ht : t.present = .ok t) (hp : p.Solid) :
    combine .div t p = atomicQuotient combine t p := by
  cases p with
  | absent => cases hp
  | leaf => cases hp
  | node o c d =>
    have apart : (node o c d).inChain .product = false := hp .product
    have root : reassociate combine .product .div t (node o c d) =
        atomicQuotient combine t (node o c d) := reassociate_apart apart
    cases t with
    | absent => cases ht
    | leaf a => exact (combine_eq_chain rfl rfl rfl).trans root
    | node o' a b => exact (combine_node rfl ..).trans root

theorem present_eq (ht : OverRoots σ t v) : t.present = .ok t := by
  cases ht with
  | plain h => exact Expr.present_eq h.means
  | divided => rfl

/-- Division by a root puts the tree over one root more. -/
theorem combine_div_exactly (ht : OverRoots σ t v) (hp : Root σ p s) :
    Exactly (fun _ => combine .div t p) (OverRoots σ · (v / s)) := by
  have quotient : ∀ [Exactness], combine .div t p = atomicQuotient combine t p :=
    combine_div_solid ht.present_eq hp.solid
  simp only [quotient]
  exact ht.atomicQuotient_exactly hp

/-- A divisor of two roots is taken apart. -/
theorem combine_div_product_exactly (ht : OverRoots σ t v) (hp : Root σ p s) (hq : Root σ q c) :
    Exactly (fun _ => combine .div t (binary .mul p q)) (OverRoots σ · (v / s / c)) := by
  have parts : ∀ [Exactness], combine .div t (binary .mul p q) =
      combine .div t p >>= fun t => combine .div t q := by
    intro _
    refine combine_of_not_joined rfl rfl ht.present_eq ?_
    cases t <;> rfl
  simp only [parts]
  exact Exactly.bind (ht.combine_div_exactly hp) fun _ ht => ht.combine_div_exactly hq

/-- A leaf that joins into a tree over roots joins into what is below them. -/
theorem spliceWith_exactly {new : Leaf} (hnew : MeansStrictly .smooth σ (leaf new) c)
    (ht : OverRoots σ t v) :
    Exactly (fun _ => spliceWith combine .product new false t)
      fun o => ∀ u, o = some u → OverRoots σ u (v * c) := by
  induction ht with
  | plain h =>
    have divisor : Level.product.Defined false c := Level.defined_false
    have joined := Expr.spliceWith_exactly sound_combine hnew h.flat h.means (.inl divisor)
    refine (joined.keep (spliceWith_shaped Leaf.closed_true ?_ True.intro h.flat)).mono ?_
    · exact fun hl hr _ => combine_shaped Leaf.closed_true hl hr
    · intro o ho u hu
      exact .plain ⟨(ho.1 u hu).2, ho.2 u hu⟩
  | @divided t p v s ht hp ih =>
    -- a quotient is looked into from its left
    refine Exactly.ite (fun _ => ?_) fun other => absurd rfl other
    refine Exactly.bind ih fun o ho => ?_
    cases o with
    | some u =>
      refine Exactly.map (((ho u rfl).atomicQuotient_exactly hp).mono ?_)
      rintro u hu _ ⟨rfl⟩
      rwa [div_mul_eq_mul_div]
    | none =>
      -- the root takes in nothing
      refine Exactly.bind (Exactly.of_forall (fun _ => spliceWith_solid hp.solid) rfl) fun o ho => ?_
      subst ho
      exact Exactly.none

/-- A factor goes below the roots. -/
theorem combine_mul_exactly (hu : Combined .smooth σ c u) (ht : OverRoots σ t v) :
    Exactly (fun _ => combine .mul u t) (OverRoots σ · (c * v)) := by
  induction ht with
  | plain h => exact (combine_exactly hu.flat h.flat (.mul hu.means h.means)).mono fun _ => .plain
  | @divided t p v s ht hp ih =>
    -- whichever way it is combined, the dividend comes first and the root after it
    have below : Exactly (fun _ => combine .mul u t >>= fun t => combine .div t p)
        (OverRoots σ · (c * (v / s))) := by
      rw [← mul_div_assoc]
      exact Exactly.bind ih fun _ ht => ht.combine_div_exactly hp
    cases u with
    | absent => cases hu.means
    | leaf a =>
      have chain : ∀ [Exactness], combine .mul (leaf a) (binary .div t p) =
          chainWith combine .product .mul (leaf a) (binary .div t p) := combine_binary rfl rfl
      simp only [chain]
      refine Exactly.bind (Exactly.pure rfl) fun o ho => ?_
      subst ho
      refine Exactly.bind (spliceWith_exactly hu.means (.divided ht hp)) fun o ho => ?_
      cases o with
      | some u =>
        refine Exactly.pure ?_
        rw [mul_comm]
        exact ho u rfl
      | none => exact below
    | node o a b =>
      have apart : ∀ [Exactness], combine .mul (node o a b) (binary .div t p) =
          combine .mul (node o a b) t >>= fun t => combine .div t p :=
        combine_of_not_joined rfl rfl rfl rfl
      simp only [apart]
      exact below

/-- The opposite goes below the roots. -/
theorem negate_exactly (ht : OverRoots σ t v) :
    Exactly (fun _ => negate t) (OverRoots σ · (-v)) := by
  induction ht with
  | plain h => exact (Expr.negate_exactly h).mono fun _ => .plain
  | @divided t p v s ht hp ih =>
    rw [← neg_div]
    exact Exactly.bind ih fun _ ht => ht.combine_div_exactly hp

end OverRoots

/-! ## Roots of operators -/

section

variable [Exactness]

/-- A root of an operator stays as it is. -/
theorem squareRoot_eq (hw : w.isLeaf = false) (present : w.present = .ok w) :
    squareRoot w = .ok (binary .pow w half) := by
  cases w with
  | absent => cases present
  | leaf => cases hw
  | node o l r =>
    show combine .pow (node o l r) half = _
    rw [combine_eq_step]
    rfl

/-- So does a product of two roots, unless they are the same. -/
theorem times_roots (hp : Root σ p s) (hq : Root σ q v) (differ : s ≠ v) :
    times p q = .ok (binary .mul p q) := by
  have same : q.same p = .ok false := by
    obtain ⟨e, same, equal⟩ := hq.same_eq hp
    cases e with
    | false => exact same
    | true => exact absurd (equal rfl).symm differ
  cases hp with
  | of =>
    cases hq with
    | of =>
      show combine .mul _ _ = _
      rw [combine_node rfl, reassociate_apart rfl]
      show atomicProduct combine _ _ = _
      unfold atomicProduct
      rw [same]
      rfl

end

/-- The root of what turns out to be an operator. -/
theorem squareRoot_exactly {w : Exactness → Calc Expr} (hw : Exactly w (Combined .smooth σ a))
    (operator : Returns (w .free) (·.isLeaf = false)) (positive : 0 < a) :
    Exactly (fun e => w e >>= squareRoot) (Root σ · √a) := by
  refine Exactly.bind (hw.keep operator) fun radicand h => ?_
  obtain ⟨value, node⟩ := h
  have root : ∀ [Exactness], squareRoot radicand = .ok (binary .pow radicand half) :=
    squareRoot_eq node (present_eq value.means)
  exact Exactly.of_forall (fun _ => root) (.of value.means positive)

/-! ## The rules -/

/-- What the rule of a function takes the roots of. -/
def radicands [Exactness] (u : Expr) : Func → List (Calc Expr)
  | .asin | .acos => [do minus one (← square u)]
  | .asinh => [do plus (← square u) one]
  | .acosh => [minus u one, plus u one]
  | _ => []

/-- The rule of a function takes roots of operators only. -/
def RootsKept (u : Expr) (f : Func) : Prop :=
  letI := Exactness.free
  ∀ w ∈ radicands u f, Returns w (·.isLeaf = false)

/-- One over the root of one less the square. -/
theorem outer_asin_exactly (hu : Combined .smooth σ a u) (inside : -1 < a ∧ a < 1)
    (kept : RootsKept u .asin) :
    Exactly (fun _ => outer u .asin) (OverRoots σ · (1 / √(1 - a ^ 2))) := by
  have steps : ∀ [Exactness],
      outer u .asin = ((do minus one (← square u)) >>= squareRoot) >>= oneOver := by
    intro _
    simp only [bind_assoc]
    rfl
  simp only [steps]
  have radicand := Exactly.bind (square_exactly hu) fun _ h => minus_exactly combined_one h
  have positive : 0 < 1 - a ^ 2 := by nlinarith
  have operator := kept _ (List.mem_singleton.mpr rfl)
  refine Exactly.bind (squareRoot_exactly radicand operator positive) fun root hp => ?_
  exact OverRoots.combine_div_exactly (.plain combined_one) hp

/-- One over the root of the square and one. -/
theorem outer_asinh_exactly (hu : Combined .smooth σ a u) (kept : RootsKept u .asinh) :
    Exactly (fun _ => outer u .asinh) (OverRoots σ · (1 / √(a ^ 2 + 1))) := by
  have steps : ∀ [Exactness],
      outer u .asinh = ((do plus (← square u) one) >>= squareRoot) >>= oneOver := by
    intro _
    simp only [bind_assoc]
    rfl
  simp only [steps]
  have radicand := Exactly.bind (square_exactly hu) fun _ h => plus_exactly h combined_one
  have positive : 0 < a ^ 2 + 1 := by positivity
  have operator := kept _ (List.mem_singleton.mpr rfl)
  refine Exactly.bind (squareRoot_exactly radicand operator positive) fun root hp => ?_
  exact OverRoots.combine_div_exactly (.plain combined_one) hp

/-- One over the product of two roots, which becomes one over the one and then over the other. -/
theorem outer_acosh_exactly (hu : Combined .smooth σ a u) (above : 1 < a)
    (kept : RootsKept u .acosh) :
    Exactly (fun _ => outer u .acosh) (OverRoots σ · (1 / √(a - 1) / √(a + 1))) := by
  have steps : ∀ [Exactness], outer u .acosh =
      minus u one >>= squareRoot >>= fun p => plus u one >>= squareRoot >>= fun q =>
        times p q >>= oneOver := by
    intro _
    simp only [bind_assoc]
    rfl
  simp only [steps]
  have lower := squareRoot_exactly (minus_exactly hu combined_one)
    (kept _ List.mem_cons_self) (by linarith)
  have upper := squareRoot_exactly (plus_exactly hu combined_one)
    (kept _ (List.mem_cons_of_mem _ List.mem_cons_self)) (by linarith)
  refine Exactly.bind lower fun p hp => Exactly.bind upper fun q hq => ?_
  have differ : √(a - 1) ≠ √(a + 1) := (Real.sqrt_lt_sqrt (by linarith) (by linarith)).ne
  refine Exactly.bind (Exactly.of_forall (fun _ => times_roots hp hq differ) rfl) fun _ h => ?_
  subst h
  exact OverRoots.combine_div_product_exactly (.plain combined_one) hp hq

/-- The derivative of an inverse function at an argument. -/
theorem outer_overRoots {f : Func} (hu : Combined .smooth σ a u) (value : f.inverse a = some b)
    (kept : RootsKept u f) :
    Exactly (fun _ => outer u f) (OverRoots σ · (f.inverseSlope a)) := by
  cases f with
  | asin => exact outer_asin_exactly hu (Option.ite_none_right_eq_some.mp value).1 kept
  | acos =>
    -- the slope of `acos` is that of `asin` with the other sign
    have opposite : ∀ [Exactness], outer u .acos = outer u .asin >>= negate := by
      intro _
      show (do negate (← oneOver (← squareRoot (← minus one (← square u))))) =
        (do oneOver (← squareRoot (← minus one (← square u)))) >>= negate
      simp only [bind_assoc]
    simp only [opposite]
    have inside : -1 < a ∧ a < 1 := (Option.ite_none_right_eq_some.mp value).1
    refine Exactly.bind (outer_asin_exactly hu inside kept) fun slope h => ?_
    show Exactly _ (OverRoots σ · (-1 / √(1 - a ^ 2)))
    rw [neg_div]
    exact h.negate_exactly
  | asinh => exact outer_asinh_exactly hu kept
  | acosh => exact outer_acosh_exactly hu (Option.ite_none_right_eq_some.mp value).1 kept
  | _ => cases value

/-! ## Derivatives -/

/-- The derivative of an inverse function of a tree, by the chain rule. -/
theorem differentiate_inverse_exactly {f : Func} (hs : u.Shaped Leaf.HasPower)
    (hu : MeansStrictly .smooth σ u a) (value : f.inverse a = some b) (kept : RootsKept u f) :
    ∃ d, HasPartial 1 x σ u a d ∧
      Exactly (fun _ => differentiate x (apply f u)) (OverRoots σ · (f.inverseSlope a * d)) := by
  obtain ⟨d, inner, derivative⟩ := differentiate_exactly (x := x) hs hu
  refine ⟨d, inner, ?_⟩
  simp only [differentiate]
  refine Exactly.bind derivative fun du hdu => ?_
  refine Exactly.ask hdu.means.isZero_eq (fun zero => Exactly.pure ?_) ?_
  · rw [zero, mul_zero]
    exact .zero σ
  · rw [mul_comm]
    refine Exactly.bind (outer_overRoots ⟨hu, hs.flat⟩ value kept) fun outside h => ?_
    exact h.combine_mul_exactly hdu

/-- **The derivative of an inverse function** of an expression that is read means the partial
derivative of the function of what the expression means, half powers being square roots, if its rule
takes roots of operators only. This is at every point where the function and all parts of the
expression are differentiable, unless a coefficient stops being exact. -/
theorem hasDerivAt_inverse {reading : Reading} {allowed : Option (List String)} {text : String}
    {f : Func} (ht : parse reading allowed text = .ok u) (hu : Means .smooth σ u a)
    (value : f.inverse a = some b) (kept : RootsKept u f)
    (exact : StaysExact fun _ => differentiate x (apply f u)) :
    ∃ t' d g, differentiate x (apply f u) = .ok t' ∧ OverRoots σ t' d ∧
      (∀ᶠ y in 𝓝 (σ x), ∃ c, Means .smooth (Function.update σ x y) u c ∧
        f.inverse c = some (g y)) ∧
      HasDerivAt g d (σ x) := by
  have hs := parse_shaped reading allowed text u ht
  obtain ⟨d, ⟨h, near, rfl, deriv⟩, derivative⟩ :=
    differentiate_inverse_exactly (x := x) hs (means_strictly hs hu) value kept
  obtain ⟨t', result, combined⟩ := derivative.result exact
  obtain ⟨g, -, near', deriv'⟩ := Func.hasDerivAt_inverse value
  refine ⟨t', _, g ∘ h, result, combined, ?_, deriv'.comp _ deriv⟩
  filter_upwards [near, deriv.continuousAt.eventually near'] with y hu hy
  exact ⟨h y, hu.mono zero_le_one, hy⟩

omit [Tolerance] in
/-- The inverse sine of a variable, at one half. -/
example :
    letI := Double.standardTolerance
    let σ : String → ℝ := fun _ => 1 / 2
    ∃ t' d g, differentiate "x" (apply .asin (ofName "x")) = .ok t' ∧ OverRoots σ t' d ∧
      (∀ᶠ y in 𝓝 (σ "x"), ∃ c, Means .smooth (Function.update σ "x" y) (ofName "x") c ∧
        Func.asin.inverse c = some (g y)) ∧ HasDerivAt g d (σ "x") := by
  let := Double.standardTolerance
  intro σ
  have read : parse .standard none "x" = .ok (ofName "x") := by decide +kernel
  have value : Func.asin.inverse (σ "x") = some (Real.arcsin (σ "x")) :=
    if_pos ⟨by norm_num, by norm_num⟩
  have kept : RootsKept (ofName "x") .asin := by
    unfold RootsKept
    decide +kernel
  refine hasDerivAt_inverse read (means_ofName zero_le_one "x") value kept ?_
  unfold StaysExact
  decide +kernel

omit [Tolerance] in
/-- **A root that merges with a monomial** loses the sign. The rule for `acosh(x^2+1)` takes the
root of `x^2`, and where `x` is negative the derivative that it makes is the opposite of the right
one. -/
theorem derivative_arcosh_opposite (σ : String → ℝ) (negative : σ "x" < 0) :
    letI := Double.standardTolerance
    letI := Exactness.free
    ∃ u t' d, parse .standard none "x^2+1" = .ok u ∧
      (∀ y, Means .smooth (Function.update σ "x" y) u (y ^ 2 + 1)) ∧
      differentiate "x" (apply .acosh u) = .ok t' ∧ OverRoots σ t' d ∧ 0 < d ∧
      HasDerivAt (fun y => Real.arcosh (y ^ 2 + 1)) (-d) (σ "x") := by
  let := Double.standardTolerance
  let := Exactness.free
  let square := leaf (.monomial "x" .one (.ofInt 2))
  have squared (σ : String → ℝ) : MeansStrictly .smooth σ square (σ "x" ^ 2) := by
    rw [← one_mul (σ "x" ^ 2)]
    have power : (Value.ofInt 2).Is ((2 : ℤ) : ℚ) := (Number.is_ofInt (by norm_num)).1
    exact .monomial Number.standsFor_one power (.inr (by norm_num))
  have radicand : MeansStrictly .smooth σ (binary .add square two) (σ "x" ^ 2 + 2) :=
    .add (squared σ) means_two
  -- the root of `u - 1`, which is `x ^ 2`, has become `x` and cancelled with the inner derivative
  refine ⟨binary .add square one, binary .div two (binary .pow (binary .add square two) half),
    2 / √(σ "x" ^ 2 + 2), by decide +kernel, fun y => ?_, by decide +kernel,
    .divided (.plain ⟨means_two, True.intro⟩) (.of radicand (by positivity)), by positivity,
    hasDerivAt_arcosh_square negative⟩
  have value := squared (Function.update σ "x" y)
  rw [Function.update_self] at value
  exact (MeansFrom.add value means_one).mono zero_le_one

end Expr

end SymbolicAlgebra
