import SymbolicAlgebra.Proofs.Combine.Sound
import SymbolicAlgebra.Proofs.Eval
import SymbolicAlgebra.Proofs.Simplify.Fractions
import SymbolicAlgebra.Simplify

/-!
# Simplification keeps the meaning

`Expr.simplify` succeeds on every tree of `+ - * / ^ =` that means something and gives a tree
that means the same, to every depth of the search, unless a coefficient stops being exact.

A pass makes trees in three ways: it folds them by evaluation, combines them from simplified
operands, and rewrites them by an equivalence to simplify them again. Each keeps the
meaning, and the handlers on the way catch only failures that do not occur in trees that
mean something. The tree that goes into a pass may have any shape. What comes out is
combined, so that the next combination above it can rely on its shape.

The meaning has to be strict: `y / (5x^0) * x` is zero where `x` is, and simplification takes
the two monomials of `x` together to `y / (5x^-1)`, which has no value there. And its leaves have
to be narrow: a quotient by a number that is too small for a double is refused, and its tree is
not combined.
-/

namespace SymbolicAlgebra

namespace Expr

variable [Tolerance] {K : Type} [Field K] [Coefficients K] {I : Interpretation K}
  {σ : String → K} {least : ℤ} {t best : Expr} {v : K}

/-! ## Folding -/

/-- An exact number has no part that is NaN. -/
theorem hasNoNaN_eq {z : Number} (hz : z.StandsFor v) : hasNoNaN z = .ok true := by
  obtain ⟨g, ⟨re, im⟩, -⟩ := hz
  have part : ∀ {q : ℚ} {p : Value}, p.Is q → (do return !(← p.toDouble).isNaN) = Except.ok true :=
    fun h => by
      obtain ⟨d, double, finite, -⟩ := h.toDouble_eq
      rw [double]
      show Except.ok (!d.isNaN) = .ok true
      rw [Double.isNaN_eq_false finite]
      rfl
  exact Calc.both_eq_ok (part re) (part im)

/-- A constant that is folded is folded to its meaning. -/
theorem fold?_exactly (hv : MeansStrictly .none σ t v) :
    Exactly (fun _ => fold? t) fun o => ∀ z, o = some z → z.StandsFor v := by
  refine Exactly.bind (Exactly.of_eq (present_eq hv) rfl) fun t' h => ?_
  subst h
  by_cases hc : t.isConst = true
  · have unbound : Bindings.StandFor [] σ t.names := by
      rw [names_of_isConst hc]
      rintro _ ⟨⟩
    refine Exactly.ite (fun h => by simp [hc] at h) fun _ => ?_
    rcases evaluate_exactly Interpretation.computed_none (hv.mono zero_le_one) unbound with
      refused | ⟨z, strict, free, hz⟩
    · refine .inl ?_
      simp only [refused]
      rfl
    · refine .inr ⟨some z, ?_, ?_, by rintro _ ⟨rfl⟩; exact hz⟩
      · simp only [strict, hasNoNaN_eq hz]
        rfl
      · simp only [free, hasNoNaN_eq hz]
        rfl
  · exact Exactly.ite (fun _ => Exactly.none) fun h => by simp [hc] at h

/-! ## Searching -/

/-- A simplification that keeps the meaning. -/
def Simplifies (I : Interpretation K) (σ : String → K) (f : Exactness → Expr → Calc Expr) : Prop :=
  ∀ {t v}, MeansStrictly I σ t v → Exactly (fun e => f e t) (Combined I σ v)

omit [Tolerance] in
/-- Either the best tree stays or a candidate with the property is taken. -/
theorem better_exactly {P : Expr → Prop} {candidate : Exactness → Calc Expr} (hb : P best)
    (hc : Exactly candidate P) : Exactly (fun e => better best (candidate e)) P := by
  refine Exactly.handle (k := fun _ => better best) hc rfl fun t ht => Exactly.pure ?_
  split
  · exact ht
  · exact hb

/-- The search goes from one tree with the meaning to another. -/
theorem search_exactly {deeper : Exactness → Expr → Calc Expr} (hd : Simplifies I σ deeper)
    {rewrites : List (Expr → Calc (Option Expr))}
    (hr : ∀ rewrite ∈ rewrites, KeepsMeaning 1 I σ rewrite) (ht : MeansStrictly I σ t v)
    (hb : Combined I σ v best) :
    Exactly (fun e => search (deeper e) t rewrites best) (Combined I σ v) := by
  induction rewrites generalizing best with
  | nil => exact Exactly.pure hb
  | cons rewrite rest ih =>
    rw [List.forall_mem_cons] at hr
    refine Exactly.bind (hr.1 ht) fun o ho => ?_
    cases o with
    | none => exact ih hr.2 hb
    | some t' =>
      exact Exactly.bind (better_exactly hb (hd (ho t' rfl))) fun best' hb' => ih hr.2 hb'

/-- What candidates are simplified with: nothing, or a simplification that keeps the
meaning. -/
def Deepens (I : Interpretation K) (σ : String → K)
    (deeper : Exactness → Option (Expr → Calc Expr)) : Prop :=
  (∀ e, deeper e = none) ∨ ∃ f, (∀ e, deeper e = some (f e)) ∧ Simplifies I σ f

/-- An operator that is improved means what it did. -/
theorem improve_exactly {deeper : Exactness → Option (Expr → Calc Expr)}
    (hd : Deepens I σ deeper) {combined : Exactness → Calc Expr}
    (hc : Exactly combined (Combined I σ v)) :
    Exactly (fun e => improve (deeper e) t (combined e)) (Combined I σ v) := by
  refine Exactly.handle (k := fun e => improve (deeper e) t) hc rfl fun best hb => ?_
  rcases hd with hd | ⟨f, hd, hf⟩
  · simp only [hd]
    exact Exactly.pure hb
  · simp only [hd]
    exact Exactly.ite (fun _ => Exactly.pure hb) fun _ =>
      search_exactly hf means_equivalences hb.means hb

/-! ## Passes -/

/-- One pass keeps the meaning, if the candidates are simplified so that it is kept. -/
theorem passWith_exactly {deeper : Exactness → Option (Expr → Calc Expr)}
    (hd : Deepens .none σ deeper) : Simplifies .none σ fun e => passWith (deeper e) := by
  intro t v hv
  -- folded, or combined from operands after a pass
  have folded : ∀ {t : Expr} {v : K} {otherwise : Exactness → Calc Expr},
      MeansStrictly .none σ t v → Exactly otherwise (Combined .none σ v) →
      Exactly (fun e => foldOr t (otherwise e)) (Combined .none σ v) := by
    intro t v otherwise hv ho
    refine Exactly.bind (fold?_exactly hv) fun o h => ?_
    cases o with
    | some z => exact Exactly.pure ⟨.number (h z rfl), True.intro⟩
    | none => exact ho
  have operator : ∀ {op : Binary} {l r : Expr} {a v : K} {P : Expr → Prop},
      MeansStrictly .none σ (binary op l r) v →
      Exactly (fun e => passWith (deeper e) l) (Combined .none σ a) →
      Exactly (fun e => passWith (deeper e) r) P →
      (∀ {l' r'}, MeansStrictly .none σ l' a → P r' →
        r'.Flat ∧ MeansStrictly .none σ (binary op l' r') v) →
      Exactly (fun e => passWith (deeper e) (binary op l r)) (Combined .none σ v) := by
    intro op l r a v P hv hl hr node
    refine folded hv (Exactly.bind hl fun l' hl' => Exactly.bind hr fun r' hr' => ?_)
    obtain ⟨flat, hv'⟩ := node hl'.means hr'
    exact improve_exactly hd (combine_exactly hl'.flat flat hv')
  induction hv with
  | number value => exact Exactly.pure ⟨.number value, True.intro⟩
  | monomial mult power defined => exact Exactly.pure ⟨.monomial mult power defined, True.intro⟩
  | equals hl hr ihl ihr =>
    exact operator (.equals hl hr) ihl ihr fun h h' => ⟨h'.flat, .equals h h'.means⟩
  | add hl hr ihl ihr => exact operator (.add hl hr) ihl ihr fun h h' => ⟨h'.flat, .add h h'.means⟩
  | sub hl hr ihl ihr => exact operator (.sub hl hr) ihl ihr fun h h' => ⟨h'.flat, .sub h h'.means⟩
  | mul hl hr ihl ihr => exact operator (.mul hl hr) ihl ihr fun h h' => ⟨h'.flat, .mul h h'.means⟩
  | div hl hr hb ihl ihr =>
    exact operator (.div hl hr hb) ihl ihr fun h h' => ⟨h'.flat, .div h h'.means hb⟩
  | @pow _ z _ _ hl exponent defined ih =>
    -- the exponent is a leaf and stays the leaf it is
    refine operator (P := (· = leaf (.number z))) (.pow hl exponent defined) ih
      (Exactly.pure rfl) ?_
    rintro l' _ h rfl
    exact ⟨True.intro, .pow h exponent defined⟩
  | factorial _ value => cases value
  | apply _ value => cases value

/-- A pass of any depth keeps the meaning. -/
theorem pass_exactly (depth : ℕ) : Simplifies .none σ fun _ => pass depth := by
  induction depth with
  | zero => exact passWith_exactly (.inl fun _ => rfl)
  | succ depth ih => exact passWith_exactly (.inr ⟨_, fun _ => rfl, ih⟩)

/-- Passes keep the meaning, however many there are. -/
theorem passes_exactly (depth n : ℕ) (hv : MeansStrictly .none σ t v) :
    Exactly (fun _ => passes depth n t) (MeansStrictly .none σ · v) := by
  induction n generalizing t with
  | zero => exact Exactly.pure hv
  | succ n ih =>
    refine Exactly.bind (pass_exactly depth hv) fun t' ht' => ?_
    exact Exactly.ask (ht'.means.same_eq hv) (fun _ => Exactly.pure hv) (ih ht'.means)

/-- Simplification keeps the meaning. -/
theorem simplify_exactly (depth : ℕ) (hv : MeansStrictly .none σ t v) :
    Exactly (fun _ => simplify depth t) (MeansStrictly .none σ · v) := by
  refine Exactly.bind (Exactly.of_eq (present_eq hv) rfl) fun t' h => ?_
  subst h
  exact passes_exactly depth passLimit hv

/-- Simplification succeeds and keeps the meaning, at every point where there is a strict
one, unless a coefficient stops being exact. -/
theorem means_simplify {σ : String → GaussianRat} {v : GaussianRat} (depth : ℕ)
    (hv : MeansStrictly .none σ t v) (exact : StaysExact fun _ => simplify depth t) :
    ∃ t', simplify depth t = .ok t' ∧ Means .none σ t' v := by
  obtain ⟨t', result, ht'⟩ := (simplify_exactly depth hv).result exact
  exact ⟨t', result, ht'.mono (by norm_num)⟩

omit [Tolerance] in
/-- A factor above and below the line: `xy/x` is `3` at `x = 2` and `y = 3`. -/
theorem means_simplify_cancel :
    letI := Double.standardTolerance
    let σ : String → GaussianRat := fun x => if x = "x" then 2 else 3
    ∃ t, simplify 2 (binary .div (binary .mul (ofName "x") (ofName "y")) (ofName "x")) = .ok t ∧
      Means .none σ t 3 := by
  let := Double.standardTolerance
  intro σ
  have hx : MeansStrictly .none σ (ofName "x") 2 := means_ofName le_rfl "x"
  have hy : MeansStrictly .none σ (ofName "y") 3 := means_ofName le_rfl "y"
  have value : (3 : GaussianRat) = 2 * 3 / 2 := by norm_num
  refine means_simplify 2 ?_ (by unfold StaysExact; decide +kernel)
  rw [value]
  exact .div (.mul hx hy) hx two_ne_zero

omit [Tolerance] in
/-- A monomial of power zero hides that its variable is zero: `y / (5x^0) * x` is zero at
`x = 0`, and becomes `y / (5x^-1)`, which means nothing there. -/
theorem simplify_power_zero :
    letI := Double.standardTolerance
    let σ : String → GaussianRat := fun x => if x = "x" then 0 else 1
    let five := leaf (.monomial "x" (.ofInt 5) .zero)
    let t := binary .mul (binary .div (ofName "y") five) (ofName "x")
    Means .none σ t 0 ∧ (StaysExact fun _ => simplify 2 t) ∧
      ¬∃ t' v, simplify 2 t = .ok t' ∧ Means .none σ t' v := by
  let := Double.standardTolerance
  intro σ five t
  have power : Value.zero.Is ((0 : ℤ) : ℚ) := by
    rw [Int.cast_zero]
    exact Value.is_zero
  have hfive : Means .none σ five 5 := by
    have value : (5 : GaussianRat) = (5 : ℤ) * σ "x" ^ (0 : ℤ) := by norm_num
    rw [value]
    exact .monomial (Number.standsFor_ofInt (by norm_num)) power (.inr le_rfl)
  have simplified : simplify 2 t = .ok (binary .div (ofName "y")
      (leaf (.monomial "x" (.ofInt 5) (.ofInt (-1))))) := by
    decide +kernel
  refine ⟨?_, by unfold StaysExact; decide +kernel, ?_⟩
  · have hx : Means .none σ (ofName "x") 0 := means_ofName zero_le_one "x"
    have hy : Means .none σ (ofName "y") 1 := means_ofName zero_le_one "y"
    rw [← mul_zero (1 / 5 : GaussianRat)]
    exact .mul (.div hy hfive (by norm_num)) hx
  · rintro ⟨t', v, result, hv⟩
    rw [simplified] at result
    cases result
    cases hv with
    | div hl hr nonzero =>
      cases hr with
      | monomial _ power defined =>
        obtain ⟨_, ⟨rfl⟩, _, ⟨rfl⟩, -, value⟩ := power
        rw [Fraction.toRat_ofInt, Int.cast_inj] at value
        rcases defined with nonzero | positive
        · exact nonzero rfl
        · omega

omit [Tolerance] in
/-- Zeros that simplification does not see, at `x = 0` and `y = 1`: the variable of a monomial of
power zero, and divisors that are too small for a double. With `c = 2^-1100`, the product
`2^1100 x * (y / (c y / c))` is zero there. The quotients by `c` and by `c y` are refused and stay
as they are, so that `x` is multiplied into `c`, and what comes out divides by `x`. -/
theorem simplify_hidden_zeros :
    letI := Double.standardTolerance
    let σ : String → GaussianRat := fun x => if x = "x" then 0 else 1
    let five := leaf (.monomial "x" (.ofInt 5) .zero)
    let t := binary .mul (binary .div (ofName "y") five) (ofName "x")
    let tiny : Fraction := ⟨1, 2 ^ 1100, by decide +kernel⟩
    let y' := leaf (.monomial "y" (.ofValue (.exact tiny)) .one)
    let s := binary .mul (leaf (.monomial "x" (.ofInt (2 ^ 1100)) .one))
      (binary .div (ofName "y") (binary .div y' (number (.ofValue (.exact tiny)))))
    (Means .none σ t 0 ∧ (StaysExact fun _ => simplify 2 t) ∧
      ¬∃ t' v, simplify 2 t = .ok t' ∧ Means .none σ t' v) ∧
    tiny.toRat * 1 / tiny.toRat = 1 ∧ (StaysExact fun _ => simplify 2 s) ∧
      simplify 2 s = .ok (binary .div (ofName "y") (binary .div y' (ofName "x"))) ∧
      ∀ l v, ¬Means .none σ (binary .div l (ofName "x")) v := by
  let := Double.standardTolerance
  intro σ five t tiny y' s
  have nonzero : tiny.toRat ≠ 0 := fun zero =>
    one_ne_zero ((Fraction.toRat_eq_zero_iff tiny).mp zero)
  refine ⟨simplify_power_zero, by rw [mul_one, div_self nonzero],
    by unfold StaysExact; decide +kernel, by decide +kernel, fun l v hv => ?_⟩
  cases hv with
  | div hl hr nonzero => exact nonzero (hr.unique (means_ofName zero_le_one "x"))

end Expr

end SymbolicAlgebra
