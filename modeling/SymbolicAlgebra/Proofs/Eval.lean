import SymbolicAlgebra.Eval
import SymbolicAlgebra.Proofs.Meaning

/-!
# Evaluation computes the meaning

`Expr.evaluate` returns a number that stands for what the expression means, where each of its
variables is bound to a number that stands for the value of the variable, unless a coefficient
stops being exact. So two expressions that mean the same evaluate to the same number, if
neither evaluation leaves exact arithmetic.

What the named functions and the factorial mean is given from outside. That evaluation
computes them is a condition on the interpretation (`Interpretation.Computed`), which holds of
`Interpretation.none` without further ado.
-/

namespace SymbolicAlgebra

variable [Tolerance] {K : Type} [Field K] [Coefficients K] {I : Interpretation K}
  {σ : String → K} {t : Expr} {v : K} {bindings : Bindings}

/-- Evaluation computes the functions exactly, where they have a value. -/
structure Interpretation.Computed (I : Interpretation K) : Prop where
  function {f : Func} {z : Number} {a b : K} : z.StandsFor a → I.function f a = some b →
    Exactly (fun _ => f.evaluate z) (·.StandsFor b)
  factorial {z : Number} {a b : K} : z.StandsFor a → I.factorial a = some b →
    Exactly (fun _ => z.factorial) (·.StandsFor b)

theorem Interpretation.computed_none : (none : Interpretation K).Computed where
  function _ value := by cases value
  factorial _ value := by cases value

/-- Each of the names is bound to a number that stands for its value. -/
def Bindings.StandFor (bindings : Bindings) (σ : String → K) (names : List String) : Prop :=
  ∀ x ∈ names, ∃ z, bindings.find? x = some z ∧ z.StandsFor (σ x)

/-- Evaluation computes what the operator makes of the values of its operands. -/
theorem Binary.evaluate_exactly {op : Binary} {z w : Number} {a b : K} (hop : op ≠ .pow)
    (hz : z.StandsFor a) (hw : w.StandsFor b) (hb : op = .div → b ≠ 0) :
    Exactly (fun _ => op.evaluate z w) (·.StandsFor (op.value a b)) := by
  cases op with
  | equals => exact hz.sub_exactly hw
  | add => exact hz.add_exactly hw
  | sub => exact hz.sub_exactly hw
  | mul => exact hz.mul_exactly hw
  | div => exact hz.div_exactly hw (hb rfl)
  | pow => exact absurd rfl hop

namespace Expr

/-- Evaluation computes what the expression means. -/
theorem evaluate_exactly (hI : I.Computed) (hv : Means I σ t v)
    (hb : bindings.StandFor σ t.names) :
    Exactly (fun _ => evaluate bindings t) (·.StandsFor v) := by
  -- both operands first, then the operation
  have operation : ∀ {op : Binary} {l r : Expr} {a b : K}, op ≠ .pow → (op = .div → b ≠ 0) →
      bindings.StandFor σ (binary op l r).names →
      (bindings.StandFor σ l.names → Exactly (fun _ => evaluate bindings l) (·.StandsFor a)) →
      (bindings.StandFor σ r.names → Exactly (fun _ => evaluate bindings r) (·.StandsFor b)) →
      Exactly (fun _ => evaluate bindings (binary op l r)) (·.StandsFor (op.value a b)) := by
    intro op l r a b hop divisor hb hl hr
    obtain ⟨left, right⟩ := List.forall_mem_append.mp hb
    exact Exactly.bind (hl left) fun z hz => Exactly.bind (hr right) fun w hw =>
      Binary.evaluate_exactly hop hz hw divisor
  induction hv with
  | number value => exact Exactly.pure value
  | @monomial x m p c k mult power defined =>
    obtain ⟨z, found, hz⟩ := hb x List.mem_cons_self
    simp only [evaluate, Leaf.evaluate, found]
    exact Exactly.bind (hz.pow_exactly (Number.is_ofValue power) defined) fun w hw =>
      mult.mul_exactly hw
  | equals _ _ ihl ihr => exact operation nofun nofun hb ihl ihr
  | add _ _ ihl ihr => exact operation nofun nofun hb ihl ihr
  | sub _ _ ihl ihr => exact operation nofun nofun hb ihl ihr
  | mul _ _ ihl ihr => exact operation nofun nofun hb ihl ihr
  | div _ _ divisor ihl ihr => exact operation nofun (fun _ => divisor) hb ihl ihr
  | pow _ exponent defined ih =>
    obtain ⟨left, -⟩ := List.forall_mem_append.mp hb
    exact Exactly.bind (ih left) fun z hz => hz.pow_exactly exponent defined
  | factorial _ value ih =>
    obtain ⟨left, -⟩ := List.forall_mem_append.mp hb
    exact Exactly.bind (ih left) fun z hz => hI.factorial hz value
  | apply _ value ih =>
    obtain ⟨-, right⟩ := List.forall_mem_append.mp hb
    exact Exactly.bind (ih right) fun z hz => hI.function hz value

omit [Tolerance] in
/-- A constant has no variables. -/
theorem names_of_isConst (h : t.isConst = true) : t.names = [] := by
  induction t with
  | absent => rfl
  | leaf a =>
    cases a with
    | number => rfl
    | monomial => cases h
  | node op l r ihl ihr =>
    rw [isConst, Bool.and_eq_true] at h
    rw [names, ihl h.1, ihr h.2, List.append_nil]

/-! ## Gaussian rationals -/

/-- **Evaluation is exact on exact input.** Where an expression of `+ - * / ^ =` means a Gaussian
rational, and no double takes the place of an exact result, its value is a number whose parts are
fractions and that stands for the meaning. Among the powers are those by repeated squaring: they
are right for every integer, with the reciprocal for a negative one. -/
theorem evaluate_means :
    (∀ {σ : String → GaussianRat} {bindings : Bindings} {t : Expr} {v : GaussianRat},
        Means .none σ t v → bindings.StandFor σ t.names →
        StaysExact (fun _ => evaluate bindings t) → ∃ z, evaluate bindings t = .ok z ∧ z.Is v) ∧
      ∀ {z : Number} {g : GaussianRat} {n : ℤ}, z.Is g → g ≠ 0 ∨ 0 ≤ n →
        StaysExact (fun _ => z.powInt n) → ∃ w, z.powInt n = .ok w ∧ w.Is (g ^ n) := by
  refine ⟨fun means bound exact => ?_, fun hz defined exact =>
    (Number.powInt_exactly hz defined).result exact⟩
  obtain ⟨z, value, g, hz, rfl⟩ :=
    (evaluate_exactly Interpretation.computed_none means bound).result exact
  exact ⟨z, value, hz⟩

omit [Tolerance] in
/-- The expression `(i * x)^-2` at two, and the number `2i` to the same power. -/
theorem evaluate_means_reciprocal :
    letI := Double.standardTolerance
    (∃ z, evaluate [("x", .ofInt 2)]
        (binary .pow (binary .mul (number .i) (ofName "x")) (ofInt (-2))) = .ok z ∧
        z.Is (-1 / 4)) ∧
      ∃ w, (⟨.zero, .ofInt 2⟩ : Number).powInt (-2) = .ok w ∧ w.Is (-1 / 4) := by
  let := Double.standardTolerance
  let σ : String → GaussianRat := fun _ => 2
  have two : Number.Is (.ofInt 2) 2 := Number.is_ofInt (n := 2) (by norm_num)
  have unit : Number.i.Is ⟨0, 1⟩ := ⟨Value.is_zero, Value.is_one⟩
  have product : (⟨0, 1⟩ * 2 : GaussianRat) = ⟨0, 2⟩ := by decide +kernel
  have square : (⟨0, 2⟩ : GaussianRat) ^ (-2 : ℤ) = -1 / 4 := by decide +kernel
  have nonzero : (⟨0, 2⟩ : GaussianRat) ≠ 0 := by decide +kernel
  have hx : Means .none σ (ofName "x") 2 := by
    have value : (2 : GaussianRat) = 1 * σ "x" ^ (1 : ℤ) := by rw [zpow_one, one_mul]
    rw [value]
    exact .monomial Number.standsFor_one (by exact_mod_cast Value.is_one) (.inr zero_le_one)
  have power : Means .none σ
      (binary .pow (binary .mul (number .i) (ofName "x")) (ofInt (-2))) (-1 / 4) := by
    rw [← square, ← product]
    exact .pow (.mul (.number ⟨_, unit, rfl⟩) hx) (Number.is_ofInt (by norm_num))
      (.inl (product ▸ nonzero))
  have bound : Bindings.StandFor [("x", .ofInt 2)] σ ["x"] :=
    List.forall_mem_singleton.mpr ⟨_, rfl, ⟨_, two, rfl⟩⟩
  refine ⟨evaluate_means.1 power bound (by unfold StaysExact; decide +kernel), ?_⟩
  rw [← square]
  exact evaluate_means.2 ⟨Value.is_zero, two.1⟩ (.inl nonzero) (by unfold StaysExact; decide +kernel)

omit [Tolerance] in
/-- What is too small for a double counts as zero in a divisor: a number of that size by itself
is one, and is refused as a quotient by zero. -/
theorem evaluate_tiny_quotient :
    letI := Double.standardTolerance
    let tiny : Fraction := ⟨1, 10 ^ 400, by decide +kernel⟩
    let t := binary .div (number (.ofValue (.exact tiny))) (number (.ofValue (.exact tiny)))
    tiny.toRat / tiny.toRat = 1 ∧ (StaysExact fun _ => evaluate [] t) ∧
      evaluate [] t = .error (.undefined .quotient) := by
  let := Double.standardTolerance
  intro tiny t
  refine ⟨div_self fun zero => ?_, by unfold StaysExact; decide +kernel, by decide +kernel⟩
  exact one_ne_zero ((Fraction.toRat_eq_zero_iff tiny).mp zero)

end Expr

end SymbolicAlgebra
