import SymbolicAlgebra.Proofs.Combine.Nested
import SymbolicAlgebra.Proofs.Combine.Quantity
import SymbolicAlgebra.Proofs.Derivative.Sound

/-!
# Derivatives with respect to absent variables

The derivative of a tree in which a variable does not occur is not merely equal to zero, it is the
leaf zero (`differentiate_absent`). The rules for products and powers rest on that, as they choose
their form by whether a partial derivative is this leaf.

The rules multiply by zero only, and zero takes in whatever it is multiplied to. That is clear where
the identities of products are asked, but zero is a leaf, and is joined into a chain first
(`spliceWith_zero`). It never joins a divisor, and behind a divisor there is no chain that it could
go on to: no divisor is a product (`Shaped`). So it joins the first factor, makes it zero, and zero
goes up the whole path. The reciprocal of a divisor is combined too, and has this shape again.

An equation is differentiated side by side, so there must not be any in the tree.
-/

namespace SymbolicAlgebra

/-! ## Multiplying by zero -/

section

variable [Exactness]

/-- A real coefficient times the exact zero is the exact zero, a floating one too. -/
theorem Scalar.mul_zero (a : Scalar) : a.mul .zero = .ok .zero := by
  cases a with
  | exact p => exact if_pos (Bool.or_true _)
  | approx v => rfl

variable [Tolerance]

/-- A value times zero is zero, also where it has a constant in it. -/
theorem Value.mul_zero (v : Value) : v.mul .zero = .ok .zero := by
  cases v with
  | plain a =>
    show plain <$> a.mul .zero = _
    rw [Scalar.mul_zero]
    rfl
  | symbolic m c => rfl

theorem Number.mul_zero (z : Number) : z.mul .zero = .ok .zero := by
  show (do return (⟨← z.re.mul .zero, ← z.im.mul .zero⟩ : Number)) = _
  rw [Value.mul_zero, Value.mul_zero]
  rfl

/-- Every leaf times zero is zero. -/
theorem Leaf.mul_zero (a : Leaf) : combine? .mul a (.ofInt 0) = .ok (some (.ofInt 0)) := by
  cases a with
  | number z =>
    show some <$> number <$> z.mul .zero = _
    rw [Number.mul_zero]
    rfl
  | monomial x m p =>
    show (do some <$> ofMonomial x (← m.mul .zero) p) = _
    rw [Number.mul_zero]
    rfl

end

namespace Expr

variable [Tolerance] {A : Leaf → Prop} {rec : Combiner} {x : String} {l r t u v d : Expr}

section

variable [Exactness]

/-- The calculation has no other result than zero. -/
def Vanishes (e : Calc Expr) : Prop := Returns e (· = zero)

omit [Tolerance] [Exactness] in
/-- What comes after a calculation that vanishes is about zero. -/
theorem Vanishes.bind {α : Type} {e : Calc Expr} {f : Expr → Calc α} {P : α → Prop}
    (h : Vanishes e) (hf : Returns (f zero) P) : Returns (e >>= f) P := by
  refine Returns.bind h ?_
  rintro _ rfl
  exact hf

theorem atomicProduct_zero_left : Vanishes (atomicProduct rec zero r) := .pure rfl

theorem atomicProduct_zero_right : Vanishes (atomicProduct rec l zero) := by
  refine .ask ?_ ?_
  · exact .pure rfl
  · exact .pure rfl

/-- Zero divided by anything but zero, which is refused. -/
theorem atomicQuotient_zero : Vanishes (atomicQuotient rec zero r) := by
  refine .ask ?_ ?_
  · exact .throw _
  · exact .pure rfl

/-- Zero joins no divisor. -/
theorem spliceWith_divisor (h : r.isProduct = false) :
    Returns (spliceWith rec .product (.ofInt 0) true r) (· = none) := by
  cases r with
  | absent => exact .throw _
  | leaf old => exact .pure rfl
  | node op a b =>
    rw [spliceWith_apart h]
    exact .pure rfl

/-- Where zero joins a chain, the chain is zero. -/
theorem spliceWith_zero (ht : t.Shaped A) :
    Returns (spliceWith rec .product (.ofInt 0) false t) fun o => ∀ u, o = some u → u = zero := by
  have found {e : Calc Expr} (h : Vanishes e) :
      Returns (some <$> e) fun o => ∀ u, o = some u → u = zero := by
    refine .map (h.mono ?_)
    rintro _ rfl _ ⟨⟩
    rfl
  induction t with
  | absent => exact .throw _
  | leaf old =>
    show Returns (do return (← Leaf.combine? .mul old (.ofInt 0)).map leaf) _
    rw [Leaf.mul_zero]
    exact found (.pure rfl)
  | node op l r ihl ihr =>
    obtain ⟨hl, hr, divisor, -⟩ := ht
    -- products and quotients both look into the left operand first
    have left {next : Option Expr → Calc (Option Expr)}
        (hsome : Returns (next (some zero)) fun o => ∀ u, o = some u → u = zero)
        (hnone : Returns (next none) fun o => ∀ u, o = some u → u = zero) :
        Returns (spliceWith rec .product (.ofInt 0) false l >>= next) fun o =>
          ∀ u, o = some u → u = zero := by
      refine .bind (ihl hl) fun o ho => ?_
      cases o with
      | some l' =>
        obtain rfl := ho l' rfl
        exact hsome
      | none => exact hnone
    cases op with
    | binary op =>
      cases op with
      | mul =>
        refine left (found atomicProduct_zero_left) (.bind (ihr hr) fun o ho => ?_)
        cases o with
        | some r' =>
          obtain rfl := ho r' rfl
          exact found atomicProduct_zero_right
        | none => exact .none
      | div =>
        refine left (found atomicQuotient_zero) ?_
        refine .bind (spliceWith_divisor (divisor rfl)) fun o ho => ?_
        obtain rfl := ho
        exact .none
      | _ => exact .none
    | _ => exact .none

/-- Zero takes in whatever it is multiplied to. -/
theorem combine_mul_zero (ht : t.Shaped A) : Vanishes (combine .mul t zero) := by
  rw [combine_eq_step]
  refine combineStep_returns nofun fun present _ => ?_
  cases t with
  | absent => cases present
  | leaf a => exact atomicProduct_zero_right
  | node op a b =>
    show Returns (chainWith combine .product .mul (node op a b) zero) _
    refine chainWith_returns ?_ ?_ fun _ => ?_
    · rintro _ ⟨⟩
      exact spliceWith_zero ht
    · rintro _ ⟨⟩
    · rw [reassociate_apart rfl]
      exact atomicProduct_zero_right

/-! ## The rules -/

theorem productRule_zero (hu : u.Shaped A) : Vanishes (productRule u v zero zero) :=
  combine_mul_zero hu

/-- The power rule for a base and an exponent whose derivatives are zero. -/
theorem powerRule_zero (hA : Leaf.Closed A) (hu : u.Shaped A) (hv : v.Shaped A) :
    Vanishes (powerRule u v zero zero) := by
  show Returns (do times (← times v (← power u (← minus v one))) zero) _
  refine .bind (combine_shaped hA hv (shaped_ofInt hA 1)) fun _ h => ?_
  refine .bind (combine_shaped hA hu h) fun _ h => ?_
  exact .bind (combine_shaped hA hv h) fun _ h => combine_mul_zero h

/-- Sums of zeros are zero. -/
theorem combine_sum_zero {op : Binary} (hop : op.level = some .sum) :
    Vanishes (combine op zero zero) := by
  rw [combine_eq_chain hop rfl rfl]
  show Vanishes (atomicWith combine op zero zero)
  rw [atomicWith_sum combine hop, atomicSum_zero rfl]
  exact .pure rfl

/-- The variable does not occur in the tree, which has the shape of combined trees and no equation
in it. -/
structure Lacks (x : String) (t : Expr) : Prop where
  shaped : t.Shaped fun a => ∀ y ∈ a.names, y ≠ x
  isQuantity : t.isQuantity = true

omit [Exactness] in
/-- A variable that a tree lacks, its operands lack. -/
theorem Lacks.operands {op : Op} (h : (node op l r).Lacks x) : l.Lacks x ∧ r.Lacks x := by
  have quantities : l.isQuantity = true ∧ r.isQuantity = true := by
    cases op with
    | binary op => exact (isQuantity_node h.isQuantity).2
    | _ => exact Bool.and_eq_true_iff.mp h.isQuantity
  exact ⟨⟨h.shaped.1, quantities.1⟩, ⟨h.shaped.2.1, quantities.2⟩⟩

/-- A variable that a divisor lacks, its reciprocal lacks. -/
theorem Lacks.reciprocal (h : r.Lacks x) : Returns (reciprocal r) fun t => t.1.Lacks x := by
  have hA := Leaf.closed_names (· ≠ x)
  have parts :
      Returns (reciprocalParts r) fun p => p.1.isQuantity = true ∧ p.2.isQuantity = true := by
    unfold reciprocalParts
    split
    · exact .throw _
    next base z =>
      -- a power gives its base, and its exponent turned round
      refine .after fun w => .bind (P := (· = base)) (fun _ => eq_of_present) ?_
      rintro _ rfl
      exact .pure ⟨h.operands.1.isQuantity, rfl⟩
    · exact .throw _
    · exact .pure ⟨h.isQuantity, rfl⟩
  have raised : Returns (Subtype.val <$> r.reciprocal) fun t => t.Lacks x := by
    rw [reciprocal_val]
    refine .bind ((reciprocalParts_shaped hA h.shaped).and parts) fun p hp => ?_
    exact ((raise_shaped hA hp.1.1 hp.1.2).and (raise_isQuantity hp.2.1 hp.2.2)).mono
      fun t ht => ⟨ht.1, ht.2⟩
  intro t ht
  refine raised t.1 ?_
  rw [ht]
  rfl

/-! ## Trees -/

/-- The derivative of a leaf of another variable. -/
theorem differentiateLeaf_zero {a : Leaf} (h : ∀ y ∈ a.names, y ≠ x) :
    Vanishes (differentiateLeaf x a) := by
  cases a with
  | number z => exact .pure rfl
  | monomial y m p =>
    have other : (y != x) = true := bne_iff_ne.mpr (h y (List.mem_singleton_self y))
    simp only [differentiateLeaf, if_pos other]
    exact .pure rfl

/-- The derivative of a tree without the variable is the leaf zero, if there is one. -/
theorem Lacks.differentiate (h : t.Lacks x) : Vanishes (differentiate x t) := by
  have hA := Leaf.closed_names (· ≠ x)
  -- a quotient is differentiated by its reciprocal divisor, which is no part of the tree
  induction hw : t.weight using Nat.strong_induction_on generalizing t with
  | _ weight ih =>
    subst hw
    have lighter : ∀ {u : Expr}, u.weight < t.weight → u.Lacks x →
        Vanishes (Expr.differentiate x u) := fun hw hu => ih _ hw hu rfl
    cases t with
    | absent =>
      rw [Expr.differentiate]
      exact .throw _
    | leaf a =>
      rw [Expr.differentiate]
      exact differentiateLeaf_zero h.shaped
    | node op l r =>
      -- both operands lack the variable, so every rule is about zeros
      obtain ⟨hl, hr⟩ := h.operands
      have left := lighter (weight_lt_left op l r) hl
      have right := lighter (weight_lt_right op l r) hr
      cases op with
      | binary op =>
        cases op with
        | equals => exact absurd rfl (isQuantity_node h.isQuantity).1
        | add | sub =>
          rw [Expr.differentiate]
          exact left.bind (right.bind (combine_sum_zero rfl))
        | mul =>
          rw [Expr.differentiate]
          exact left.bind (right.bind (productRule_zero hl.shaped))
        | div =>
          rw [Expr.differentiate]
          refine Returns.bind hr.reciprocal fun p hp => ?_
          -- the induction reaches the reciprocal by its weight
          have light : p.1.weight < (binary .div l r).weight := by
            have := p.2
            have := weight_pos l
            simp only [Expr.weight, ↓reduceIte]
            omega
          exact left.bind ((lighter light hp).bind (productRule_zero hl.shaped))
        | pow =>
          rw [Expr.differentiate]
          exact left.bind (right.bind (powerRule_zero hA hl.shaped hr.shaped))
      | factorial =>
        rw [Expr.differentiate]
        refine Returns.after fun t => ?_
        split
        · exact .throw _
        · exact .pure rfl
      | function f =>
        rw [Expr.differentiate]
        exact right.bind (.pure rfl)
      | opening | closing =>
        rw [Expr.differentiate]
        · exact right.bind (.pure rfl)
        all_goals simp

end

/-! ## Texts -/

/-- **The derivative with respect to a variable that does not occur is the leaf zero**, whatever
operators and functions the tree of a text is made of, unless there is no derivative at all or the
text is an equation. -/
theorem differentiate_absent {reading : Reading} {allowed : Option (List String)} {text : String}
    (noEquation : '=' ∉ text.toList) (read : parse reading allowed text = .ok t)
    (absent : x ∉ t.names) (derivative : differentiate x t = .ok d) : d = zero := by
  have shaped := (parse_shaped reading allowed text t read).of_names
    fun y hy => ne_of_mem_of_not_mem hy absent
  have lacks : t.Lacks x := ⟨shaped, parse_isQuantity reading allowed noEquation t read⟩
  exact lacks.differentiate d derivative

omit [Tolerance] in
/-- A power over a sum of a factorial and a function, times the variable `y` that `x` is not. -/
theorem differentiate_absent_quotient :
    letI := Double.standardTolerance
    let y := ofName "y"
    let t := binary .mul (binary .div (binary .pow (apply .sin y) y)
      (binary .add (factorial y) (apply .ln y))) y
    parse .standard none "(sin y)^y/(y!+ln y)*y" = .ok t ∧ "x" ∉ t.names ∧
      ∃ d, differentiate "x" t = .ok d ∧ d = zero := by
  let := Double.standardTolerance
  intro y t
  have read : parse .standard none "(sin y)^y/(y!+ln y)*y" = .ok t := by decide +kernel
  have absent : "x" ∉ t.names := by decide
  have derivative : differentiate "x" t = .ok zero := by decide +kernel
  exact ⟨read, absent, zero, derivative, differentiate_absent (by decide) read absent derivative⟩

end Expr

end SymbolicAlgebra
