import SymbolicAlgebra.Derivative
import SymbolicAlgebra.Proofs.Combine.Formed

/-!
# Differentiating trees with all their operands

The rules of differentiation put parts of a tree together with numbers and with the functions that
the derivatives of functions are made of. So the derivative has all its operands again and no
variable that the tree does not have (`Expr.differentiate_formed`). Beside those of arithmetic, the
factorial of an expression in the variable is the only failure.

The induction is on the weight of the tree, as the recursion is: a quotient is differentiated
through a power of its divisor that is no part of it.
-/

namespace SymbolicAlgebra

/-- A failure of differentiating. -/
def Failure.IsDerivative [Exactness] (e : Failure) : Prop :=
  e.IsNumeric ∨ ∃ name, e = .factorialDerivative name

namespace Expr

variable [Tolerance] [Exactness] {A : Leaf → Prop} {N : String → Prop} {l r t u v du dv : Expr}

/-! ## Building blocks -/

theorem dividedBy_formed (hA : Leaf.Closed A) (hl : l.Formed A) (hr : r.Formed A) :
    Ends (dividedBy l r) Failure.IsNumeric (Formed A) := by
  unfold dividedBy
  exact combine_formed hA hl hr

theorem power_formed (hA : Leaf.Closed A) (hl : l.Formed A) (hr : r.Formed A) :
    Ends (power l r) Failure.IsNumeric (Formed A) := by
  unfold power
  exact combine_formed hA hl hr

theorem oneOver_formed (hA : Leaf.Closed A) (hu : u.Formed A) :
    Ends (oneOver u) Failure.IsNumeric (Formed A) :=
  dividedBy_formed hA (formed_number hA _) hu

theorem square_formed (hA : Leaf.Closed A) (hu : u.Formed A) :
    Ends (square u) Failure.IsNumeric (Formed A) :=
  power_formed hA hu (formed_number hA _)

theorem squareRoot_formed (hA : Leaf.Closed A) (hu : u.Formed A) :
    Ends (squareRoot u) Failure.IsNumeric (Formed A) :=
  power_formed hA hu (formed_number hA _)

omit [Tolerance] [Exactness] in
theorem apply_formed (f : Func) (hu : u.Formed A) : (apply f u).Formed A := ⟨rfl, hu⟩

/-- The derivative of a function is made of its argument, step by step. -/
theorem outer_formed (hA : Leaf.Closed A) (hu : u.Formed A) (f : Func) :
    Ends (outer u f) Failure.IsNumeric (Formed A) := by
  have one : Expr.one.Formed A := formed_number hA _
  -- most of them are one over something
  have slope : ∀ {x : Calc Expr}, Ends x Failure.IsNumeric (Formed A) →
      Ends (x >>= oneOver) Failure.IsNumeric (Formed A) := fun hx =>
    hx.bind fun _ h => oneOver_formed hA h
  cases f with
  | ln => exact oneOver_formed hA hu
  | exp => exact .pure (apply_formed _ hu)
  | abs => exact dividedBy_formed hA (apply_formed _ hu) hu
  | sin => exact .pure (apply_formed _ hu)
  | cos => exact negate_formed hA (apply_formed _ hu)
  | tan => exact slope (square_formed hA (apply_formed _ hu))
  | asin =>
    refine .bind (square_formed hA hu) fun square hs => ?_
    refine .bind (combine_formed hA one hs) fun difference hd => ?_
    exact slope (squareRoot_formed hA hd)
  | acos =>
    refine .bind (square_formed hA hu) fun square hs => ?_
    refine .bind (combine_formed hA one hs) fun difference hd => ?_
    refine .bind (squareRoot_formed hA hd) fun root hroot => ?_
    exact .bind (oneOver_formed hA hroot) fun inverse hi => negate_formed hA hi
  | atan => exact .bind (square_formed hA hu) fun _ h => slope (combine_formed hA one h)
  | sinh => exact .pure (apply_formed _ hu)
  | cosh => exact .pure (apply_formed _ hu)
  | tanh => exact slope (square_formed hA (apply_formed _ hu))
  | asinh =>
    refine .bind (square_formed hA hu) fun square hs => ?_
    refine .bind (combine_formed hA hs one) fun sum hsum => ?_
    exact slope (squareRoot_formed hA hsum)
  | acosh =>
    refine .bind (combine_formed hA hu one) fun below hb => ?_
    refine .bind (squareRoot_formed hA hb) fun first hf => ?_
    refine .bind (combine_formed hA hu one) fun above ha => ?_
    refine .bind (squareRoot_formed hA ha) fun second hs => ?_
    exact slope (combine_formed hA hf hs)
  | atanh => exact .bind (square_formed hA hu) fun _ h => slope (combine_formed hA one h)

/-- Both summands of the product rule are products, if both are there. -/
theorem productRule_formed (hA : Leaf.Closed A) (hu : u.Formed A) (hv : v.Formed A)
    (hdu : du.Formed A) (hdv : dv.Formed A) :
    Ends (productRule u v du dv) Failure.IsNumeric (Formed A) := by
  unfold productRule
  refine .ask hdu.isZero_failsAs (combine_formed hA hu hdv) ?_
  refine .ask hdv.isZero_failsAs (combine_formed hA hdu hv) ?_
  refine .bind (combine_formed hA hdu hv) fun first hf => ?_
  refine .bind (combine_formed hA hu hdv) fun second hs => ?_
  exact combine_formed hA hf hs

/-- The rule for powers goes by which of the derivatives is zero. -/
theorem powerRule_formed (hA : Leaf.Closed A) (hu : u.Formed A) (hv : v.Formed A)
    (hdu : du.Formed A) (hdv : dv.Formed A) :
    Ends (powerRule u v du dv) Failure.IsNumeric (Formed A) := by
  have log : (apply .ln u).Formed A := apply_formed _ hu
  unfold powerRule
  refine .ask hdv.isZero_failsAs ?exponent (.ask hdu.isZero_failsAs ?base ?both)
  case exponent =>
    refine .bind (combine_formed hA hv (formed_number hA _)) fun lower hl => ?_
    refine .bind (combine_formed hA hu hl) fun power hp => ?_
    exact .bind (combine_formed hA hv hp) fun scaled hs => combine_formed hA hs hdu
  case base =>
    refine .bind (combine_formed hA hu hv) fun power hp => ?_
    exact .bind (combine_formed hA hp log) fun scaled hs => combine_formed hA hs hdv
  case both =>
    refine .bind (combine_formed hA hu hv) fun power hp => ?_
    refine .bind (combine_formed hA hdv log) fun first hf => ?_
    refine .bind (combine_formed hA hv hdu) fun product hprod => ?_
    refine .bind (combine_formed hA hprod hu) fun second hs => ?_
    exact .bind (combine_formed hA hf hs) fun sum hsum => combine_formed hA hp hsum

/-- A leaf of one variable has a derivative in that variable. -/
theorem differentiateLeaf_formed (name : String) {a : Leaf} (ha : ∀ x ∈ a.names, N x) :
    Ends (differentiateLeaf name a) Failure.IsNumeric (Formed fun a => ∀ x ∈ a.names, N x) := by
  have number : ∀ z : Number, (Expr.number z).Formed fun a => ∀ x ∈ a.names, N x := fun _ => nofun
  unfold differentiateLeaf
  split
  next => exact .pure (number _)
  next y mult p =>
    split
    next other => exact .pure (number _)
    refine .ask Value.isZero_failsAs.numeric (.pure (number _)) ?_
    refine .after Number.mul_failsAs fun m => .after Value.sub_failsAs fun q => ?_
    -- the monomial that is left has the same variable
    exact .ask Value.isZero_failsAs.numeric (.pure (number m)) (.pure ha)

/-- The base and exponent of a reciprocal are parts of the divisor, or a number. -/
theorem reciprocalParts_formed (hA : Leaf.Closed A) (hr : r.Formed A) :
    Ends (reciprocalParts r) Failure.IsNumeric fun p => p.1.Formed A ∧ p.2.Formed A := by
  unfold reciprocalParts
  split
  · cases hr
  next base z =>
    rw [hr.1.present_eq]
    exact .after Number.neg_failsAs fun _ => .pure ⟨hr.1, formed_number hA _⟩
  · cases hr.2
  · exact .pure ⟨hr, formed_number hA _⟩

/-- A reciprocal is the power of its parts. -/
theorem reciprocal_formed (hA : Leaf.Closed A) (hr : r.Formed A) :
    Ends (reciprocal r) Failure.IsNumeric fun t => t.1.Formed A := by
  have parts := reciprocalParts_formed hA hr
  unfold reciprocal
  split
  next f h => exact .throw (parts.fails f h)
  next p h =>
    have hp := parts.returns p h
    have power := raise_formed hA hp.1 hp.2
    split
    next f h' => exact .throw (power.fails f h')
    next t h' => exact .pure (power.returns t h')

/-! ## Derivatives -/

/-- Differentiating a tree that has all its operands makes such a tree, in the same variables. -/
theorem differentiate_formed (name : String) (ht : t.Formed fun a => ∀ x ∈ a.names, N x) :
    Ends (differentiate name t) Failure.IsDerivative (Formed fun a => ∀ x ∈ a.names, N x) := by
  have hA := Leaf.closed_names N
  have numeric : ∀ {x : Calc Expr}, Ends x Failure.IsNumeric (Formed fun a => ∀ x ∈ a.names, N x) →
      Ends x Failure.IsDerivative (Formed fun a => ∀ x ∈ a.names, N x) := fun h =>
    h.mono (fun _ => .inl) fun _ => id
  induction hw : t.weight using Nat.strong_induction_on generalizing t with
  | _ weight ih =>
    subst hw
    have lighter : ∀ {u : Expr}, u.weight < t.weight → (u.Formed fun a => ∀ x ∈ a.names, N x) →
        Ends (differentiate name u) Failure.IsDerivative
          (Formed fun a => ∀ x ∈ a.names, N x) := fun hw hu => ih _ hw hu rfl
    cases t with
    | absent => cases ht
    | leaf a =>
      rw [differentiate]
      exact numeric (differentiateLeaf_formed name ht)
    | node op l r =>
      cases op with
      | binary op =>
        obtain ⟨hl, hr⟩ := ht
        have left := lighter (weight_lt_left _ _ _) hl
        have right := lighter (weight_lt_right _ _ _) hr
        cases op with
        | equals | add | sub =>
          rw [differentiate]
          refine left.bind fun dl hdl => right.bind fun dr hdr => ?_
          exact numeric (combine_formed hA hdl hdr)
        | mul =>
          rw [differentiate]
          refine left.bind fun dl hdl => right.bind fun dr hdr => ?_
          exact numeric (productRule_formed hA hl hr hdl hdr)
        | div =>
          rw [differentiate]
          have recip := reciprocal_formed hA hr
          refine Ends.bind (recip.mono (fun _ => .inl) fun _ => id) fun p hp => ?_
          have light : p.1.weight < (binary .div l r).weight := by
            have := p.2
            have := weight_pos l
            simp only [Expr.weight, ↓reduceIte]
            omega
          refine left.bind fun dl hdl => (lighter light hp).bind fun dr hdr => ?_
          exact numeric (productRule_formed hA hl hp hdl hdr)
        | pow =>
          rw [differentiate]
          refine left.bind fun dl hdl => right.bind fun dr hdr => ?_
          exact numeric (powerRule_formed hA hl hr hdl hdr)
      | factorial =>
        rw [differentiate, ht.1.present_eq]
        show Ends (if l.names.contains name then throw (.factorialDerivative name) else pure zero)
          _ _
        split
        next found => exact .throw (.inr ⟨name, rfl⟩)
        next => exact .pure (formed_number hA _)
      | function f =>
        rw [differentiate]
        refine Ends.bind (lighter (weight_lt_right _ _ _) ht.2) fun du hdu => numeric ?_
        refine .ask hdu.isZero_failsAs (.pure (formed_number hA _)) ?_
        exact .bind (outer_formed hA ht.2 f) fun slope hs => combine_formed hA hdu hs
      | _ => cases ht

end Expr

end SymbolicAlgebra
