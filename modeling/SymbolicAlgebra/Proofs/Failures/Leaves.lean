import SymbolicAlgebra.Proofs.Failures.Numbers
import SymbolicAlgebra.Rewrite.Combine

/-!
# Failures of leaves and of questions

Leaf algebra fails only as the arithmetic on its numbers does. A question that the rules of
combination ask about a tree fails only if a number is too wide for a double, or if nothing is there
that could answer it (`Expr.Unanswered`).
-/

namespace SymbolicAlgebra

variable [Tolerance]

namespace Leaf

variable {a b : Leaf}

theorem isZero_failsAs : a.isZero.FailsAs (· = .tooWide) := by
  cases a with
  | number => exact Number.isZero_failsAs
  | monomial => exact Number.isZero_failsAs

/-- No monomial is one, and that is answered without looking at its numbers. -/
theorem isOne_failsAs : a.isOne.FailsAs (· = .tooWide) := by
  cases a with
  | number => exact Number.same_failsAs
  | monomial => exact .pure _

theorem isNegOne_failsAs : a.isNegOne.FailsAs (· = .tooWide) := by
  cases a with
  | number => exact Number.same_failsAs
  | monomial => exact .pure _

theorem isNumberZero_failsAs : a.isNumberZero.FailsAs (· = .tooWide) := by
  cases a with
  | number => exact Number.isZero_failsAs
  | monomial => exact .pure _

theorem sgn_failsAs : a.sgn.FailsAs (· = .tooWide) := by
  cases a with
  | number => exact Number.sgn_failsAs
  | monomial => exact Number.sgn_failsAs

/-- Only monomials of one variable are asked for their powers, and only where these matter. -/
theorem compatible_failsAs {multiply : Bool} :
    (a.compatible multiply b).FailsAs (· = .tooWide) := by
  unfold compatible
  split
  next =>
    split
    next =>
      split
      next => exact .pure _
      next => exact Value.same_failsAs
    next => exact .pure _
  next => exact .pure _

variable [Exactness]

theorem neg_failsAs : a.neg.FailsAs Failure.IsNumeric := by
  cases a with
  | number => exact Number.neg_failsAs.map
  | monomial => exact Number.neg_failsAs.bind fun _ => .pure _

/-- A monomial is asked for its coefficient and for its power, as it may be a number. -/
theorem some_ofMonomial_failsAs {x : String} {m : Number} {p : Value} :
    Calc.FailsAs Failure.IsNumeric (some <$> ofMonomial x m p) := by
  refine .map ?_
  unfold ofMonomial
  refine .ask Number.isZero_failsAs.numeric ?nought (.ask Value.isZero_failsAs.numeric ?number ?_)
  case nought => exact .pure _
  case number => exact .pure _
  exact .pure _

/-- Like monomials are added or subtracted by their coefficients. -/
theorem sum?_failsAs {op : Number → Number → Calc Number}
    (hop : ∀ z w, (op z w).FailsAs Failure.IsNumeric) :
    (sum? op a b).FailsAs Failure.IsNumeric := by
  unfold sum?
  split
  next x m p y n q =>
    refine .ask compatible_failsAs.numeric ?like (.pure _)
    refine (hop m n).bind fun sum => ?_
    exact .ask Number.isZero_failsAs.numeric (.pure _) (.pure _)
  next => exact .pure _

/-- A number scales a monomial, and two of one variable add their powers. -/
theorem product?_failsAs : (product? a b).FailsAs Failure.IsNumeric := by
  unfold product?
  split
  next => exact Number.mul_failsAs.bind fun _ => some_ofMonomial_failsAs
  next => exact Number.mul_failsAs.bind fun _ => some_ofMonomial_failsAs
  next =>
    split
    next =>
      refine Number.mul_failsAs.bind fun coefficient => Value.add_failsAs.bind fun power => ?_
      exact some_ofMonomial_failsAs
    next => exact .pure _
  next => exact .pure _

/-- A monomial is divided by a number that is not nought, and two of one variable subtract their
powers. -/
theorem quotient?_failsAs : (quotient? a b).FailsAs Failure.IsNumeric := by
  unfold quotient?
  split
  next =>
    refine .ask Number.isZero_failsAs.numeric (.pure _) ?_
    exact Number.div_failsAs.bind fun _ => some_ofMonomial_failsAs
  next =>
    split
    next =>
      refine Number.div_failsAs.bind fun coefficient => Value.sub_failsAs.bind fun power => ?_
      exact some_ofMonomial_failsAs
    next => exact .pure _
  next => exact .pure _

/-- A monomial is raised to a real number. -/
theorem power?_failsAs : (power? a b).FailsAs Failure.IsNumeric := by
  unfold power?
  split
  next =>
    refine .ask Number.isReal_failsAs.numeric ?real (.pure _)
    refine Number.pow_failsAs.bind fun coefficient => Value.mul_failsAs.bind fun power => ?_
    exact some_ofMonomial_failsAs
  next => exact .pure _

/-- **Leaf algebra fails as arithmetic does**, whatever the operator and the leaves are. -/
theorem combine?_failsAs {op : Binary} : (combine? op a b).FailsAs Failure.IsNumeric := by
  unfold combine?
  split
  next numbers =>
    unfold combineNumbers?
    split
    next => exact Number.add_failsAs.map.map
    next => exact Number.sub_failsAs.map.map
    next => exact Number.mul_failsAs.map.map
    next => exact Number.div_failsAs.map.map
    next => exact Number.pow_failsAs.map.map
    next => exact .pure _
  next =>
    split
    next => exact sum?_failsAs fun _ _ => Number.add_failsAs
    next => exact sum?_failsAs fun _ _ => Number.sub_failsAs
    next => exact product?_failsAs
    next => exact quotient?_failsAs
    next => exact power?_failsAs
    next => exact .pure _

/-- A leaf of a chain merges as leaf algebra does, but not into a divisor that is nought. -/
theorem mergeInto?_failsAs {level : Level} {inverted : Bool} :
    (mergeInto? level inverted a b).FailsAs Failure.IsNumeric := by
  unfold mergeInto?
  split
  next => exact combine?_failsAs
  next => exact combine?_failsAs
  next => exact combine?_failsAs
  next =>
    refine .ask isNumberZero_failsAs.numeric (.pure _) ?_
    split
    next => exact .pure _
    next => exact combine?_failsAs

end Leaf

/-! ## Questions -/

namespace Expr

variable {t : Expr}

omit [Tolerance] in
/-- How a question about a tree fails. -/
def Unanswered (t : Expr) (e : Failure) : Prop := e = .tooWide ∨ t = absent ∧ e = .noOperand

omit [Tolerance] in
theorem unanswered_absent {α : Type} :
    Calc.FailsAs (Unanswered absent) (throw .noOperand : Calc α) :=
  .throw (.inr ⟨rfl, rfl⟩)

omit [Tolerance] in
theorem unanswered_leaf {α : Type} {x : Calc α} (h : x.FailsAs (· = .tooWide)) :
    x.FailsAs t.Unanswered :=
  h.mono fun _ => .inl

/-- Of the trees only leaves may be nought, and so it is with the questions below. -/
theorem isZero_failsAs : t.isZero.FailsAs t.Unanswered := by
  cases t with
  | absent => exact unanswered_absent
  | leaf => exact unanswered_leaf Leaf.isZero_failsAs
  | node => exact .pure _

/-- Whether a tree is one. -/
theorem isOne_failsAs : t.isOne.FailsAs t.Unanswered := by
  cases t with
  | absent => exact unanswered_absent
  | leaf => exact unanswered_leaf Leaf.isOne_failsAs
  | node => exact .pure _

/-- Whether a tree is minus one. -/
theorem isNegOne_failsAs : t.isNegOne.FailsAs t.Unanswered := by
  cases t with
  | absent => exact unanswered_absent
  | leaf => exact unanswered_leaf Leaf.isNegOne_failsAs
  | node => exact .pure _

/-- Whether a tree is a number that is nought. -/
theorem isNumberZero_failsAs : t.isNumberZero.FailsAs t.Unanswered := by
  cases t with
  | absent => exact unanswered_absent
  | leaf => exact unanswered_leaf Leaf.isNumberZero_failsAs
  | node => exact .pure _

/-- A tree that is missing is no positive number, so there the question has an answer. -/
theorem isPositiveNumber_failsAs : t.isPositiveNumber.FailsAs (· = .tooWide) := by
  unfold isPositiveNumber
  split
  next => exact Value.sgn_failsAs.bind fun _ => .pure _
  next => exact .pure _

end Expr

end SymbolicAlgebra
