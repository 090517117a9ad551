import SymbolicAlgebra.Rewrite.Combine

/-!
# Derivatives

The derivative of an expression with respect to a variable, by the rules of calculus. All
results are built with `Expr.combine`, so they come out simplified.

A quotient is differentiated as the product with a power of its divisor. That power is not
a part of the quotient, so the recursion is on `Expr.weight`, which counts a quotient
double; `Expr.reciprocal` returns the power together with the fact that it is lighter.
-/

namespace SymbolicAlgebra

namespace Expr

/-- The size of a tree with every quotient counted double. -/
def weight : Expr → Nat
  | absent => 1
  | leaf _ => 1
  | node op l r => (if op = .binary .div then 2 else 1) + l.weight + r.weight

/-- The left operand is lighter than the tree. -/
theorem weight_lt_left (op : Op) (l r : Expr) : l.weight < (node op l r).weight := by
  simp only [weight]
  split <;> omega

/-- The right operand is lighter than the tree. -/
theorem weight_lt_right (op : Op) (l r : Expr) : r.weight < (node op l r).weight := by
  simp only [weight]
  split <;> omega

/-- Every tree weighs something. -/
theorem weight_pos (t : Expr) : 0 < t.weight := by
  cases t with
  | absent => simp [weight]
  | leaf => simp [weight]
  | node op l r => exact Nat.lt_of_le_of_lt (Nat.zero_le _) (weight_lt_left op l r)

variable [Tolerance] [Exactness]

/-- A merged power is no heavier than the node would be. -/
theorem weight_mergeLeaves_pow {l r t : Expr} (h : mergeLeaves .pow l r = .ok t) :
    t.weight ≤ 1 + l.weight + r.weight := by
  have plain : ∀ {t : Expr}, (pure (binary .pow l r) : Calc Expr) = .ok t →
      t.weight ≤ 1 + l.weight + r.weight := by
    rintro t h
    cases h
    simp [weight]
  unfold mergeLeaves at h
  split at h
  · obtain ⟨c, -, hc⟩ := Calc.bind_eq_ok.mp h
    cases c with
    | some c => cases hc; simp only [weight]; omega
    | none => exact plain hc
  · exact plain h

/-- A power weighs at most what the node of its operands would: an identity only makes it
lighter. -/
theorem weight_raise {l r t : Expr} (h : raise l r = .ok t) :
    t.weight ≤ 1 + l.weight + r.weight := by
  have one_le : (1 : Nat) ≤ 1 + l.weight + r.weight := by omega
  unfold raise at h
  obtain ⟨rZero, -, h⟩ := Calc.bind_eq_ok.mp h
  cases rZero with
  | true => cases h; exact one_le
  | false =>
    obtain ⟨rOne, -, h⟩ := Calc.bind_eq_ok.mp h
    cases rOne with
    | true => cases h; omega
    | false =>
      obtain ⟨lOne, -, h⟩ := Calc.bind_eq_ok.mp h
      cases lOne with
      | true => cases h; omega
      | false =>
        obtain ⟨vanishes, -, h⟩ := Calc.bind_eq_ok.mp h
        cases vanishes with
        | true => cases h; exact one_le
        | false => exact weight_mergeLeaves_pow h

/-! ## Building blocks -/

/-- One half. -/
def half : Expr := number (.ofValue .half)

/-- The sum. -/
def plus (l r : Expr) : Calc Expr := combine .add l r

/-- The difference. -/
def minus (l r : Expr) : Calc Expr := combine .sub l r

/-- The product. -/
def times (l r : Expr) : Calc Expr := combine .mul l r

/-- The quotient. -/
def dividedBy (l r : Expr) : Calc Expr := combine .div l r

/-- The power. -/
def power (l r : Expr) : Calc Expr := combine .pow l r

/-- The square. -/
def square (u : Expr) : Calc Expr := power u two

/-- The square root. -/
def squareRoot (u : Expr) : Calc Expr := power u half

/-- One over an expression. -/
def oneOver (u : Expr) : Calc Expr := dividedBy one u

/-- The derivative of a named function at `u`. -/
def outer (u : Expr) : Func → Calc Expr
  | .ln => oneOver u
  | .exp => pure (apply .exp u)
  | .abs => dividedBy (apply .abs u) u
  | .sin => pure (apply .cos u)
  | .cos => negate (apply .sin u)
  | .tan => do oneOver (← square (apply .cos u))
  | .asin => do oneOver (← squareRoot (← minus one (← square u)))
  | .acos => do negate (← oneOver (← squareRoot (← minus one (← square u))))
  | .atan => do oneOver (← plus one (← square u))
  | .sinh => pure (apply .cosh u)
  | .cosh => pure (apply .sinh u)
  | .tanh => do oneOver (← square (apply .cosh u))
  | .asinh => do oneOver (← squareRoot (← plus (← square u) one))
  | .acosh => do
    oneOver (← times (← squareRoot (← minus u one)) (← squareRoot (← plus u one)))
  | .atanh => do oneOver (← minus one (← square u))

/-- The product rule. -/
def productRule (u v du dv : Expr) : Calc Expr := do
  if ← du.isZero then times u dv
  else if ← dv.isZero then times du v
  else plus (← times du v) (← times u dv)

/-- The rule for `u ^ v`: that of a constant exponent, that of a constant base, and
`u^v (dv ln u + v du / u)`. -/
def powerRule (u v du dv : Expr) : Calc Expr := do
  if ← dv.isZero then times (← times v (← power u (← minus v one))) du
  else if ← du.isZero then times (← times (← power u v) (apply .ln u)) dv
  else
    let scaled ← power u v
    times scaled (← plus (← times dv (apply .ln u)) (← dividedBy (← times v du) u))

/-- The derivative of a leaf. -/
def differentiateLeaf (name : String) : Leaf → Calc Expr
  | .number _ => pure zero
  | .monomial x mult p => do
    if x != name then pure zero
    else if ← p.isZero then pure zero
    else
      let m ← mult.mul (.ofValue p)
      let q ← p.sub .one
      if ← q.isZero then pure (number m) else pure (leaf (.monomial x m q))

/-- The base and exponent of which one over a divisor is the power: a divisor that is a
power with a number for exponent turns the exponent around. -/
def reciprocalParts (den : Expr) : Calc (Expr × Expr) :=
  match den with
  | absent => throw .noOperand
  | node (.binary .pow) base (leaf (.number z)) => do
    let opposite ← z.neg
    return (← base.present, number opposite)
  | node (.binary .pow) _ absent => throw .noOperand
  | t => pure (t, negOne)

/-- Base and exponent of a reciprocal together weigh one more than the divisor, at most. -/
theorem weight_reciprocalParts {den : Expr} {p : Expr × Expr}
    (h : reciprocalParts den = .ok p) : p.1.weight + p.2.weight ≤ den.weight + 1 := by
  unfold reciprocalParts at h
  split at h
  · cases h
  · obtain ⟨z, -, h⟩ := Calc.bind_eq_ok.mp h
    obtain ⟨base, hbase, h⟩ := Calc.bind_eq_ok.mp h
    cases h
    rw [eq_of_present hbase]
    simp only [number, weight]
    omega
  · cases h
  · cases h
    simp [negOne, ofInt, weight]

/-- One over a divisor as a power, with the bound on its weight that the recursion of the
derivative rests on. -/
def reciprocal (den : Expr) : Calc { t : Expr // t.weight ≤ den.weight + 2 } :=
  match h : reciprocalParts den with
  | .error f => .error f
  | .ok p =>
    match h' : raise p.1 p.2 with
    | .error f => .error f
    | .ok t => .ok ⟨t, by
        have hp := weight_reciprocalParts h
        have ht := weight_raise h'
        omega⟩

/-- The derivative of an expression with respect to a variable. -/
def differentiate (name : String) : Expr → Calc Expr
  | absent => throw .noOperand
  | leaf a => differentiateLeaf name a
  | node (.binary .add) l r => do combine .add (← differentiate name l) (← differentiate name r)
  | node (.binary .sub) l r => do combine .sub (← differentiate name l) (← differentiate name r)
  | node (.binary .equals) l r => do
    combine .equals (← differentiate name l) (← differentiate name r)
  | node (.binary .mul) l r => do
    let dl ← differentiate name l
    let dr ← differentiate name r
    productRule l r dl dr
  | node (.binary .div) l r => do
    let ⟨recip, _⟩ ← reciprocal r
    let dl ← differentiate name l
    let dr ← differentiate name recip
    productRule l recip dl dr
  | node (.binary .pow) l r => do
    let dl ← differentiate name l
    let dr ← differentiate name r
    powerRule l r dl dr
  | node .factorial t _ => do
    if (← t.present).names.contains name then throw (.factorialDerivative name) else pure zero
  | node (.function f) _ u => do
    let du ← differentiate name u
    if ← du.isZero then pure zero else times du (← outer u f)
  | node _ _ u => do
    let du ← differentiate name u
    if ← du.isZero then pure zero else throw .noOperation
termination_by t => t.weight
decreasing_by
  any_goals exact weight_lt_left ..
  any_goals exact weight_lt_right ..
  have hl := weight_pos l
  simp only [weight, ↓reduceIte]
  omega

end Expr

end SymbolicAlgebra
