import SymbolicAlgebra.Expr.Display

/-!
# Leaf algebra

Two leaves often combine into one: numbers calculate, monomials of one variable and power
add, monomials of one variable multiply and divide, a number scales a monomial, and a
monomial takes a real power. `Leaf.combine?` is that table; it has no entry for leaves that
have to stay apart.

`Leaf.mergeInto?` is the same table read from inside a chain, where the new leaf comes
with a sign (in a sum) or an exponent of one or minus one (in a product).

`Expr.combineLeaves` asks the table about two trees. Trees that are no leaves have no entry,
and in a product they are not even looked up: there a number wants the coefficient of what
it scales, and anything else wants to be a monomial.
-/

namespace SymbolicAlgebra

namespace Leaf

variable [Tolerance] [Exactness]

/-- The monomial with a coefficient and power, or the number that it is. -/
def ofMonomial (name : String) (mult : Number) (power : Value) : Calc Leaf := do
  if ← mult.isZero then pure (number .zero)
  else if ← power.isZero then pure (number mult)
  else pure (monomial name mult power)

/-- The leaf that the operator makes of two numbers. An equation stays. -/
def combineNumbers? (op : Binary) (z w : Number) : Calc (Option Leaf) :=
  match op with
  | .add => some <$> number <$> z.add w
  | .sub => some <$> number <$> z.sub w
  | .mul => some <$> number <$> z.mul w
  | .div => some <$> number <$> z.div w
  | .pow => some <$> number <$> z.pow w
  | .equals => pure none

/-- The sum or difference of compatible monomials. -/
def sum? (op : Number → Number → Calc Number) (a b : Leaf) : Calc (Option Leaf) := do
  match a, b with
  | monomial x m p, monomial _ n _ =>
    if ← a.compatible false b then
      let mult ← op m n
      if ← mult.isZero then pure (some (number .zero)) else pure (some (monomial x mult p))
    else pure none
  | _, _ => pure none

/-- The product, where one side at least is a monomial. -/
def product? : Leaf → Leaf → Calc (Option Leaf)
  | number z, monomial x m p => do some <$> ofMonomial x (← m.mul z) p
  | monomial x m p, number z => do some <$> ofMonomial x (← m.mul z) p
  | monomial x m p, monomial y n q =>
    if x == y then do some <$> ofMonomial x (← m.mul n) (← p.add q) else pure none
  | _, _ => pure none

/-- The quotient, where the dividend is a monomial and the divisor is not zero. -/
def quotient? : Leaf → Leaf → Calc (Option Leaf)
  | monomial x m p, number z => do
    if ← z.isZero then pure none else some <$> ofMonomial x (← m.div z) p
  | monomial x m p, monomial y n q =>
    if x == y then do some <$> ofMonomial x (← m.div n) (← p.sub q) else pure none
  | _, _ => pure none

/-- The power of a monomial with a real exponent. -/
def power? : Leaf → Leaf → Calc (Option Leaf)
  | monomial x m p, number z => do
    if ← z.isReal then some <$> ofMonomial x (← m.pow z) (← p.mul z.re) else pure none
  | _, _ => pure none

/-- The one leaf that two leaves make under an operator, if they make one. -/
def combine? (op : Binary) (a b : Leaf) : Calc (Option Leaf) :=
  match a, b with
  | number z, number w => combineNumbers? op z w
  | _, _ =>
    match op with
    | .add => sum? Number.add a b
    | .sub => sum? Number.sub a b
    | .mul => product? a b
    | .div => quotient? a b
    | .pow => power? a b
    | .equals => pure none

/-- Combine a new leaf into a leaf of a sum, added or subtracted, or of a product,
multiplied or divided. In a product a number takes in no divisor but a number, and nothing
is divided by zero. -/
def mergeInto? (level : Level) (inverted : Bool) (old new : Leaf) : Calc (Option Leaf) :=
  match level, inverted with
  | .sum, false => combine? .add old new
  | .sum, true => combine? .sub old new
  | .product, false => combine? .mul old new
  | .product, true => do
    if ← new.isNumberZero then pure none
    else match old, new with
      | number _, monomial .. => pure none
      | _, _ => combine? .div old new

end Leaf

namespace Expr

variable [Tolerance] [Exactness]

/-- The leaf that an operator makes of two trees, if it makes one. -/
def combineLeaves? : Op → Expr → Expr → Calc (Option Leaf)
  | _, absent, _ => throw .noOperand
  | _, leaf (.number _), absent => throw .noOperand
  | .binary op, leaf a, leaf b => Leaf.combine? op a b
  | .binary .equals, _, _ => pure none
  | .binary _, leaf (.monomial ..), absent => throw .noOperand
  | .binary .mul, node .., absent => throw .noOperand
  | .binary .mul, leaf (.number _), node .. => throw .noCoefficient
  | .binary .mul, node .., leaf (.number _) => throw .noCoefficient
  | .binary .mul, node .., _ => throw .notAMonomial
  | _, _, _ => pure none

/-- The leaf that an operator makes of two trees. It fails if it makes none. -/
def combineLeaves (op : Op) (l r : Expr) : Calc Expr := do
  match ← combineLeaves? op l r with
  | some c => pure (leaf c)
  | none => throw (.leaves (← l.describe) op.symbol (← r.describe))

end Expr

end SymbolicAlgebra
