import SymbolicAlgebra.Op
import SymbolicAlgebra.Number.Functions

/-!
# Expressions

An expression is a tree of operators over leaves. A leaf is a number or a *monomial*, a
variable with its coefficient and power: `3x^2` is one leaf, not a tree of three. Keeping
monomials whole is what makes collecting like terms a matter of adding two coefficients.

An operator has a place on its left and one on its right, and a place may be empty. The
shapes that a text spells are `Expr.binary`, with both places taken, `Expr.factorial`, with
the left one, and `Expr.apply`, with the right one; `Expr.isWellFormed` holds of the trees
that are built of them. Other trees can be written down too. They can be measured and
compared, and an operation fails on them where it needs an operand that is absent, or a
meaning that a parenthesis does not have.

The functions here are the attributes of a tree: its size, its variables, its leading
sign, and the structural equality that compares leaves as numbers.
-/

namespace SymbolicAlgebra

/-- A leaf of an expression. -/
inductive Leaf where
  /-- A number. -/
  | number (z : Number)
  /-- The monomial `mult * name ^ power`. -/
  | monomial (name : String) (mult : Number) (power : Value)
  deriving DecidableEq

/-- An expression. -/
inductive Expr where
  /-- Nothing, in a place beside an operator. -/
  | absent
  /-- A leaf. -/
  | leaf (a : Leaf)
  /-- An operator with what stands on its left and on its right. -/
  | node (op : Op) (l r : Expr)
  deriving DecidableEq

namespace Leaf

/-- An integer as a leaf. -/
def ofInt (n : Int) : Leaf := number (.ofInt n)

/-- A variable by itself. -/
def ofName (name : String) : Leaf := monomial name .one .one

/-- The variable of a monomial. -/
def names : Leaf → List String
  | number _ => []
  | monomial name _ _ => [name]

variable [Tolerance] [Exactness]

/-- Whether the leaf is zero: a monomial is if its coefficient is. -/
def isZero : Leaf → Calc Bool
  | number z => z.isZero
  | monomial _ mult _ => mult.isZero

/-- Whether the leaf is the number one. -/
def isOne : Leaf → Calc Bool
  | number z => z.same .one
  | monomial .. => pure false

/-- Whether the leaf is the number minus one. -/
def isNegOne : Leaf → Calc Bool
  | number z => z.same (.ofInt (-1))
  | monomial .. => pure false

/-- Whether the leaf is the number zero. -/
def isNumberZero : Leaf → Calc Bool
  | number z => z.isZero
  | monomial .. => pure false

/-- The sign of the number or coefficient. -/
def sgn : Leaf → Calc Int
  | number z => z.sgn
  | monomial _ mult _ => mult.sgn

/-- The opposite. -/
def neg : Leaf → Calc Leaf
  | number z => number <$> z.neg
  | monomial name mult power => return monomial name (← mult.neg) power

/-- Equality of leaves. -/
def same : Leaf → Leaf → Calc Bool
  | number z, number w => z.same w
  | monomial x m p, monomial y n q =>
    if x == y then Calc.both (m.same n) (p.same q) else pure false
  | _, _ => pure false

/-- Whether two leaves are monomials of one variable, and of one power too unless they are
to be multiplied. -/
def compatible (multiply : Bool) : Leaf → Leaf → Calc Bool
  | monomial x _ p, monomial y _ q =>
    if x == y then (if multiply then pure true else q.same p) else pure false
  | _, _ => pure false

end Leaf

namespace Expr

/-! ## Shapes -/

/-- An operator between two operands. -/
@[match_pattern] abbrev binary (op : Binary) (l r : Expr) : Expr := node (.binary op) l r

/-- The factorial of an operand. -/
@[match_pattern] abbrev factorial (t : Expr) : Expr := node .factorial t absent

/-- A named function of an operand. -/
@[match_pattern] abbrev apply (f : Func) (t : Expr) : Expr := node (.function f) absent t

/-- Whether nothing is there. -/
def isAbsent : Expr → Bool
  | absent => true
  | _ => false

/-- Whether every operator has its operands, and nothing beside them. -/
def isWellFormed : Expr → Bool
  | absent => false
  | leaf _ => true
  | node (.binary _) l r => l.isWellFormed && r.isWellFormed
  | node .factorial l r => l.isWellFormed && r.isAbsent
  | node (.function _) l r => l.isAbsent && r.isWellFormed
  | node _ _ _ => false

@[simp] theorem isWellFormed_factorial (t : Expr) :
    (factorial t).isWellFormed = t.isWellFormed := by
  simp [isWellFormed, isAbsent]

@[simp] theorem isWellFormed_apply (f : Func) (t : Expr) :
    (apply f t).isWellFormed = t.isWellFormed := by
  simp [isWellFormed, isAbsent]

/-- An operand, which has to be there. -/
def present : Expr → Calc Expr
  | absent => throw .noOperand
  | t => pure t

theorem eq_of_present {t u : Expr} (h : t.present = .ok u) : u = t := by
  cases t <;> cases h <;> rfl

/-! ## Simple expressions -/

/-- A number as an expression. -/
def number (z : Number) : Expr := leaf (.number z)

/-- An integer as an expression. -/
def ofInt (n : Int) : Expr := leaf (.ofInt n)

/-- A variable as an expression. -/
def ofName (name : String) : Expr := leaf (.ofName name)

/-- Zero. -/
def zero : Expr := ofInt 0

/-- One. -/
def one : Expr := ofInt 1

/-- Two. -/
def two : Expr := ofInt 2

/-- Minus one. -/
def negOne : Expr := ofInt (-1)

/-! ## Attributes -/

/-- Whether the expression is a leaf. -/
def isLeaf : Expr → Bool
  | leaf _ => true
  | _ => false

/-- Whether the expression is a number. -/
def isNumber : Expr → Bool
  | leaf (.number _) => true
  | _ => false

/-- Whether the outermost operator continues a chain of the given kind. -/
def inChain (level : Level) : Expr → Bool
  | node op _ _ => op.continues level
  | _ => false

/-- Whether the expression is a product or quotient. -/
def isProduct (t : Expr) : Bool := t.inChain .product

/-- The number of leaves and operators. -/
def size : Expr → Nat
  | absent => 0
  | leaf _ => 1
  | node _ l r => 1 + l.size + r.size

/-- The variables, in the order of the text. -/
def names : Expr → List String
  | absent => []
  | leaf a => a.names
  | node _ l r => l.names ++ r.names

/-- Whether there is no variable. -/
def isConst : Expr → Bool
  | absent => true
  | leaf (.number _) => true
  | leaf (.monomial ..) => false
  | node _ l r => l.isConst && r.isConst

variable [Tolerance] [Exactness]

/-- Whether the expression is a leaf that is zero. -/
def isZero : Expr → Calc Bool
  | absent => throw .noOperand
  | leaf a => a.isZero
  | node .. => pure false

/-- Whether the expression is the number one. -/
def isOne : Expr → Calc Bool
  | absent => throw .noOperand
  | leaf a => a.isOne
  | node .. => pure false

/-- Whether the expression is the number minus one. -/
def isNegOne : Expr → Calc Bool
  | absent => throw .noOperand
  | leaf a => a.isNegOne
  | node .. => pure false

/-- Whether the expression is the number zero. -/
def isNumberZero : Expr → Calc Bool
  | absent => throw .noOperand
  | leaf a => a.isNumberZero
  | node .. => pure false

/-- The leading sign: that of the first leaf of a chain. Anything but a leaf or a chain
counts as positive, and so does a sum without a left operand. -/
def sgn : Expr → Calc Int
  | absent => throw .noOperand
  | leaf a => a.sgn
  | node op l _ =>
    if op.continues .product || (op.continues .sum && !l.isAbsent) then l.sgn else pure 1

/-- Structural equality, with leaves compared as numbers. -/
def same : Expr → Expr → Calc Bool
  | absent, absent => pure true
  | leaf a, leaf b => a.same b
  | node op l r, node op' l' r' =>
    if op = op' then Calc.both (l.same l') (r.same r') else pure false
  | _, _ => pure false

/-- Whether a tree is a monomial of the same variable as a monomial, and of the same power
too unless the two are to be multiplied. -/
def compatible (multiply : Bool) : Expr → Expr → Calc Bool
  | absent, _ => throw .noOperand
  | leaf (.monomial ..), absent => throw .noOperand
  | leaf (.monomial x m p), leaf b => Leaf.compatible multiply (.monomial x m p) b
  | leaf (.monomial ..), node .. => pure false
  | _, _ => throw .notAMonomial

/-- The attributes of a tree, taken together. -/
structure Attributes where
  /-- The number of leaves and operators. -/
  size : Nat
  /-- Whether there is no variable. -/
  isConst : Bool
  /-- The variables. -/
  names : List String
  /-- The leading sign. -/
  sgn : Int
  /-- Whether the tree is a leaf that is zero. -/
  isZero : Bool
  /-- Whether the tree is the number one. -/
  isOne : Bool
  /-- Whether the tree is a leaf. -/
  isLeaf : Bool
  deriving DecidableEq, Repr

/-- All attributes of a tree that is there. -/
def attributes (t : Expr) : Calc Attributes := do
  let t ← t.present
  return ⟨t.size, t.isConst, t.names, ← t.sgn, ← t.isZero, ← t.isOne, t.isLeaf⟩

end Expr

end SymbolicAlgebra
