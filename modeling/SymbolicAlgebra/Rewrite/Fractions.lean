import SymbolicAlgebra.Expr.Basic

/-!
# Rewrites of fractions

The equivalences that simplification searches through, each a function from a tree to an
equivalent tree, or to nothing where it does not apply. They move division outward and
inward: over sums, over products, through fractions of fractions, onto a common
denominator, and out altogether where a factor stands above and below.

Their results are plain nodes; the search simplifies them. `Expr.equivalences` is the
table, in the order in which the search goes through it.
-/

namespace SymbolicAlgebra

namespace Expr

/-- `(a ± b) / c = a/c ± b/c` -/
def splitSum : Expr → Option Expr
  | binary .div (binary op a b) c =>
    if op.level = some .sum then some (binary op (binary .div a c) (binary .div b c)) else none
  | _ => none

/-- `(a * b) / c = a * (b / c)` -/
def divideRight : Expr → Option Expr
  | binary .div (binary .mul a b) c => some (binary .mul a (binary .div b c))
  | _ => none

/-- `(a * b) / c = (a / c) * b` -/
def divideLeft : Expr → Option Expr
  | binary .div (binary .mul a b) c => some (binary .mul (binary .div a c) b)
  | _ => none

/-- `(a / b) / c = a / (b * c)` -/
def joinDenominators : Expr → Option Expr
  | binary .div (binary .div a b) c => some (binary .div a (binary .mul b c))
  | _ => none

/-- `a / (b / c) = (a * c) / b` -/
def invertDivisor : Expr → Option Expr
  | binary .div a (binary .div b c) => some (binary .div (binary .mul a c) b)
  | _ => none

/-- `(a * b) / d` for products of fractions, `a * (b / c)` and `(b / c) * a` over one
denominator. -/
def multiplyFractions : Expr → Option Expr
  | binary .mul (binary .div a b) (binary .div c d) =>
    some (binary .div (binary .mul a c) (binary .mul b d))
  | binary .mul a (binary .div b c) => some (binary .div (binary .mul a b) c)
  | binary .mul (binary .div b c) a => some (binary .div (binary .mul b a) c)
  | _ => none

/-- The factors of a product or quotient, each with whether it stands below the line. -/
def factors (below : Bool) : Expr → Calc (List (Expr × Bool))
  | absent => throw .noOperand
  | node (.binary .mul) l r => return (← factors below l) ++ (← factors below r)
  | node (.binary .div) l r => return (← factors below l) ++ (← factors (!below) r)
  | t => pure [(t, below)]

/-- The product of factors above the line, divided by those below. -/
def ofFactors (fs : List (Expr × Bool)) : Expr :=
  let above := (fs.filter fun f => !f.2).map Prod.fst
  let below := (fs.filter fun f => f.2).map Prod.fst
  let numerator := match above with
    | [] => one
    | first :: rest => rest.foldl (binary .mul) first
  below.foldl (binary .div) numerator

variable [Tolerance] [Exactness]

/-- Sums of fractions over one denominator: `a/c ± b/c = (a ± b)/c`,
`a/b ± c/d = (a*d ± c*b)/(b*d)`, `a ± b/c = (a*c ± b)/c` and `b/c ± a = (b ± a*c)/c`. -/
def addFractions : Expr → Calc (Option Expr)
  | binary op l r =>
    if op.level = some .sum then
      match l, r with
      | binary .div a b, binary .div c d => do
        if ← b.same d then pure (some (binary .div (binary op a c) b))
        else
          pure (some (binary .div (binary op (binary .mul a d) (binary .mul c b))
            (binary .mul b d)))
      | _, binary .div c d => pure (some (binary .div (binary op (binary .mul l d) c) d))
      | binary .div a b, _ => pure (some (binary .div (binary op a (binary .mul r b)) b))
      | _, _ => pure none
    else pure none
  | _ => pure none

/-- A list without the first entry that stands on the other side of the line and equals the
given one; none if there is no such entry. -/
def dropPartner? (f : Expr × Bool) : List (Expr × Bool) → Calc (Option (List (Expr × Bool)))
  | [] => pure none
  | g :: rest => do
    if ← Calc.both (pure (f.2 != g.2)) (f.1.same g.1) then pure (some rest)
    else return (← dropPartner? f rest).map (g :: ·)

/-- A list of factors without the first pair of equal ones on both sides of the line; none
if there is no such pair. -/
def dropPair? : List (Expr × Bool) → Calc (Option (List (Expr × Bool)))
  | [] => pure none
  | f :: rest => do
    match ← dropPartner? f rest with
    | some rest' => pure (some rest')
    | none => return (← dropPair? rest).map (f :: ·)

/-- `(a * b) / (b * c) = a / c`, for the first factor that stands on both sides. -/
def cancelFactor (t : Expr) : Calc (Option Expr) := do
  if t.isProduct then
    let fs ← t.factors false
    if fs.any (·.2) then return (← dropPair? fs).map ofFactors else pure none
  else pure none

/-- The equivalences, in the order of the search. -/
def equivalences : List (Expr → Calc (Option Expr)) :=
  [fun t => pure t.splitSum,
   fun t => pure t.divideRight,
   fun t => pure t.divideLeft,
   fun t => pure t.joinDenominators,
   fun t => pure t.invertDivisor,
   addFractions,
   fun t => pure t.multiplyFractions,
   cancelFactor]

/-- Whether an operand of a chain is absent. -/
def lacksOperand : Expr → Bool
  | node (.binary op) l r => op.level.isSome && (l.isAbsent || r.isAbsent)
  | _ => false

/-- All trees that the equivalences make of a tree, which has to have an operator with its
operands. -/
def candidates (t : Expr) : Calc (List Expr) := do
  let t ← t.present
  if t.isLeaf then throw .noOperator
  else if t.lacksOperand then throw .noOperand
  else equivalences.filterMapM fun rewrite => rewrite t

end Expr

end SymbolicAlgebra
