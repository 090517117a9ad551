import SymbolicAlgebra.Eval
import SymbolicAlgebra.Rewrite.Combine
import SymbolicAlgebra.Rewrite.Fractions

/-!
# Simplification

One pass over a tree folds its constant parts to numbers, combines each operator with its
simplified operands again, and then tries the equivalences of fractions: a candidate is
simplified in turn and taken if it is smaller than the best tree so far. Candidates of
candidates are tried to a limited depth. A part in which arithmetic fails stays as it is,
and a candidate in which it fails is passed over.

Passes are repeated until a tree stays equal to itself, up to `passLimit` times.
-/

namespace SymbolicAlgebra

namespace Expr

variable [Tolerance] [Exactness]

/-- The better of the best tree so far and the simplified candidate, which has to be
smaller. A candidate in which arithmetic fails is no better. -/
def better (best : Expr) (candidate : Calc Expr) : Calc Expr :=
  match candidate with
  | .ok t => pure (if t.size < best.size then t else best)
  | .error f => if f.isArithmetic then pure best else throw f

/-- Search the candidates that a list of equivalences makes of a tree. -/
def search (deeper : Expr → Calc Expr) (t : Expr) :
    List (Expr → Calc (Option Expr)) → Expr → Calc Expr
  | [], best => pure best
  | rewrite :: rest, best => do
    match ← rewrite t with
    | some candidate => search deeper t rest (← better best (deeper candidate))
    | none => search deeper t rest best

/-- Combine simplified operands and search for a smaller tree, with `deeper` for the
candidates if the search may go on. Where combining fails, the old tree stays. -/
def improve (deeper : Option (Expr → Calc Expr)) (old : Expr) (combined : Calc Expr) :
    Calc Expr :=
  match combined with
  | .error f => if f.isArithmetic then pure old else throw f
  | .ok best =>
    match deeper with
    | some simplified => if best.isLeaf then pure best else search simplified best equivalences best
    | none => pure best

/-- Fold a constant tree to a number, and go on with any other. -/
def foldOr (t : Expr) (otherwise : Calc Expr) : Calc Expr := do
  match ← t.fold? with
  | some z => pure (number z)
  | none => otherwise

/-- One pass over a tree, with `deeper` for the candidates. -/
def passWith (deeper : Option (Expr → Calc Expr)) : Expr → Calc Expr
  | node op l r => foldOr (node op l r) do
    let l' ← passWith deeper l
    let r' ← passWith deeper r
    improve deeper (node op l r) (build op l' r')
  | t => pure t

/-- One pass, with a number of levels of candidates. -/
def pass : Nat → Expr → Calc Expr
  | 0 => passWith none
  | depth + 1 => passWith (some (pass depth))

/-- How often a tree is passed over. -/
def passLimit : Nat := 8

/-- Passes until the tree stays equal, or the given number of times. -/
def passes (depth : Nat) : Nat → Expr → Calc Expr
  | 0, t => pure t
  | n + 1, t => do
    let t' ← pass depth t
    if ← t'.same t then pure t else passes depth n t'

/-- The simplified tree. -/
def simplify (depth : Nat) (t : Expr) : Calc Expr := do passes depth passLimit (← t.present)

end Expr

end SymbolicAlgebra
