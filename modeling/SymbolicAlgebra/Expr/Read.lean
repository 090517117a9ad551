import SymbolicAlgebra.Parser
import SymbolicAlgebra.Rewrite.Combine

/-!
# Reading expressions

The parser with expressions for trees: operands combine as they are read, so what comes
out is in simplified form. With `peephole` set, a function applied to its inverse gives
back the argument of the inverse.
-/

namespace SymbolicAlgebra

namespace Expr

variable [Tolerance]

/-- Apply a function, or take off its inverse. -/
def applyFunction (peephole : Bool) (f : Func) (t : Expr) : Expr :=
  match t with
  | node (.function g) _ u => if peephole && f.inverse? == some g then u else apply f t
  | _ => apply f t

omit [Tolerance] in
/-- A function is put on, or taken off together with its inverse. -/
theorem applyFunction_of {P : Expr → Prop} {peephole : Bool} {f : Func} {t : Expr}
    (put : P (apply f t))
    (taken : peephole = true → ∀ g l u, t = node (.function g) l u → f.inverse? = some g → P u) :
    P (applyFunction peephole f t) := by
  unfold applyFunction
  split
  next g l u =>
    split
    next undone =>
      rw [Bool.and_eq_true, beq_iff_eq] at undone
      exact taken undone.1 g l u rfl undone.2
    next => exact put
  next => exact put

variable [Exactness]

/-- Expressions as the trees of the parser. -/
def builder (peephole : Bool) : Builder Expr where
  number := number
  letter := ofName
  negate := negate
  combine := combine
  factorial t := pure (factorial t)
  apply f t := pure (applyFunction peephole f t)

/-- The expression that a text spells. -/
def parse (reading : Reading) (allowed : Option (List String)) (text : String) : Calc Expr :=
  Parser.parse (builder reading.peephole) reading allowed text

end Expr

end SymbolicAlgebra
