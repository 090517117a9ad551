/-!
# Operators

The operators of expressions: five arithmetic ones and the equation between two operands,
the factorial behind one, and the named functions in front of one. `Op` joins them with
the two parentheses into the table of symbols that a text is made of.

Operators bind by precedence, a higher one more tightly. Sums and products are *chains*:
`Binary.level` tells which of the two an operator continues, and `Binary.flip` is the
operator of the same chain that undoes it.
-/

namespace SymbolicAlgebra

/-- An operator between two operands. -/
inductive Binary where
  /-- `=` -/
  | equals
  /-- `+` -/
  | add
  /-- `-` -/
  | sub
  /-- `*` -/
  | mul
  /-- `/` -/
  | div
  /-- `^` -/
  | pow
  deriving DecidableEq, Repr

/-- A named function. -/
inductive Func where
  /-- `ln` -/
  | ln
  /-- `e^` -/
  | exp
  /-- `abs` -/
  | abs
  /-- `sin` -/
  | sin
  /-- `cos` -/
  | cos
  /-- `tan` -/
  | tan
  /-- `asin` -/
  | asin
  /-- `acos` -/
  | acos
  /-- `atan` -/
  | atan
  /-- `sinh` -/
  | sinh
  /-- `cosh` -/
  | cosh
  /-- `tanh` -/
  | tanh
  /-- `asinh` -/
  | asinh
  /-- `acosh` -/
  | acosh
  /-- `atanh` -/
  | atanh
  deriving DecidableEq, Repr

/-- The two kinds of chain. -/
inductive Level where
  /-- A chain of sums and differences. -/
  | sum
  /-- A chain of products and quotients. -/
  | product
  deriving DecidableEq, Repr

namespace Binary

/-- The symbol. -/
def symbol : Binary → String
  | equals => "="
  | add => "+"
  | sub => "-"
  | mul => "*"
  | div => "/"
  | pow => "^"

/-- The name in messages. -/
def name : Binary → String
  | equals => "EQU"
  | add => "ADD"
  | sub => "SUB"
  | mul => "MUL"
  | div => "DIV"
  | pow => "POW"

/-- How tightly the operator binds. -/
def prec : Binary → Nat
  | equals => 0
  | add | sub => 1
  | mul | div => 2
  | pow => 3

/-- The kind of chain that the operator continues. -/
def level : Binary → Option Level
  | add | sub => some .sum
  | mul | div => some .product
  | _ => none

/-- Whether the operands may change places. -/
def isCommutative : Binary → Bool
  | add | mul | equals => true
  | _ => false

/-- Whether the second operand counts with the opposite sign or exponent. -/
def isInverted : Binary → Bool
  | sub | div => true
  | _ => false

/-- The operator that undoes this one; those outside the chains undo themselves. -/
def flip : Binary → Binary
  | add => sub
  | sub => add
  | mul => div
  | div => mul
  | op => op

/-- All binary operators. -/
def all : List Binary := [equals, add, sub, mul, div, pow]

end Binary

namespace Func

/-- The symbol. -/
def symbol : Func → String
  | ln => "ln"
  | exp => "e^"
  | abs => "abs"
  | sin => "sin"
  | cos => "cos"
  | tan => "tan"
  | asin => "asin"
  | acos => "acos"
  | atan => "atan"
  | sinh => "sinh"
  | cosh => "cosh"
  | tanh => "tanh"
  | asinh => "asinh"
  | acosh => "acosh"
  | atanh => "atanh"

/-- The name in messages. -/
def name : Func → String
  | ln => "LN"
  | exp => "EXP"
  | abs => "ABS"
  | sin => "SIN"
  | cos => "COS"
  | tan => "TAN"
  | asin => "ASIN"
  | acos => "ACOS"
  | atan => "ATAN"
  | sinh => "SINH"
  | cosh => "COSH"
  | tanh => "TANH"
  | asinh => "ASINH"
  | acosh => "ACOSH"
  | atanh => "ATANH"

/-- The inverse function; the magnitude has none. -/
def inverse? : Func → Option Func
  | ln => some exp
  | exp => some ln
  | abs => none
  | sin => some asin
  | asin => some sin
  | cos => some acos
  | acos => some cos
  | tan => some atan
  | atan => some tan
  | sinh => some asinh
  | asinh => some sinh
  | cosh => some acosh
  | acosh => some cosh
  | tanh => some atanh
  | atanh => some tanh

/-- All named functions. -/
def all : List Func :=
  [ln, exp, abs, sin, cos, tan, asin, acos, atan, sinh, cosh, tanh, asinh, acosh, atanh]

/-- All named functions, those with the longest symbols first: the order in which a text
is searched for them. -/
def byLength : List Func :=
  [asinh, acosh, atanh, asin, acos, atan, sinh, cosh, tanh, abs, sin, cos, tan, ln, exp]

theorem inverse?_inverse? {f g : Func} (h : f.inverse? = some g) : g.inverse? = some f := by
  cases f <;> simp [inverse?] at h <;> subst h <;> rfl

end Func

/-- A symbol of expressions. -/
inductive Op where
  /-- The opening parenthesis. -/
  | opening
  /-- The closing parenthesis. -/
  | closing
  /-- An operator between two operands. -/
  | binary (op : Binary)
  /-- The factorial behind its operand. -/
  | factorial
  /-- A function in front of its operand. -/
  | function (f : Func)
  deriving DecidableEq, Repr

namespace Op

/-- The symbol. -/
def symbol : Op → String
  | opening => "("
  | closing => ")"
  | binary op => op.symbol
  | factorial => "!"
  | function f => f.symbol

/-- The name in messages. -/
def name : Op → String
  | opening => "OPR"
  | closing => "CPR"
  | binary op => op.name
  | factorial => "FAC"
  | function f => f.name

/-- How tightly the operator binds; the parentheses bind nothing. -/
def prec : Op → Int
  | opening | closing => -1
  | binary op => op.prec
  | factorial => 4
  | function _ => 5

/-- The number of operands. -/
def arity : Op → Nat
  | opening | closing => 0
  | binary _ => 2
  | factorial | function _ => 1

/-- The inverse of a function that has one. -/
def inverse? : Op → Option Op
  | function f => f.inverse?.map function
  | _ => none

/-- Whether the operator continues a chain of the given kind. -/
def continues (l : Level) : Op → Bool
  | binary op => op.level == some l
  | _ => false

/-- Whether the operands may change places. -/
def isCommutative : Op → Bool
  | binary op => op.isCommutative
  | _ => false

/-- Whether the operator is a named function. -/
def isFunction : Op → Bool
  | function _ => true
  | _ => false

/-- All symbols. -/
def all : List Op :=
  [opening, closing] ++ Binary.all.map binary ++ [factorial] ++ Func.all.map function

/-- The operator with a symbol. -/
def ofSymbol? (s : String) : Option Op := all.find? fun op => op.symbol == s

end Op

end SymbolicAlgebra
