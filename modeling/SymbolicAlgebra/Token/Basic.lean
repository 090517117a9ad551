import SymbolicAlgebra.Op
import SymbolicAlgebra.Number.Basic

/-!
# Tokens

The words of an expression: numerals, variables, named constants, operators and the minus
sign in front of an operand. A token keeps its characters and the position where they
start, so the tokens of a text spell the text again.
-/

namespace SymbolicAlgebra

/-- A constant with a name of one letter. -/
inductive NamedConstant where
  /-- `e` -/
  | e
  /-- `π` -/
  | pi
  /-- `φ` -/
  | phi
  /-- `i` -/
  | i
  deriving DecidableEq, Repr

namespace NamedConstant

/-- The letter. -/
def letter : NamedConstant → Char
  | e => 'e'
  | pi => 'π'
  | phi => 'φ'
  | i => 'i'

/-- The number. -/
def number : NamedConstant → Number
  | e => .e
  | pi => .pi
  | phi => .phi
  | i => .i

/-- The constant with a letter. -/
def ofLetter? (c : Char) : Option NamedConstant :=
  [e, pi, phi, i].find? fun k => k.letter == c

end NamedConstant

/-- What a token stands for. -/
inductive Token.Kind where
  /-- A numeral, with its number. -/
  | numeral (z : Number)
  /-- A variable. -/
  | letter
  /-- A named constant. -/
  | constant (c : NamedConstant)
  /-- An operator or parenthesis. -/
  | op (op : Op)
  /-- A minus sign in front of an operand. -/
  | negation

/-- A token. -/
structure Token where
  /-- What it stands for. -/
  kind : Token.Kind
  /-- Its characters. -/
  text : List Char
  /-- Where they start. -/
  pos : Nat

namespace Token

/-- The text as a string. -/
def spelling (t : Token) : String := String.ofList t.text

/-- Whether an operand is complete after the token. What follows then is an operator, or a
product without a sign. -/
def endsTerm (t : Token) : Bool :=
  match t.kind with
  | .numeral _ | .letter | .constant _ | .op .closing | .op .factorial => true
  | _ => false

/-- The function that the token names. -/
def function? (t : Token) : Option Func :=
  match t.kind with
  | .op (.function f) => some f
  | _ => none

/-- Whether two tokens name a function and its inverse. -/
def undoes (t s : Token) : Bool :=
  match t.function?, s.function? with
  | some f, some g => f.inverse? == some g
  | _, _ => false

end Token

end SymbolicAlgebra
