import SymbolicAlgebra.Expr.Basic
import SymbolicAlgebra.Text.Characters

/-!
# Display of expressions

`Expr.text` writes an expression as text that reads back, with as few parentheses as the
operators need. Leaves complicate this, because their texts hold operators of their own:
`3/2` as an operand binds like a quotient and `1 + 2i` like a sum. `textPrec` therefore
reads off the text of a leaf how tightly it binds.

`Expr.describe` is the form of a tree in messages, with every part in parentheses.
-/

namespace SymbolicAlgebra

/-- How a text is laid out. -/
structure Layout where
  /-- Whether blanks stand around products, quotients and powers too. -/
  spaces : Bool
  deriving DecidableEq, Repr

namespace Expr

/-- The precedence of what needs no parentheses anywhere. -/
def atomPrec : Nat := 9

/-- Whether a text starts with a minus sign. -/
def startsNegative (s : String) : Bool := s.toList.head? == some '-'

/-- Whether a text has more than one character. -/
def isLong (s : List Char) : Bool := 1 < s.length

/-- How tightly the text of a leaf binds inside an expression: with a blank it is a sum,
with a sign, a product or quotient, or letters next to other characters it is a product,
with a power or several letters it is a power. -/
def textPrec (text : String) : Nat :=
  let s := text.toList
  if s.contains ' ' then 1
  else if s.head? == some '-' || s.contains '/' || s.contains '*' ||
      (isLong s && s.any Text.isLetter && !Text.isWord s) then 2
  else if s.contains '^' || (isLong s && Text.isWord s) then 3
  else atomPrec

/-- How tightly an expression with the given text binds. -/
def prec (t : Expr) (text : String) : Nat :=
  match t with
  | absent => atomPrec
  | leaf _ => textPrec text
  | node op _ _ => if op.isFunction then atomPrec else op.prec.toNat

/-- A text in parentheses. -/
def parenthesized (s : String) : String := "(" ++ s ++ ")"

/-- A text in parentheses, if it needs them. -/
def wrap (needed : Bool) (s : String) : String := if needed then parenthesized s else s

/-- Whether a coefficient can stand in front of a variable as it is. -/
def leadsPlainly (s : String) : Bool :=
  textPrec s == atomPrec ||
    (startsNegative s && textPrec (String.ofList (s.toList.drop 1)) == atomPrec)

/-- An exact coefficient in lowest terms in front of a variable, which stands between
numerator and denominator. -/
def coefficientText (r : Fraction) (core : String) : String :=
  let factor := if r.num = 1 then "" else if r.num = -1 then "-" else toString r.num
  if r.den = 1 then factor ++ core else factor ++ core ++ "/" ++ toString r.den

/-- The text of an operator between the texts of its operands. -/
def binaryText (layout : Layout) (op : Binary) (l r : Expr) (ls rs : String) : String :=
  let lp := l.prec ls
  let rp := r.prec rs
  let lparen := lp < op.prec || (op == .pow && lp ≤ 3)
  let rparen := rp < op.prec || (rp == op.prec && op.isInverted) ||
    (op != .equals && startsNegative rs)
  let sep := if op.prec < 2 || layout.spaces then " " ++ op.symbol ++ " " else op.symbol
  wrap lparen ls ++ sep ++ wrap rparen rs

variable [Tolerance]

/-- The text of a variable to a power; the power is in parentheses unless it is an integer
or a double. -/
def powerText (name : String) (power : Value) : Calc String := do
  if ← power.same .one then pure name
  else
    let bare ← match power with
      | .plain (.approx _) => pure true
      | _ => power.isInt
    return name ++ "^" ++ wrap (!bare) (← power.text)

/-- The text of a coefficient that is not exact in front of a variable. -/
def leadText (mult : Number) (core : String) : Calc String := do
  let s ← mult.text
  pure (wrap (!leadsPlainly s) s ++ core)

/-- The text of a monomial. -/
def monomialText (name : String) (mult : Number) (power : Value) : Calc String := do
  let core ← powerText name power
  if ← mult.same .one then pure core
  else if ← mult.same (.ofInt (-1)) then pure ("-" ++ core)
  else
    let exact ←
      if ← mult.isReal then
        match mult.re with
        | .plain (.exact q) => match ← Scalar.reduce q with
          | .exact r => pure (some r)
          | .approx _ => pure none
        | _ => pure none
      else pure none
    match exact with
    | some r => pure (coefficientText r core)
    | none => leadText mult core

/-- The text of a leaf. -/
def leafText : Leaf → Calc String
  | .number z => z.text
  | .monomial name mult power => monomialText name mult power

/-- Whether an expression is a product by minus one, which is written as a sign. -/
def isNegation (op : Binary) (l : Expr) : Calc Bool :=
  if op = .mul then l.isNegOne else pure false

/-- The text of an expression. -/
def text (layout : Layout) : Expr → Calc String
  | absent => throw .noOperand
  | leaf a => leafText a
  | node (.binary op) l r => do
    let ls ← text layout l
    let rs ← text layout r
    if ← isNegation op l then
      pure ("-" ++ wrap (r.prec rs < 2 || startsNegative rs) rs)
    else pure (binaryText layout op l r ls rs)
  | node .factorial t _ => do
    let s ← text layout t
    pure (wrap (t.prec s < atomPrec) s ++ "!")
  | node (.function f) _ t => do
    let s ← text layout t
    pure (f.symbol ++ parenthesized s)
  | node _ _ _ => throw .noOperation

/-- The form of a leaf in messages. -/
def describeLeaf : Leaf → Calc String
  | .number z => return "(\x27#\x27, " ++ (← z.describe) ++ ")"
  | .monomial name mult power =>
    return "(\x27@\x27, " ++ Text.quote name ++ ", " ++ (← mult.describe) ++ ", " ++
      (← power.describe) ++ ")"

/-- The form of an expression in messages. -/
def describe : Expr → Calc String
  | absent => pure "None"
  | leaf a => describeLeaf a
  | node op l r =>
    return "(Op." ++ op.name ++ ", " ++ (← describe l) ++ ", " ++ (← describe r) ++ ")"

end Expr

end SymbolicAlgebra
