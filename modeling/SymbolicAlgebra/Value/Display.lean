import SymbolicAlgebra.Value.Basic
import SymbolicAlgebra.Text.Characters
import SymbolicAlgebra.Text.Quoted

/-!
# Display of values

The text of a value as it stands in an expression, and so as it reads back: a fraction in
lowest terms, a double without an exponent, a constant behind its multiplier. A
multiplier of one is left out and minus one is a sign; a star stands between multiplier
and constant when the constant starts with a digit.
-/

namespace SymbolicAlgebra

namespace Fraction

/-- A fraction in lowest terms as text: the denominator is left out if it is one. -/
def lowestText (q : Fraction) : String :=
  if q.den = 1 then toString q.num else toString q.num ++ "/" ++ toString q.den

end Fraction

namespace Scalar

/-- The text of a scalar. A fraction too wide for lowest terms is shown as a double. -/
def text : Scalar → Calc String
  | exact q => do
    match ← reduce q with
    | exact r => pure r.lowestText
    | approx v => pure (Double.text v)
  | approx v => pure (Double.text v)

end Scalar

namespace Constant

/-- The text of a constant. -/
def text [Tolerance] : Constant → String
  | power base exponent =>
    if exponent.equals 1 then Double.baseText base
    else Double.baseText base ++ "^" ++ Double.text exponent
  | log a => "ln(" ++ Double.text a ++ ")"
  | exp a => if a.equals 1 then "e" else "e^" ++ Double.text a

end Constant

namespace Value

/-- Whether a text starts with a digit. -/
def startsWithDigit (s : String) : Bool :=
  match s.toList with
  | c :: _ => Text.isDigit c
  | [] => false

variable [Tolerance]

/-- The text of a multiple of a constant. A fractional multiplier is split around it:
`3π/2`. -/
def symbolicText (m : Scalar) (core : String) : Calc String := do
  if ← m.same .one then pure core
  else if ← m.same (.ofInt (-1)) then pure ("-" ++ core)
  else match m with
    | .exact q =>
      if q.isInt then
        let factor ← m.text
        pure (if startsWithDigit core then factor ++ "*" ++ core else factor ++ core)
      else
        let r ← Scalar.reduceExact q "num"
        let factor :=
          if r.num = 1 then ""
          else if r.num = -1 then "-"
          else if startsWithDigit core then toString r.num ++ "*"
          else toString r.num
        pure (factor ++ core ++ "/" ++ toString r.den)
    | .approx v =>
      let factor := Double.text v
      pure (if startsWithDigit core then factor ++ "*" ++ core else factor ++ core)

/-- The text of a value. -/
def text : Value → Calc String
  | plain s => s.text
  | symbolic m c => symbolicText m c.text

/-- The name of a value's form. -/
def form : Value → String
  | plain (.exact _) => "Rational"
  | plain (.approx _) => "Float"
  | symbolic .. => "SymConst"

/-- The description of a value in messages: its form and its quoted text. -/
def describe (v : Value) : Calc String :=
  return v.form ++ " (" ++ Text.quote (← v.text) ++ ")"

end Value

end SymbolicAlgebra
