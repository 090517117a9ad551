import SymbolicAlgebra.Number.Polar
import SymbolicAlgebra.Value.Display

/-!
# Display of numbers

A complex number is shown as a sum of its parts, `1/2 - 3i`; a part that is zero is left
out. In polar form the length stands before an exponential with the argument.
-/

namespace SymbolicAlgebra

namespace Number

variable [Tolerance]

/-- The text of the imaginary part without its sign. An infinite factor keeps a star, or
its text and the unit would read as one word. -/
def imaginaryText (im : Value) : Calc String := do
  if ← im.same .one then pure "i"
  else
    let s ← im.text
    match im with
    | .plain (.approx v) => pure (if v.isFinite then s ++ "i" else s ++ "*i")
    | _ => pure (s ++ "i")

/-- The text of a number. -/
def text (z : Number) : Calc String := do
  if ← z.im.isZero then z.re.text
  else
    let im ← imaginaryText (← z.im.abs)
    if ← z.re.isZero then
      pure (if 0 < (← z.im.sgn) then im else "-" ++ im)
    else
      pure ((← z.re.text) ++ (if 0 < (← z.im.sgn) then " + " else " - ") ++ im)

/-- The description of a number in messages. -/
def describe (z : Number) : Calc String :=
  return "Number (" ++ Text.quote (← z.text) ++ ")"

/-- The text of a number in polar form. -/
def polarText (z : Number) : Calc String := do
  let length := Double.text (← z.length)
  let argument ← z.argument
  if ← argument.isZero then pure length
  else
    let factor := if length = "1" then "" else length ++ "*"
    pure (factor ++ "e^(" ++ (← argument.text) ++ "*i)")

end Number

end SymbolicAlgebra
