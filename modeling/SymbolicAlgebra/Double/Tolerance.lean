import SymbolicAlgebra.Double.Arithmetic
import SymbolicAlgebra.Double.Decimal

/-!
# Approximate equality and powers of doubles

Two doubles count as equal when they differ by less than a fixed absolute bound or by
less than the ambient relative tolerance. The tolerance is a setting of the whole
calculation, so it is a class: it is given once, and every comparison below finds it.
-/

namespace SymbolicAlgebra

/-- The relative error below which two doubles count as equal. -/
class Tolerance where
  /-- The bound on the relative error. -/
  relative : Double

namespace Double

/-- The tolerance of a calculation that sets none. -/
@[reducible] def standardTolerance : Tolerance := ⟨1e-7⟩

/-- Doubles below this magnitude count as zero. -/
def epsilon : Double := 1e-9

/-- Whether two doubles are equal up to the tolerance. An infinity equals itself only,
and NaN nothing. -/
def approxEq [Tolerance] (a b : Double) : Bool :=
  if a.equals b then true
  else if !(a.isFinite && b.isFinite) then false
  else
    let d := (a - b).abs
    d < epsilon || d < Tolerance.relative * larger a.abs b.abs

/-- A double, or zero if it is below the zero bound. -/
def snap (v : Double) : Double := if v.abs < epsilon then 0 else v

/-- One third, as a double. -/
def oneThird : Double := 1 / 3

/-- `x ^ y` on the reals. A negative base takes an integer exponent, or one third; zero to
a negative power is infinite. -/
def power [Tolerance] (x y : Double) : Double :=
  if x < 0 && !isIntegral y then
    if approxEq y oneThird then -((-x).pow oneThird) else notANumber
  else if x.isZero && y < 0 then infinity false
  else x.pow y

/-- The circle constant. -/
def pi : Double := 3.141592653589793

/-- The base of the natural logarithm. -/
def e : Double := 2.718281828459045

/-- The golden ratio. -/
def phi : Double := ofFloat ((1 + Float.sqrt 5) / 2)

/-- The doubles that have a name in expressions, with their names. -/
def named : List (Double × String) := [(pi, "π"), (e, "e"), (phi, "φ")]

/-- Whether a double is one of those with a name, up to the tolerance. -/
def isNamed [Tolerance] (v : Double) : Bool := named.any fun c => approxEq v c.1

/-- The text of the base of a power: its name if it has one. -/
def baseText [Tolerance] (v : Double) : String :=
  match named.find? fun c => approxEq v c.1 with
  | some c => c.2
  | none => text v

end Double

end SymbolicAlgebra
