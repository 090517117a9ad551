import SymbolicAlgebra.Op
import SymbolicAlgebra.Double.Tolerance
import SymbolicAlgebra.Fraction

/-!
# Terms

The expressions of a general computer algebra system, as far as they are exchanged with
it: sums and products of any number of terms, powers, equations and functions over exact
rationals, doubles, symbols and named atoms. There is no difference and no quotient; those
are sums with a factor of minus one and products with an exponent of minus one.

`Term.plus`, `Term.times` and their neighbours build terms without evaluating anything,
except that NaN absorbs what follows it. An equation is no quantity: it can be a side of
another equation or the argument of a function, but no operand of arithmetic, so
`Term.ofBinary`, `Term.ofSummands`, `Term.ofFactors` and `Term.ofPower` refuse it there.
-/

namespace SymbolicAlgebra

/-- Constants without arguments. -/
inductive Atom where
  /-- The circle constant. -/
  | pi
  /-- The base of the natural logarithm. -/
  | e
  /-- The golden ratio. -/
  | goldenRatio
  /-- The imaginary unit. -/
  | imaginaryUnit
  /-- The positive infinity. -/
  | infinity
  /-- The negative infinity. -/
  | negativeInfinity
  /-- Not a number. -/
  | nan
  /-- The infinity without a sign. -/
  | complexInfinity
  /-- The limit of the harmonic sums less the logarithm. -/
  | eulerGamma
  /-- The truth value. -/
  | truth
  deriving DecidableEq, Repr

/-- A term. -/
inductive Term where
  /-- A rational number. -/
  | rational (q : Fraction)
  /-- A double. -/
  | float (v : Double)
  /-- A symbol. -/
  | symbol (name : String)
  /-- A constant. -/
  | atom (a : Atom)
  /-- A sum. -/
  | sum (ts : List Term)
  /-- A product. -/
  | product (ts : List Term)
  /-- A power. -/
  | power (base exponent : Term)
  /-- An equation. -/
  | equation (l r : Term)
  /-- A named function that expressions have too. -/
  | function (f : Func) (t : Term)
  /-- The factorial. -/
  | factorial (t : Term)
  /-- A function that expressions do not have. -/
  | other (name : String) (t : Term)

namespace Atom

/-- The name of an atom. -/
def text : Atom → String
  | pi => "pi"
  | e => "E"
  | goldenRatio => "GoldenRatio"
  | imaginaryUnit => "I"
  | infinity => "oo"
  | negativeInfinity => "-oo"
  | nan => "nan"
  | complexInfinity => "zoo"
  | eulerGamma => "EulerGamma"
  | truth => "True"

/-- The kind of an atom, as far as it differs from its name. -/
def kind : Atom → String
  | complexInfinity => "ComplexInfinity"
  | truth => "BooleanTrue"
  | a => a.text

end Atom

namespace Func

/-- The name of a function in terms. -/
def termName : Func → String
  | ln => "log"
  | exp => "exp"
  | abs => "Abs"
  | f => f.symbol

/-- The function with a name in terms. -/
def ofTermName? (s : String) : Option Func := all.find? fun f => f.termName == s

end Func

namespace Term

/-- An integer as a term. -/
def ofInt (n : Int) : Term := rational (.ofInt n)

/-- A quotient of integers as a term, in lowest terms. Over zero stands the infinity without a
sign, and zero over zero is not a number. -/
def ofRatio (n d : Int) : Term :=
  if h : d = 0 then atom (if n = 0 then .nan else .complexInfinity)
  else rational (Fraction.lowest n d h)

/-- A double as a term: an integer if it is one, and the atoms for infinities and NaN. -/
def ofDouble (v : Double) : Term :=
  match v.content with
  | .nan _ => atom .nan
  | .infinite negative => atom (if negative then .negativeInfinity else .infinity)
  | .finite .. => float v

/-- A double as an argument of a constant: an integer if it is one. -/
def ofArgument (v : Double) : Term :=
  if Double.isIntegral v then ofInt (Double.toInt v) else ofDouble v

/-- Whether a term is NaN. -/
def isNaN : Term → Bool
  | atom .nan => true
  | _ => false

/-- Whether a term is an equation. -/
def isEquation : Term → Bool
  | equation .. => true
  | _ => false

/-- The operands of a sum, product or power, none of which may be an equation. -/
def operands (ts : List Term) : Calc (List Term) :=
  if ts.any isEquation then throw .equationOperand else pure ts

/-- The sum of the given terms, which is the term itself if there is one only. -/
def ofSummands (ts : List Term) : Calc Term := do
  match ← operands ts with
  | [] => pure (ofInt 0)
  | [t] => pure t
  | ts => pure (sum ts)

/-- The product of the given terms, which is the term itself if there is one only. -/
def ofFactors (ts : List Term) : Calc Term := do
  match ← operands ts with
  | [] => pure (ofInt 1)
  | [t] => pure t
  | ts => pure (product ts)

/-- The power of the given terms. -/
def ofPower (base exponent : Term) : Calc Term := do
  let _ ← operands [base, exponent]
  pure (power base exponent)

/-- The sum of two terms. -/
def plus (a b : Term) : Term := if a.isNaN then a else sum [a, b]

/-- The product of two terms. -/
def times (a b : Term) : Term := if a.isNaN then a else product [a, b]

/-- The opposite of a term: minus one is the first factor. -/
def opposite : Term → Term
  | product ts => product (ofInt (-1) :: ts)
  | atom .nan => atom .nan
  | t => product [ofInt (-1), t]

/-- The difference of two terms. -/
def minus (a b : Term) : Term := if a.isNaN then a else sum [a, opposite b]

/-- The quotient of two terms. -/
def dividedBy (a b : Term) : Term :=
  if a.isNaN then a else product [a, power b (ofInt (-1))]

/-! ## Plain text -/

/-- The text of a fraction: the denominator is left out if it is one. -/
def fractionText (q : Fraction) : String :=
  if q.den = 1 then toString q.num else toString q.num ++ "/" ++ toString q.den

/-- A name with arguments behind it in parentheses. -/
def call (name : String) (arguments : List String) : String :=
  name ++ "(" ++ ", ".intercalate arguments ++ ")"

mutual

/-- The plain text of a term, which shows how it is built: the name of its head, and its parts as
arguments. -/
def plainText : Term → String
  | rational q => fractionText q
  | float v => Double.general 15 v
  | symbol name => name
  | atom a => a.text
  | sum ts => call "Add" (plainTexts ts)
  | product ts => call "Mul" (plainTexts ts)
  | power a b => call "Pow" [plainText a, plainText b]
  | equation a b => call "Eq" [plainText a, plainText b]
  | function f t => call f.termName [plainText t]
  | factorial t => call "factorial" [plainText t]
  | other name t => call name [plainText t]

/-- The plain texts of several terms. -/
def plainTexts : List Term → List String
  | [] => []
  | t :: ts => plainText t :: plainTexts ts

end

end Term

end SymbolicAlgebra
