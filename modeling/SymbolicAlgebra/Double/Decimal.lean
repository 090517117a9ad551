import SymbolicAlgebra.Double.Arithmetic

/-!
# Decimal text of doubles

A finite double is shown by a fixed number of significant digits, chosen exactly: the
decoded number is an integer quotient, and its leading digits are that quotient, scaled
by a power of ten and rounded with ties to even. Trailing zeros are dropped, so the
digits are a `Decimal`: a sign, the digits themselves and the power of ten of the first.

Two texts are made of the same `Decimal`:

* `Decimal.positional` writes a point and zeros only, whatever the exponent;
* `Decimal.general` writes an exponent when the first digit stands far from the point.

`Double.text` is the text of a number everywhere in displayed expressions. It never shows
an exponent, because `e` would read back as a constant: `Double.writeOut` takes the general text
apart again where it has one. What comes out is the positional text.

The other direction, `Double.ofDecimal`, rounds a coefficient and a power of ten to the
nearest double.
-/

namespace SymbolicAlgebra

/-- A decimal number in scientific form: `d.ddd * 10 ^ exponent`. -/
structure Decimal where
  /-- Whether a minus sign stands in front. -/
  negative : Bool
  /-- The significant digits, without trailing zeros. -/
  digits : List Char
  /-- The power of ten of the first digit. -/
  exponent : Int
  deriving DecidableEq, Repr

namespace Decimal

/-- The decimal digits of a natural number. -/
def digitsOf (n : Nat) : List Char := Nat.toDigits 10 n

/-- The power of ten of the leading digit of the positive quotient `n / d`. Below one it
is counted on the reciprocal: the first power of ten that reaches `d / n` has as many
zeros as the number before its ceiling has digits. -/
def leading (n d : Nat) : Int :=
  if d ≤ n then (digitsOf (n / d)).length - 1
  else -(digitsOf ((d - 1) / n)).length

/-- `n / d * 10 ^ shift`, rounded to the nearest integer, a tie to even. -/
def roundShifted (n d : Nat) (shift : Int) : Nat :=
  if 0 ≤ shift then Double.roundQuotient (n * Nat.pow 10 shift.toNat) d
  else Double.roundQuotient n (d * Nat.pow 10 (-shift).toNat)

/-- Digits without the zeros at their end; at least one digit stays. -/
def trim (digits : List Char) : List Char :=
  match (digits.reverse.dropWhile (· == '0')).reverse with
  | [] => ['0']
  | kept => kept

/-- The `precision` leading digits of `± n / d`. Rounding up to a power of ten moves the
first digit one place to the left. -/
def ofQuotient (precision : Nat) (negative : Bool) (n d : Nat) : Decimal :=
  if n = 0 then ⟨negative, ['0'], 0⟩
  else
    let x := leading n d
    let coefficient := roundShifted n d ((precision : Int) - 1 - x)
    let digits := digitsOf coefficient
    ⟨negative, trim digits, if digits.length > precision then x + 1 else x⟩

/-- The `precision` leading digits of a finite double. -/
def ofFinite (precision : Nat) (negative : Bool) (mantissa : Nat) (exponent : Int) : Decimal :=
  let (n, d) := Double.scale mantissa exponent
  ofQuotient precision negative n d

/-- The text of the sign. -/
def signText (negative : Bool) : List Char := if negative then ['-'] else []

/-- The digits with a point and zeros around them, and no exponent. -/
def positional (t : Decimal) : List Char :=
  let point := t.exponent + 1
  signText t.negative ++
    if point ≤ 0 then '0' :: '.' :: List.replicate (-point).toNat '0' ++ t.digits
    else
      let whole := point.toNat
      if t.digits.length ≤ whole then t.digits ++ List.replicate (whole - t.digits.length) '0'
      else t.digits.take whole ++ '.' :: t.digits.drop whole

/-- The exponent as text: a sign and at least two digits. -/
def exponentText (exponent : Int) : List Char :=
  let digits := digitsOf exponent.natAbs
  'e' :: (if exponent < 0 then '-' else '+') ::
    (if digits.length < 2 then '0' :: digits else digits)

/-- The digits with one in front of the point, and the exponent. -/
def scientific (t : Decimal) : List Char :=
  let mantissa := match t.digits with
    | first :: second :: rest => first :: '.' :: second :: rest
    | short => short
  signText t.negative ++ mantissa ++ exponentText t.exponent

/-- Scientific when the first digit stands more than four places behind the point or
past the `precision` digits before it, and positional in between. -/
def general (precision : Nat) (t : Decimal) : List Char :=
  if t.exponent < -4 || (precision : Int) ≤ t.exponent then t.scientific else t.positional

end Decimal

namespace Double

/-- A double with `precision` significant digits in general form. -/
def general (precision : Nat) (v : Double) : String :=
  String.ofList <| match v.content with
  | .nan _ => ['n', 'a', 'n']
  | .infinite negative => Decimal.signText negative ++ ['i', 'n', 'f']
  | .finite negative m e => (Decimal.ofFinite precision negative m e).general precision

/-- The significant digits of a number in displayed text. -/
def textPrecision : Nat := 15

/-- Integers below this magnitude are displayed in full. -/
def integralLimit : Nat := Nat.pow 10 16

/-- The number that ASCII digits spell, if there is at least one and nothing else. -/
def natOf? (s : List Char) : Option Nat :=
  if s.isEmpty || !s.all Char.isDigit then none
  else some (s.foldl (fun n c => 10 * n + (c.toNat - '0'.toNat)) 0)

/-- The integer that ASCII digits spell after an optional sign. -/
def intOf? : List Char → Option Int
  | '-' :: s => (natOf? s).map fun n => -(n : Int)
  | '+' :: s => (natOf? s).map Int.ofNat
  | s => (natOf? s).map Int.ofNat

/-- A decimal text with its exponent written out. The sign is taken off and put back, the
exponent is counted on to the digits in front of the point, and the point is put where the sum
says: in front of the digits, behind them, or among them. A text without an exponent stays. -/
def writeOut (text : List Char) : List Char :=
  if text.contains 'e' then
    let mantissa := text.takeWhile (· != 'e')
    let exponent := (intOf? ((text.dropWhile (· != 'e')).drop 1)).getD 0
    let sign := Decimal.signText (mantissa.head? == some '-')
    let unsigned := mantissa.dropWhile (· == '-')
    let whole := unsigned.takeWhile (· != '.')
    let digits := whole ++ (unsigned.dropWhile (· != '.')).drop 1
    let point := whole.length + exponent
    if point ≤ 0 then sign ++ '0' :: '.' :: List.replicate (-point).toNat '0' ++ digits
    else if digits.length ≤ point then
      sign ++ digits ++ List.replicate (point - digits.length).toNat '0'
    else sign ++ digits.take point.toNat ++ '.' :: digits.drop point.toNat
  else text

/-- The text of a double in an expression: an integer below the limit in full, any other
number in general form, with its exponent written out. -/
def textDigits (v : Double) : List Char :=
  match v.content with
  | .nan _ => ['n', 'a', 'n']
  | .infinite negative => Decimal.signText negative ++ ['i', 'n', 'f']
  | .finite negative m e =>
    let (n, d) := scale m e
    if n % d = 0 && n / d < integralLimit then
      Decimal.signText (negative && n / d != 0) ++ Decimal.digitsOf (n / d)
    else writeOut ((Decimal.ofFinite textPrecision negative m e).general textPrecision)

/-- The text of a double in an expression, as a string. -/
def text (v : Double) : String := String.ofList (textDigits v)

/-! ## Reading -/

/-- The double nearest to `± coefficient * 10 ^ exponent`, infinite when there is none. -/
def ofDecimal (negative : Bool) (coefficient : Nat) (exponent : Int) : Double :=
  (if 0 ≤ exponent then quotient? negative (coefficient * Nat.pow 10 exponent.toNat) 1
    else quotient? negative coefficient (Nat.pow 10 (-exponent).toNat)).getD (infinity negative)

/-- A number without a sign: digits, a point among them, and an exponent. -/
def unsigned? (negative : Bool) (s : List Char) : Option Double :=
  let word := s.map Char.toLower
  if word = "inf".toList || word = "infinity".toList then some (infinity negative)
  else if word = "nan".toList then some (if negative then -notANumber else notANumber)
  else do
    let mantissa := s.takeWhile fun c => c != 'e' && c != 'E'
    let whole := mantissa.takeWhile (· != '.')
    let fraction := (mantissa.dropWhile (· != '.')).drop 1
    let coefficient ← natOf? (whole ++ fraction)
    let exponent ← match s.drop mantissa.length with
      | [] => some 0
      | _ :: digits => intOf? digits
    some (ofDecimal negative coefficient (exponent - fraction.length))

/-- Read decimal text, `inf`, `infinity` or `nan` in letters of either case, with an optional
sign. -/
def ofText? (s : String) : Option Double :=
  match s.toList with
  | '-' :: digits => unsigned? true digits
  | '+' :: digits => unsigned? false digits
  | digits => unsigned? false digits

end Double

end SymbolicAlgebra
