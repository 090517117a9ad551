import SymbolicAlgebra.Text.Printable

/-!
# Quoted text

A text inside a message stands in quotes: single ones, or double ones when it holds a
single quote and no double one. The quote in use and the backslash take a backslash in
front, line ends and tabs are written as `\n`, `\r` and `\t`, and any other character that
is not printable is written as its code point in two, four or eight hexadecimal digits.
-/

namespace SymbolicAlgebra.Text

/-- The quote `'`. -/
def singleQuote : Char := '\x27'

/-- The quote `"`. -/
def doubleQuote : Char := '\x22'

/-- The last `width` hexadecimal digits of a number. -/
def hexDigits : Nat → Nat → List Char
  | 0, _ => []
  | width + 1, n => hexDigits width (n / 16) ++ [Nat.digitChar (n % 16)]

/-- The escape of a character by its code point. -/
def escapeCode (c : Char) : List Char :=
  let n := c.toNat
  if n < 0x100 then '\\' :: 'x' :: hexDigits 2 n
  else if n < 0x10000 then '\\' :: 'u' :: hexDigits 4 n
  else '\\' :: 'U' :: hexDigits 8 n

/-- A character as it stands between quotes. -/
def escape (quote c : Char) : List Char :=
  if c = quote || c = '\\' then ['\\', c]
  else if c = '\n' then ['\\', 'n']
  else if c = '\r' then ['\\', 'r']
  else if c = '\t' then ['\\', 't']
  else if isPrintable c then [c]
  else escapeCode c

/-- The quote that a text is put in. -/
def quoteFor (s : List Char) : Char :=
  if s.contains singleQuote && !s.contains doubleQuote then doubleQuote else singleQuote

/-- A text in quotes. -/
def quoted (s : List Char) : List Char :=
  let quote := quoteFor s
  quote :: s.flatMap (escape quote) ++ [quote]

/-- A string in quotes. -/
def quote (s : String) : String := String.ofList (quoted s.toList)

end SymbolicAlgebra.Text
