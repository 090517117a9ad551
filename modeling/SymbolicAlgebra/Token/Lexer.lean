import SymbolicAlgebra.Token.Basic
import SymbolicAlgebra.Text.Characters

/-!
# From text to tokens

Blanks are taken out of the text first; they separate nothing. Then the text is read from
left to right:

* digits and points make a numeral, as many as there are;
* a minus sign is a subtraction after a complete operand, part of the numeral that follows
  it directly, and a negation otherwise;
* a letter starts the longest function name that the text goes on with, or is a named
  constant, or a variable.

With `peephole` set, a function name that undoes the one before it removes both. Each
token is found by `Token.next` from the characters that are left, and `Token.scan` goes on
behind it.
-/

namespace SymbolicAlgebra

/-- How texts are read. -/
structure Reading where
  /-- Whether decimal numerals are exact fractions; else they are doubles. -/
  exact : Bool
  /-- Whether a function directly before its inverse vanishes with it. -/
  peephole : Bool
  deriving DecidableEq, Repr

namespace Reading

/-- Exact numerals, and inverse functions cancel. -/
def standard : Reading := ⟨true, true⟩

end Reading

namespace Token

/-- Whether a character may stand in a numeral. -/
def isNumeralChar (c : Char) : Bool := Text.isDigit c || c == '.'

/-- The digits in front of the point of a numeral. -/
def wholePart (text : List Char) : List Char := text.takeWhile (· != '.')

/-- The digits behind the point of a numeral. -/
def fractionPart (text : List Char) : List Char := (text.dropWhile (· != '.')).drop 1

/-- The exact value of a numeral: its digits over a power of ten. Numerals of any length have
one. A system that limits how many digits it converts, as to 4300, refuses longer ones as it
refuses a digit without a place value; that limit is not part of this. -/
def exactNumeral (text : List Char) : Calc Scalar := do
  let some whole := Text.natOfDigits? (wholePart text)
    | throw (.wholeNumeral (String.ofList (wholePart text)))
  let some fraction := Text.natOfDigits? (fractionPart text)
    | throw (.wholeNumeral (String.ofList (fractionPart text)))
  let den := Nat.pow 10 (fractionPart text).length
  Scalar.ofQuotient (whole * den + fraction : Nat) (den : Nat)

/-- The double nearest to a numeral. -/
def doubleNumeral (text : List Char) : Calc Scalar :=
  match Text.natOfDigits? (wholePart text ++ fractionPart text) with
  | some n => pure (.ofDouble (Double.ofDecimal false n (-(fractionPart text).length)))
  | none => throw (.decimalNumeral (String.ofList text))

/-- The number that a numeral spells; it has a digit and at most one point. -/
def numeralValue (reading : Reading) (text : List Char) (pos : Nat) : Calc Scalar :=
  if 1 < text.count '.' || text == ['.'] then
    throw (.malformed (.numeral (String.ofList text) pos))
  else if reading.exact then exactNumeral text
  else doubleNumeral text

/-- The function whose symbol a text goes on with, a longer symbol before a shorter. -/
def functionAt? (s : List Char) : Option Func :=
  Func.byLength.find? fun f => f.symbol.toList.isPrefixOf s

/-- The operator of one sign. -/
def signOp? (c : Char) : Option Op :=
  ([.binary .add, .binary .sub, .binary .mul, .binary .div, .binary .pow, .factorial, .opening,
    .closing, .binary .equals] : List Op).find? fun op => op.symbol == String.singleton c

/-- Whether a variable is allowed; without a list of names all are. -/
def isAllowed (allowed : Option (List String)) (name : String) : Bool :=
  match allowed with
  | none => true
  | some names => names.contains name

/-- A numeral that starts here. -/
def nextNumeral (reading : Reading) (pos : Nat) (s : List Char) : Calc Token := do
  let text := s.takeWhile isNumeralChar
  let v ← numeralValue reading text pos
  pure ⟨.numeral (.ofValue (.plain v)), text, pos⟩

/-- A minus sign that no complete operand stands before. -/
def nextMinus (reading : Reading) (pos : Nat) (rest : List Char) : Calc Token := do
  let text := rest.takeWhile isNumeralChar
  if text.isEmpty then pure ⟨.negation, ['-'], pos⟩
  else
    let v ← numeralValue reading text pos
    pure ⟨.numeral (.ofValue (.plain v.neg)), '-' :: text, pos⟩

/-- A function, constant or variable that starts with a letter. -/
def nextWord (allowed : Option (List String)) (pos : Nat) (c : Char) (rest : List Char) :
    Calc Token :=
  match functionAt? (c :: rest) with
  | some f => pure ⟨.op (.function f), f.symbol.toList, pos⟩
  | none =>
    match NamedConstant.ofLetter? c with
    | some k => pure ⟨.constant k, [c], pos⟩
    | none =>
      if isAllowed allowed (String.singleton c) then pure ⟨.letter, [c], pos⟩
      else throw (.variableNotAllowed (String.singleton c))

/-- The token that the text `c :: rest` starts with. `continues` tells whether a complete
operand stands before it, and `depth` how many parentheses are open. -/
def next (reading : Reading) (allowed : Option (List String)) (continues : Bool)
    (pos depth : Nat) (c : Char) (rest : List Char) : Calc Token :=
  if c = '-' && !continues then nextMinus reading pos rest
  else if isNumeralChar c then nextNumeral reading pos (c :: rest)
  else match signOp? c with
    | some op =>
      if op = .closing && depth = 0 then throw (.malformed (.unbalanced pos))
      else pure ⟨.op op, [c], pos⟩
    | none =>
      if Text.isLetter c then nextWord allowed pos c rest
      else throw (.malformed (.character c pos))

/-- How many parentheses are open after a token. -/
def depthAfter (depth : Nat) (t : Token) : Nat :=
  match t.kind with
  | .op .opening => depth + 1
  | .op .closing => depth - 1
  | _ => depth

/-- Put a token behind others, the last of which comes first in the list. With `peephole`,
a function that undoes the last one removes it instead. -/
def push (peephole : Bool) (t : Token) : List Token → List Token
  | [] => [t]
  | last :: before => if peephole && last.undoes t then before else t :: last :: before

/-- Whether a complete operand stands before the next token. -/
def continues : List Token → Bool
  | [] => false
  | last :: _ => last.endsTerm

/-- Read the tokens of a text behind those that are read already, the last of them
first. -/
def scan (reading : Reading) (allowed : Option (List String)) (read : List Token)
    (pos depth : Nat) : List Char → Calc (List Token)
  | [] => pure read.reverse
  | c :: rest => do
    let t ← next reading allowed (continues read) pos depth c rest
    scan reading allowed (push reading.peephole t read) (pos + t.text.length)
      (depthAfter depth t) (rest.drop (t.text.length - 1))
termination_by s => s.length
decreasing_by
  simp only [List.length_drop, List.length_cons]
  omega

/-- The tokens of a text without blanks. -/
def tokensOf (reading : Reading) (allowed : Option (List String)) (s : List Char) :
    Calc (List Token) :=
  scan reading allowed [] 0 0 s

/-- The tokens of a text. -/
def tokenize (reading : Reading) (allowed : Option (List String)) (text : String) :
    Calc (List Token) :=
  tokensOf reading allowed (Text.squeeze text.toList)

end Token

end SymbolicAlgebra
