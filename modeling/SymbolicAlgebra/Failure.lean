import SymbolicAlgebra.Text.Quoted

/-!
# Failures

Every way in which an operation of this library can fail, by cause. `Failure.kind` names
the class a failure is reported under and `Failure.message` is its text; which failures a
search may pass over is decided by `Failure.isArithmetic` and its neighbours, never by
the text.

`Calc` is the type of a computation that may fail. Nearly all arithmetic lives in it: an
exact number too wide for a double fails at the point where a double is needed of it.
-/

namespace SymbolicAlgebra

/-- Quotients and powers without a value. -/
inductive Undefined where
  /-- A quotient by zero. -/
  | quotient
  /-- A fraction written with denominator zero. -/
  | denominator
  /-- Zero to a negative power. -/
  | zeroToNegative
  /-- Zero by zero. -/
  | zeroByZero
  /-- Infinity by infinity. -/
  | infinityByInfinity
  deriving DecidableEq, Repr

/-- What is wrong with a text that is no expression. Positions count the characters of
the text without its blanks. -/
inductive Malformed where
  /-- A numeral with two points, or a point alone. -/
  | numeral (text : String) (position : Nat)
  /-- A closing parenthesis without an opening one. -/
  | unbalanced (position : Nat)
  /-- A character that starts no token. -/
  | character (c : Char) (position : Nat)
  /-- An operator found too few operands; it is named. -/
  | operandsOf (operator : String)
  /-- Nothing to read. -/
  | empty
  /-- A token that needs an operand in front of it. -/
  | operandBefore (text : String) (position : Nat)
  /-- The text stops where an operand has to follow. -/
  | operandAtEnd
  /-- Not exactly one expression was left. -/
  | leftOver
  deriving DecidableEq, Repr

/-- Why a computation has no result. -/
inductive Failure where
  /-- A quotient or power is undefined. -/
  | undefined (what : Undefined)
  /-- An integer is too wide for a double. -/
  | tooWide
  /-- A quotient of doubles by zero. -/
  | doubleByZero
  /-- A function of doubles has no value at its argument. -/
  | outsideDomain
  /-- A whole numeral holds a digit without a place value. -/
  | wholeNumeral (text : String)
  /-- A decimal numeral holds a digit without a place value. -/
  | decimalNumeral (text : String)
  /-- The roots of order zero were asked for. -/
  | zerothRoot
  /-- A binding is not of the form `x=1`. -/
  | binding (text : String)
  /-- Two leaves do not combine. -/
  | leaves (left operator right : String)
  /-- The factorial of a number that has none. -/
  | factorial (argument : String)
  /-- The derivative of a factorial. -/
  | factorialDerivative (name : String)
  /-- A variable outside the allowed ones. -/
  | variableNotAllowed (name : String)
  /-- A variable without a value. -/
  | unbound (name : String)
  /-- A text is no expression. -/
  | malformed (what : Malformed)
  /-- Something of the named kind was given for a number. -/
  | notAValue (kind : String)
  /-- A function was given more arguments than it has parameters. -/
  | tooManyArguments (name : String) (takes given : Nat)
  /-- A term has no expression tree. -/
  | notATree (kind text : String)
  /-- An equation stands in a sum, product or power of terms. -/
  | equationOperand
  /-- A symbol with more than one letter. -/
  | longName (name : String)
  /-- No system is at hand that prints terms. -/
  | noPrinter
  /-- A function without parameters has no first one. -/
  | noParameter
  /-- A group is closed where no opening parenthesis is left on the stack. -/
  | noOpening
  /-- A leaf has no operator to rewrite. -/
  | noOperator
  /-- Nothing stands in the place of an operand that is needed. -/
  | noOperand
  /-- A parenthesis stands in the place of an operator. -/
  | noOperation
  /-- A number is to scale a tree that has no coefficient. -/
  | noCoefficient
  /-- A tree that is no monomial was compared as one. -/
  | notAMonomial
  /-- An exact fraction was needed, and reducing it made it a double: the part that is
  missing is named. -/
  | widened (part : String)
  /-- A result is not exact, in a calculation that has to stay exact. -/
  | inexact
  deriving DecidableEq, Repr

/-- A computation that may fail. -/
abbrev Calc (α : Type) := Except Failure α

/-- A sequence succeeds exactly when its two halves do. -/
theorem Calc.bind_eq_ok {α β : Type} {x : Calc α} {f : α → Calc β} {b : β} :
    x >>= f = .ok b ↔ ∃ a, x = .ok a ∧ f a = .ok b := by
  cases x with
  | error e => simp [bind, Except.bind]
  | ok a => simp [bind, Except.bind]

/-- What is made of a result has a result just if there was one. -/
theorem Calc.map_eq_ok {α β : Type} {x : Calc α} {f : α → β} {b : β} :
    x.map f = .ok b ↔ ∃ a, x = .ok a ∧ f a = b := by
  cases x with
  | error e => simp [Except.map]
  | ok a => simp [Except.map]

/-- Ask a second question only when the first is answered yes. -/
def Calc.both (x y : Calc Bool) : Calc Bool := do
  if ← x then y else pure false

/-- The computation fails only in ways that have a property. -/
def Calc.FailsAs {α : Type} (P : Failure → Prop) (x : Calc α) : Prop := ∀ e, x = .error e → P e

namespace Calc.FailsAs

variable {α β : Type} {P : Failure → Prop} {x : Calc α}

theorem of_ok {a : α} (h : x = .ok a) : x.FailsAs P := by
  subst h
  rintro e ⟨⟩

theorem throw {e : Failure} (h : P e) : Calc.FailsAs P (throw e : Calc α) := by
  rintro _ ⟨⟩
  exact h

/-- Two parts one after the other: the failure is that of the first, or of the second on some
result. -/
theorem bind {f : α → Calc β} (hx : x.FailsAs P) (hf : ∀ a, (f a).FailsAs P) :
    Calc.FailsAs P (x >>= f) := by
  intro e h
  cases x with
  | error e' =>
    cases h
    exact hx e rfl
  | ok a => exact hf a e h

theorem mono {Q : Failure → Prop} (hx : x.FailsAs P) (h : ∀ e, P e → Q e) : x.FailsAs Q :=
  fun e he => h e (hx e he)

/-- Two questions asked one after the other. -/
theorem both {x y : Calc Bool} (hx : x.FailsAs P) (hy : y.FailsAs P) :
    (Calc.both x y).FailsAs P := by
  refine hx.bind fun a => ?_
  cases a with
  | true => exact hy
  | false => exact .of_ok rfl

theorem pure (a : α) : Calc.FailsAs P (pure a) := of_ok rfl

/-- What is made of a result fails as that does. -/
theorem map {f : α → β} (hx : x.FailsAs P) : Calc.FailsAs P (f <$> x) := by
  intro e h
  cases x with
  | error e' =>
    cases h
    exact hx e rfl
  | ok a => cases h

/-- A question that either answer of may be given. -/
theorem ask {c : Calc Bool} {y : Calc α} (hc : c.FailsAs P) (hx : x.FailsAs P)
    (hy : y.FailsAs P) : Calc.FailsAs P (c >>= fun b => if b = true then x else y) :=
  hc.bind fun b => by cases b <;> assumption

/-- A list fails as one of its elements. -/
theorem mapM {f : α → Calc β} (hf : ∀ a, (f a).FailsAs P) (as : List α) :
    Calc.FailsAs P (as.mapM f) := by
  induction as with
  | nil => exact of_ok rfl
  | cons a as ih =>
    rw [List.mapM_cons]
    exact (hf a).bind fun _ => ih.bind fun _ => pure _

end Calc.FailsAs

namespace Undefined

/-- What is reported. -/
def message : Undefined → String
  | quotient => "division by zero"
  | denominator => "zero denominator"
  | zeroToNegative => "zero raised to a negative power"
  | zeroByZero => "0/0 is undefined"
  | infinityByInfinity => "inf/inf is undefined"

end Undefined

namespace Malformed

/-- What is reported. -/
def message : Malformed → String
  | numeral text position =>
    "invalid number " ++ Text.quote text ++ " at position " ++ toString position
  | unbalanced position => "unbalanced parentheses at position " ++ toString position
  | character c position =>
    "unexpected character " ++ Text.quote (String.singleton c) ++ " at position " ++
      toString position
  | operandsOf operator => "missing operand for " ++ operator
  | empty => "empty expression"
  | operandBefore text position =>
    "missing operand before " ++ Text.quote text ++ " at position " ++ toString position
  | operandAtEnd => "missing operand at end of expression"
  | leftOver => "malformed expression"

end Malformed

namespace Failure

/-- The class a failure is reported under. -/
def kind : Failure → String
  | undefined _ => "DivideByZeroError"
  | tooWide => "OverflowError"
  | doubleByZero => "ZeroDivisionError"
  | outsideDomain | wholeNumeral _ | decimalNumeral _ | zerothRoot | binding _ => "ValueError"
  | leaves .. | factorial _ | factorialDerivative _ => "IncompatibleOperandsError"
  | variableNotAllowed _ => "VariableNotAllowedError"
  | unbound _ => "IncompleteBindingError"
  | malformed _ => "ParseError"
  | notAValue _ | tooManyArguments .. | notATree .. | longName _ | notAMonomial
  | equationOperand => "TypeError"
  | noParameter | noOpening => "IndexError"
  | noOperator | noOperand | noCoefficient | widened _ => "AttributeError"
  | noOperation => "KeyError"
  | noPrinter => "ImportError"
  | inexact => "ArithmeticError"

/-- What is reported. -/
def message : Failure → String
  | undefined what => what.message
  | tooWide => "int too large to convert to float"
  | doubleByZero => "float division by zero"
  | outsideDomain => "math domain error"
  | wholeNumeral text => "invalid literal for int() with base 10: " ++ Text.quote text
  | decimalNumeral text => "could not convert string to float: " ++ Text.quote text
  | zerothRoot => "zeroth root is undefined"
  | binding text => "invalid binding " ++ Text.quote text
  | leaves left operator right => "can not combine " ++ left ++ " " ++ operator ++ " " ++ right
  | factorial argument => "factorial of " ++ argument ++ " is undefined"
  | factorialDerivative name =>
    "can not differentiate the factorial of an expression in \"" ++ name ++ "\""
  | variableNotAllowed name => "The variable \"" ++ name ++ "\" is not allowed to be in the tree"
  | unbound name => "no value given for the variable \"" ++ name ++ "\""
  | malformed what => what.message
  | notAValue kind => "can not make a Value from " ++ Text.quote kind
  | tooManyArguments name takes given =>
    name ++ " takes " ++ toString takes ++ " arguments, " ++ toString given ++ " given"
  | notATree kind text => "can not convert " ++ kind ++ " " ++ text ++ " to a tree"
  | equationOperand => "equation in a sum, product or power"
  | longName name => "variable names are single letters, not " ++ Text.quote name
  | noPrinter => "no system that prints terms"
  | noParameter => "tuple index out of range"
  | noOpening => "list index out of range"
  | noOperator => "\x27str\x27 object has no attribute \x27is_additive\x27"
  | noOperand => "operand expected"
  | noOperation => "operator expected"
  | noCoefficient => "coefficient expected"
  | notAMonomial => "monomial expected"
  | widened part => "\x27Float\x27 object has no attribute \x27" ++ part ++ "\x27"
  | inexact => "inexact result"

/-- Failures of arithmetic: undefined quotients and powers, and numbers that no double
can hold. A rewrite that fails in this way is passed over. A result that is not exact is
none of them: where it is refused, the whole calculation ends. -/
def isArithmetic : Failure → Bool
  | undefined _ | tooWide | doubleByZero => true
  | _ => false

/-- Failures of operands that an operation does not take. -/
def isIncompatible : Failure → Bool
  | leaves .. | factorial _ | factorialDerivative _ => true
  | _ => false

/-- Failures of a value outside what an operation can read or compute. -/
def isValue : Failure → Bool
  | outsideDomain | wholeNumeral _ | decimalNumeral _ | zerothRoot | binding _ => true
  | _ => false

/-- Failures of variable names. -/
def isName : Failure → Bool
  | variableNotAllowed _ | unbound _ => true
  | _ => false

/-- Failures of reading an expression. -/
def isMalformed : Failure → Bool
  | malformed _ => true
  | _ => false

end Failure

end SymbolicAlgebra
