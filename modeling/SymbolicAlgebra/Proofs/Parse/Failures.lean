import SymbolicAlgebra.Proofs.Combine.Formed
import SymbolicAlgebra.Proofs.Parse.Scan
import SymbolicAlgebra.Proofs.Reading

/-!
# How reading fails

A text is refused where it is malformed or has a variable that is not allowed. Beside that, a
numeral may hold a digit without a place value, and the arithmetic of combining what is read may
fail in all the ways that arithmetic does. There is nothing else (`Expr.parse_ends`): the parser
gives its builder trees with all their operands, and such trees combine.

The failures of numerals and of arithmetic do occur.
-/

namespace SymbolicAlgebra

open Calc (FailsAs)

namespace Failure

variable [Exactness] {e : Failure}

/-- A failure of reading a text. -/
def IsReading : Failure → Prop
  | malformed _ | variableNotAllowed _ | wholeNumeral _ | decimalNumeral _ => True
  | e => e.IsNumeric

/-- A failure of finding the tokens of a text. -/
def IsLexical : Failure → Prop
  | malformed (.numeral ..) | malformed (.unbalanced _) | malformed (.character ..) => True
  | malformed _ => False
  | e => e.IsReading

theorem IsNumeric.isReading (h : e.IsNumeric) : e.IsReading := by
  cases e with
  | malformed | variableNotAllowed | wholeNumeral | decimalNumeral => exact True.intro
  | _ => exact h

theorem IsNumeric.isLexical (h : e.IsNumeric) : e.IsLexical := by
  cases e with
  | malformed => cases h
  | _ => exact h.isReading

theorem IsLexical.isReading (h : e.IsLexical) : e.IsReading := by
  cases e with
  | malformed => exact True.intro
  | _ => exact h

end Failure

/-! ## Tokens -/

namespace Token

variable [Exactness] {reading : Reading} {allowed : Option (List String)} {pos : ℕ}

/-- The value of a numeral fails in its digits or in arithmetic. -/
theorem numeralValue_failsAs (s : List Char) :
    (numeralValue reading s pos).FailsAs Failure.IsLexical := by
  unfold numeralValue
  split
  · exact .throw True.intro
  split
  · unfold exactNumeral
    split
    · split
      · exact (@Scalar.ofQuotient_failsAs .free _ _).mono fun _ h => h.of_free.isLexical
      · exact .throw True.intro
    · exact .throw True.intro
  · unfold doubleNumeral
    split
    · exact .pure _
    · exact .throw True.intro

/-- A token fails as the characters do. -/
theorem next_failsAs (before : Bool) (depth : ℕ) (c : Char) (rest : List Char) :
    (next reading allowed before pos depth c rest).FailsAs Failure.IsLexical := by
  unfold next
  split
  · unfold nextMinus
    dsimp only
    split
    · exact .pure _
    · exact (numeralValue_failsAs _).bind fun _ => .pure _
  split
  · exact (numeralValue_failsAs _).bind fun _ => .pure _
  split
  · split
    · exact .throw True.intro
    · exact .pure _
  split
  · unfold nextWord
    split
    · exact .pure _
    split
    · exact .pure _
    split
    · exact .pure _
    · exact .throw True.intro
  · exact .throw True.intro

/-- A text fails as its tokens do. -/
theorem scan_failsAs (read : List Token) (depth : ℕ) (s : List Char) :
    (scan reading allowed read pos depth s).FailsAs Failure.IsLexical := by
  fun_induction scan reading allowed read pos depth s with
  | case1 => exact .pure _
  | case2 read pos depth c rest ih => exact (next_failsAs _ _ _ _).bind ih

theorem tokenize_failsAs (text : String) :
    (tokenize reading allowed text).FailsAs Failure.IsLexical := scan_failsAs _ _ _

end Token

/-! ## Trees -/

namespace Expr

variable [Tolerance] [Exactness]

/-- The builder of expressions keeps trees formed, and fails in arithmetic only. -/
theorem builder_confined {N : String → Prop} {A : Leaf → Prop} (hA : Leaf.Closed A)
    (hN : ∀ x, N x → A (.ofName x)) (peephole : Bool) :
    (builder peephole).Confined N (fun _ => True) Failure.IsReading (Formed A) where
  malformed _ := True.intro
  product := True.intro
  number z := hA.number z
  letter h := hN _ h
  negate ht := (negate_formed hA ht).mono (fun _ h => h.isReading) fun _ => id
  combine _ hl hr := (combine_formed hA hl hr).mono (fun _ h => h.isReading) fun _ => id
  factorial ht := Ends.pure ⟨ht, rfl⟩
  apply ht := Ends.pure (applyFunction_of ⟨rfl, ht⟩ (by rintro - _ _ _ rfl -; exact ht.2))

/-- **How a text is read**: as a tree with all its operands, whose variables are letters that stand
for nothing else and are allowed, or with a failure of reading or of arithmetic. -/
theorem parse_ends (reading : Reading) (allowed : Option (List String)) (text : String) :
    Ends (parse reading allowed text) Failure.IsReading
      (Formed fun a => ∀ x ∈ a.names, Token.IsVariable allowed x) := by
  have confined := builder_confined (Leaf.closed_names (Token.IsVariable allowed))
    (fun _ h => List.forall_mem_singleton.mpr h) reading.peephole
  have lexical : (Token.tokenize reading allowed text).FailsAs Failure.IsReading :=
    (Token.tokenize_failsAs text).mono fun _ h => h.isReading
  have tokens : Returns (Token.tokenize reading allowed text) fun ts =>
      (∀ t ∈ ts, t.Names (Token.IsVariable allowed)) ∧ ∃ depth, Token.unclosed? 0 ts = some depth :=
    (Token.tokenize_names text).and fun _ run => Token.unclosed?_tokenize run
  refine Ends.bind ⟨lexical, tokens⟩ fun ts ⟨names, depth, balanced⟩ => ?_
  exact Parser.parseTokens_ends confined names (fun _ _ _ _ => True.intro)
    (.inr (Parser.opened_of_balanced balanced))

/-- A superscript is a digit, and has no place value. -/
example :
    letI := Double.standardTolerance
    letI := Exactness.free
    parse .standard none "²" = .error (.wholeNumeral "²") := by
  decide +kernel

end Expr

end SymbolicAlgebra
