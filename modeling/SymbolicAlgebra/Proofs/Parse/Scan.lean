import SymbolicAlgebra.Proofs.Parse.Exact
import SymbolicAlgebra.Proofs.Parse.Words

/-!
# What the lexer grants

The tokens of a text have properties that the parser relies on: no parenthesis closes what is not
open (`unclosed?_tokenize`), and no minus sign that stands behind a complete operand is read as a
negation (`signsAwait_tokenize`). Both are invariants of the scan, whether functions cancel or not:
one lemma says all that can be found at a character (`next_found`), and one that what every token
keeps holds of the tokens of a text (`scan_invariant`).

For texts, then, the parser reads exactly the grammar (`parse_eq_ok`).
-/

namespace SymbolicAlgebra

namespace Token

variable {reading : Reading} {allowed : Option (List String)} {read ts : List Token}
  {ended : Bool} {pos depth : ℕ} {c : Char} {s rest : List Char} {t : Token}

/-! ## One token -/

/-- The token is a minus sign that belongs to the operand behind it: a negation, or the sign of a
numeral. -/
def IsSign (t : Token) : Prop :=
  t.text.head? = some '-' ∧ (t.kind = .negation ∨ ∃ z, t.kind = .numeral z)

/-- What is found at a character, behind a complete operand or not, and in so many groups. -/
inductive Found (ended : Bool) (depth : ℕ) (c : Char) (t : Token) : Prop
  | sign (minus : c = '-') (awaits : ended = false) (sign : t.IsSign)
  | numeral {z : Number} (kind : t.kind = .numeral z) (digit : isNumeralChar c = true)
    (text : t.text.head? = some c)
  | operator {op : Op} (kind : t.kind = .op op) (symbol : signOp? c = some op)
    (behind : c = '-' → ended = true) (opened : op = .closing → depth ≠ 0)
  | function {f : Func} (kind : t.kind = .op (.function f)) (word : signOp? c = none)
  | constant {k : NamedConstant} (kind : t.kind = .constant k) (word : signOp? c = none)
  | letter (kind : t.kind = .letter) (word : signOp? c = none)

/-- A token that is read is found at its character. -/
theorem next_found (h : next reading allowed ended pos depth c rest = .ok t) :
    Found ended depth c t := by
  unfold next at h
  -- the branches of the scanner, each with what it has found
  split at h
  next minus =>
    obtain ⟨rfl, awaits⟩ : c = '-' ∧ ended = false := by simpa using minus
    unfold nextMinus at h
    simp only at h
    split at h
    · obtain ⟨⟩ := h
      exact .sign rfl awaits ⟨rfl, .inl rfl⟩
    · obtain ⟨v, -, ⟨⟩⟩ := Calc.bind_eq_ok.mp h
      exact .sign rfl awaits ⟨rfl, .inr ⟨_, rfl⟩⟩
  next behind =>
    split at h
    next digit =>
      obtain ⟨v, -, ⟨⟩⟩ := Calc.bind_eq_ok.mp h
      refine .numeral rfl digit ?_
      rw [List.takeWhile_cons_of_pos digit]
      rfl
    split at h
    next op symbol =>
      split at h
      · cases h
      next opened =>
        obtain ⟨⟩ := h
        refine .operator rfl symbol (fun minus => ?_) fun closing => ?_
        · simpa [minus] using behind
        · simpa [closing] using opened
    next word =>
      split at h
      · unfold nextWord at h
        split at h
        · obtain ⟨⟩ := h
          exact .function rfl word
        split at h
        · obtain ⟨⟩ := h
          exact .constant rfl word
        split at h
        · obtain ⟨⟩ := h
          exact .letter rfl word
        · cases h
      · cases h

namespace Found

/-- A minus sign belongs to the operand behind it if none is complete in front of it. -/
theorem isSign_iff (h : Found ended depth c t) : t.IsSign ↔ c = '-' ∧ ended = false := by
  have plain : (t.kind ≠ .negation ∧ ∀ z, t.kind ≠ .numeral z) → ¬t.IsSign := by
    rintro ⟨negation, numeral⟩ ⟨-, kind | ⟨z, kind⟩⟩
    · exact negation kind
    · exact numeral z kind
  have word : signOp? c = none → c ≠ '-' := by
    rintro none rfl
    exact absurd none (by decide)
  -- an operator that reads `-` stands behind an operand, and no other token begins with it
  cases h with
  | sign minus awaits sign => exact ⟨fun _ => ⟨minus, awaits⟩, fun _ => sign⟩
  | numeral kind digit text =>
    refine ⟨fun sign => ?_, fun minus => ?_⟩
    · obtain ⟨rfl⟩ := Option.some.inj (text.symm.trans sign.1)
      exact absurd digit (by decide)
    · rw [minus.1] at digit
      exact absurd digit (by decide)
  | operator kind _ behind =>
    refine ⟨fun sign => absurd sign (plain (by simp [kind])), fun minus => ?_⟩
    rw [behind minus.1] at minus
    exact absurd minus.2 (by decide)
  | function kind none | constant kind none | letter kind none =>
    exact ⟨fun sign => absurd sign (plain (by simp [kind])), fun minus =>
      absurd minus.1 (word none)⟩

/-- A minus sign behind a complete operand is a subtraction. -/
theorem subtraction (h : Found true depth '-' t) : t.kind = .op (.binary .sub) := by
  have symbol : signOp? '-' = some (.binary .sub) := by decide
  cases h with
  | operator kind symbol' =>
    obtain ⟨⟩ := symbol.symm.trans symbol'
    exact kind
  | sign _ awaits => cases awaits
  | numeral _ digit => exact absurd digit (by decide)
  | function _ none | constant _ none | letter _ none =>
    rw [symbol] at none
    cases none

/-- A negation is found only where an operand is awaited. -/
theorem awaits (h : Found ended depth c t) (kind : t.kind = .negation) : ended = false := by
  cases h with
  | sign _ awaits => exact awaits
  | numeral kind' | operator kind' | function kind' | constant kind' | letter kind' =>
    rw [kind] at kind'
    cases kind'

/-- A closing parenthesis is found only within a group. -/
theorem opened (h : Found ended depth c t) (kind : t.kind = .op .closing) : depth ≠ 0 := by
  cases h with
  | sign _ _ sign =>
    rcases sign.2 with kind' | ⟨z, kind'⟩ <;> rw [kind] at kind' <;> cases kind'
  | operator kind' _ _ opened =>
    rw [kind] at kind'
    obtain ⟨⟩ := kind'
    exact opened rfl
  | numeral kind' | function kind' | constant kind' | letter kind' =>
    rw [kind] at kind'
    cases kind'

end Found

/-! ## Whole texts -/

/-- What every token keeps that is found holds of all tokens of a text. -/
theorem scan_invariant {I : List Token → ℕ → Prop}
    (step : ∀ {read depth c t}, I read depth → Found (continues read) depth c t →
      I (push reading.peephole t read) (depthAfter depth t))
    (h : I read depth) (run : scan reading allowed read pos depth s = .ok ts) :
    ∃ depth, I ts.reverse depth := by
  fun_induction scan reading allowed read pos depth s with
  | case1 read pos depth =>
    obtain ⟨⟩ := run
    exact ⟨depth, by rwa [List.reverse_reverse]⟩
  | case2 read pos depth c rest ih =>
    obtain ⟨t, found, rest⟩ := Calc.bind_eq_ok.mp run
    exact ih t (step h (next_found found)) rest

/-- What holds at the start and is kept by every token holds of all tokens. -/
theorem tokenize_invariant {text : String} {I : List Token → ℕ → Prop} (h : I [] 0)
    (step : ∀ {read depth c t}, I read depth → Found (continues read) depth c t →
      I (push reading.peephole t read) (depthAfter depth t))
    (run : tokenize reading allowed text = .ok ts) : ∃ depth, I ts.reverse depth :=
  scan_invariant step h run

theorem push_off : push false t read = t :: read := by
  cases read <;> rfl

/-- What is removed is a function in front of another. -/
theorem push_cases (peephole : Bool) (t : Token) (read : List Token) :
    push peephole t read = t :: read ∨
      ∃ last, read = last :: push peephole t read ∧ last.undoes t = true := by
  cases read with
  | nil => exact .inl rfl
  | cons last before =>
    by_cases vanish : (peephole && last.undoes t) = true
    · rw [push, if_pos vanish]
      exact .inr ⟨last, rfl, (Bool.and_eq_true_iff.mp vanish).2⟩
    · rw [push, if_neg vanish]
      exact .inl rfl

/-- Only functions undo another. -/
theorem inverse?_of_undoes {last : Token} (h : last.undoes t = true) : ∃ f g,
    last.kind = .op (.function f) ∧ t.kind = .op (.function g) ∧ f.inverse? = some g := by
  have named : ∀ {t : Token} {f : Func}, t.function? = some f → t.kind = .op (.function f) := by
    intro t f h
    unfold function? at h
    split at h
    next kind =>
      obtain ⟨⟩ := h
      exact kind
    next => cases h
  unfold undoes at h
  split at h
  next f g hf hg => exact ⟨f, g, named hf, named hg, beq_iff_eq.mp h⟩
  next => cases h

/-- Every closing parenthesis of a text closes one that is open. -/
theorem unclosed?_tokenize {text : String} (run : tokenize reading allowed text = .ok ts) :
    ∃ depth, unclosed? 0 ts = some depth := by
  have step : ∀ {read depth c t}, unclosed? 0 read.reverse = some depth →
      Found (continues read) depth c t →
      unclosed? 0 (push reading.peephole t read).reverse = some (depthAfter depth t) := by
    intro read depth c t h found
    -- pushing a token adds it, or takes an inverse pair away that opens nothing
    rcases push_cases reading.peephole t read with same | ⟨last, same, undoes⟩
    · rw [same, List.reverse_cons, unclosed?_append, h, Option.bind_some,
        unclosed?_cons found.opened, unclosed?]
    · obtain ⟨f, g, name, inverse, -⟩ := inverse?_of_undoes undoes
      have flat : last.IsFlat := by simp [IsFlat, name]
      have outer : depthAfter depth t = depth := by rw [depthAfter, inverse]
      rw [same, List.reverse_cons, unclosed?_append] at h
      obtain ⟨d, before, last⟩ := Option.bind_eq_some_iff.mp h
      rw [unclosed?_flat flat, unclosed?] at last
      rw [outer, before, last]
  obtain ⟨depth, h⟩ :=
    tokenize_invariant (I := fun read depth => unclosed? 0 read.reverse = some depth) rfl step run
  rw [List.reverse_reverse] at h
  exact ⟨depth, h⟩

/-- Behind a complete operand stands what is found there: what is removed is followed by nothing
yet. -/
theorem isChain_tokenize {text : String} {P : Token → Prop}
    (h : ∀ {depth c t}, Found true depth c t → P t)
    (run : tokenize reading allowed text = .ok ts) :
    ts.IsChain fun t u => t.endsTerm = true → P u := by
  have step : ∀ {read depth c t},
      (read.reverse.IsChain fun t u => t.endsTerm = true → P u) → Found (continues read) depth c t →
      (push reading.peephole t read).reverse.IsChain fun t u => t.endsTerm = true → P u := by
    intro read depth c t chain found
    -- taking an inverse pair away leaves the chain before it
    rcases push_cases reading.peephole t read with same | ⟨last, same, -⟩
    · rw [same, List.reverse_cons]
      refine List.isChain_append.mpr ⟨chain, .singleton t, fun last hlast => ?_⟩
      rintro _ ⟨⟩ ends
      cases read with
      | nil => cases hlast
      | cons last' read =>
        obtain rfl : last' = last := by simpa using hlast
        rw [continues, ends] at found
        exact h found
    · rw [same, List.reverse_cons] at chain
      exact (List.isChain_append.mp chain).1
  obtain ⟨-, chain⟩ := tokenize_invariant
    (I := fun read _ => read.reverse.IsChain fun t u => t.endsTerm = true → P u) .nil step run
  rwa [List.reverse_reverse] at chain

/-- No minus sign behind a complete operand is a negation. -/
theorem signsAwait_tokenize {text : String} (run : tokenize reading allowed text = .ok ts) :
    SignsAwait ts :=
  isChain_tokenize (fun found kind => absurd (found.awaits kind) (by decide)) run

end Token

/-- A text has a tree if and only if its tokens, with the missing parentheses, spell an equation,
and its tree is the one of the phrase. -/
theorem Parser.parse_eq_ok {α : Type} {b : Builder α} {reading : Reading}
    {allowed : Option (List String)} {text : String} {ts : List Token} {t : Token} {v : α}
    (total : b.Total) (stop : t.kind = .op .closing)
    (run : Token.tokenize reading allowed text = .ok ts) :
    ∃ depth, Token.unclosed? 0 ts = some depth ∧ (parse b reading allowed text = .ok v ↔
      ∃ p, Spells TakesAll .equation (ts ++ List.replicate depth t) [] p ∧
        p.build b = .ok v) := by
  obtain ⟨depth, balanced⟩ := Token.unclosed?_tokenize run
  refine ⟨depth, balanced, ?_⟩
  have parsed : parse b reading allowed text = parseTokens b ts := by
    rw [parse, run]
    rfl
  simp only [parsed, spells_iff]
  constructor
  · intro accepted
    exact derives_of_parseTokens (Token.signsAwait_tokenize run) balanced stop accepted
  · rintro ⟨p, derives, value⟩
    exact (parseTokens_eq_build total stop derives).trans value

end SymbolicAlgebra
