import SymbolicAlgebra.Proofs.Parse.Grammar
import SymbolicAlgebra.Token.Lexer

/-!
# Texts that read as phrases

`Reads before after c s p` says of a piece of text that the lexer makes tokens of it that the
grammar derives as the phrase `p` in the category `c`. What the lexer makes of a character
depends on its surroundings, so the judgement is about every text that the piece stands in:
`before` is a condition on the tokens that are read already, and `after` one on the characters
that follow. An operand in general stands where one is awaited and before a sign (`Awaits`,
`Stops`), but operands that are joined without a sign meet weaker conditions.

Pieces are put together by one lemma for each construction of the grammar, so the texts of
expressions are read without looking at the lexer again.
-/

namespace SymbolicAlgebra

namespace Token

/-! ## Surroundings -/

/-- The last token is no function, which its inverse could remove. -/
def Plain (read : List Token) : Prop := ∀ last ∈ read.head?, last.function? = none

/-- An operand is awaited behind the tokens. -/
def Awaits (read : List Token) : Prop := Plain read ∧ continues read = false

/-- A numeral ends before the text. -/
def EndsNumeral (rest : List Char) : Prop := ∀ c ∈ rest.head?, isNumeralChar c = false

/-- An operand ends before the text: a sign follows, or nothing. -/
def Stops (rest : List Char) : Prop := ∀ c ∈ rest.head?, (signOp? c).isSome = true

/-- A sign stands for the operator that has it for a symbol. -/
theorem symbol_of_signOp? {c : Char} {op : Op} (h : signOp? c = some op) :
    op.symbol.toList = [c] := by
  have symbol := List.find?_some h
  rw [beq_iff_eq] at symbol
  rw [symbol, String.toList_singleton]

/-- The signs of the lexer. -/
theorem mem_of_signOp? {c : Char} (h : (signOp? c).isSome = true) : c ∈ "+-*/^!()=".toList := by
  obtain ⟨op, hop⟩ := Option.isSome_iff_exists.mp h
  have mem := List.mem_of_find?_eq_some hop
  have symbol := symbol_of_signOp? hop
  simp only [List.mem_cons, List.not_mem_nil, or_false] at mem
  rcases mem with rfl | rfl | rfl | rfl | rfl | rfl | rfl | rfl | rfl <;> cases symbol <;> decide

theorem Stops.endsNumeral {rest : List Char} (h : Stops rest) : EndsNumeral rest := by
  have signs : ("+-*/^!()=".toList.all fun c => !isNumeralChar c) = true := by decide
  intro c hc
  simpa using List.all_eq_true.mp signs c (mem_of_signOp? (h c hc))

theorem stops_cons {c : Char} (h : (signOp? c).isSome = true) (rest : List Char) :
    Stops (c :: rest) := by
  rintro _ ⟨rfl⟩
  exact h

/-! ## One token -/

variable {reading : Reading} {allowed : Option (List String)} {read ts us : List Token}
  {pos depth : Nat} {c : Char} {s rest : List Char} {t : Token} {kind : Kind} {op : Op}

/-- Behind a token that is no function, the next one stays. -/
theorem push_of_plain (h : Plain read) : push reading.peephole t read = t :: read := by
  cases read with
  | nil => rfl
  | cons last read =>
    have undoes : last.undoes t = false := by
      rw [undoes, h last rfl]
    rw [push, undoes, Bool.and_false, if_neg Bool.false_ne_true]

/-- A token that is no function stays, whatever is in front. -/
theorem push_of_function? {peephole : Bool} (h : t.function? = none) :
    push peephole t read = t :: read := by
  cases read with
  | nil => rfl
  | cons last read =>
    have undoes : last.undoes t = false := by
      rw [undoes, h]
      split <;> simp_all
    rw [push, undoes, Bool.and_false, if_neg Bool.false_ne_true]

/-- A token that spells the start of a text, and what is left. -/
theorem scan_token (h : next reading allowed (continues read) pos depth c (s ++ rest) =
      .ok ⟨kind, c :: s, pos⟩)
    (pushed : push reading.peephole ⟨kind, c :: s, pos⟩ read = ⟨kind, c :: s, pos⟩ :: read) :
    scan reading allowed read pos depth (c :: s ++ rest) =
      scan reading allowed (⟨kind, c :: s, pos⟩ :: read) (pos + (c :: s).length)
        (depthAfter depth ⟨kind, c :: s, pos⟩) rest := by
  rw [List.cons_append, scan, h]
  show scan reading allowed (push _ _ _) _ _ ((s ++ rest).drop ((c :: s).length - 1)) = _
  rw [pushed, List.length_cons, Nat.add_sub_cancel, List.drop_left]

/-- A sign behind an operand, or another sign than the minus sign. -/
theorem next_sign (hop : signOp? c = some op) (minus : c = '-' → continues read = true)
    (opened : op = .closing → depth ≠ 0) :
    next reading allowed (continues read) pos depth c rest = .ok ⟨.op op, [c], pos⟩ := by
  have numeral : isNumeralChar c = false :=
    (stops_cons (Option.isSome_of_eq_some hop) []).endsNumeral c rfl
  have negation : (decide (c = '-') && !continues read) = false := by
    by_cases h : c = '-'
    · simp [minus h]
    · simp [h]
  unfold next
  rw [if_neg (by simpa using negation), if_neg (by simp [numeral]), hop]
  exact if_neg (by simpa using opened)

/-- A sign is read as a token of its own, unless it is a minus sign where an operand is awaited. -/
theorem scan_sign (hop : signOp? c = some op) (minus : c = '-' → continues read = true)
    (opened : op = .closing → depth ≠ 0) (plain : op.isFunction = false) :
    scan reading allowed read pos depth (c :: rest) =
      scan reading allowed (⟨.op op, [c], pos⟩ :: read) (pos + 1)
        (depthAfter depth ⟨.op op, [c], pos⟩) rest := by
  refine scan_token (s := []) (next_sign hop minus opened) (push_of_function? ?_)
  cases op <;> first | rfl | cases plain

theorem next_minus (h : continues read = false) :
    next reading allowed (continues read) pos depth '-' rest = nextMinus reading pos rest := by
  rw [next, h]
  rfl

/-- What starts with a letter is a word. -/
theorem next_letter (numeral : isNumeralChar c = false) (sign : signOp? c = none)
    (letter : Text.isLetter c = true) :
    next reading allowed (continues read) pos depth c rest = nextWord allowed pos c rest := by
  have minus : c ≠ '-' := by
    rintro rfl
    exact absurd sign (by decide)
  rw [next, decide_eq_false minus, numeral, sign, if_pos letter]
  rfl

/-- A function before a parenthesis is found by its symbol. -/
theorem scan_function (f : Func) (h : Plain read) :
    scan reading allowed read pos depth (f.symbol.toList ++ '(' :: rest) =
      scan reading allowed (⟨.op (.function f), f.symbol.toList, pos⟩ :: read)
        (pos + f.symbol.toList.length) depth ('(' :: rest) := by
  have found : functionAt? (f.symbol.toList ++ '(' :: rest) = some f := by
    cases f <;> rfl
  obtain ⟨c, cs, symbol, numeral, sign, letter⟩ : ∃ c cs, f.symbol.toList = c :: cs ∧
      isNumeralChar c = false ∧ signOp? c = none ∧ Text.isLetter c = true := by
    cases f <;> exact ⟨_, _, rfl, by decide, by decide, by decide⟩
  rw [symbol] at found ⊢
  refine scan_token ?_ (push_of_plain h)
  rw [next_letter numeral sign letter, nextWord, ← List.cons_append, found, ← symbol]
  rfl

/-! ## Pieces of a text -/

/-- The piece of text is read as a phrase of the category that has a property, behind tokens
and before characters that meet the conditions. -/
def Reads (reading : Reading) (allowed : Option (List String)) (before : List Token → Prop)
    (after : List Char → Prop) (d : Category) (s : List Char) (P : Phrase → Prop) : Prop :=
  ∀ (read : List Token) (pos depth : ℕ) (rest : List Char), before read → after rest →
    ∃ ts p, Derives d ts p ∧ P p ∧ scan reading allowed read pos depth (s ++ rest) =
      scan reading allowed (ts.reverse ++ read) (pos + s.length) depth rest

/-- No condition. -/
def Anything {α : Type} (_ : List α) : Prop := True

theorem continues_derives {d : Category} {p : Phrase} (h : Derives d ts p) :
    continues (ts.reverse ++ read) = true := by
  obtain ⟨init, last, rfl, ends⟩ := h.endsTerm
  simpa [continues] using ends

/-- A phrase does not end in a function. -/
theorem plain_derives {d : Category} {p : Phrase} (h : Derives d ts p) :
    Plain (ts.reverse ++ read) := by
  obtain ⟨init, last, rfl, ends⟩ := h.endsTerm
  have plain : last.function? = none := by
    unfold endsTerm at ends
    unfold function?
    split at ends <;> simp_all
  simpa [Plain] using plain

/-- An operand is awaited behind a token that neither ends one nor names a function. -/
theorem awaits_cons (ends : t.endsTerm = false) (plain : t.function? = none) :
    Awaits (t :: read) := by
  refine ⟨?_, ends⟩
  rintro _ ⟨rfl⟩
  exact plain

namespace Reads

variable {before before' : List Token → Prop} {after after' : List Char → Prop}
  {d e f : Category} {s' : List Char} {P Q R : Phrase → Prop}

theorem mono (h : Reads reading allowed before after d s P) (hb : ∀ r, before' r → before r)
    (ha : ∀ r, after' r → after r) : Reads reading allowed before' after' d s P :=
  fun read pos depth rest hread hrest =>
    h read pos depth rest (hb _ hread) (ha _ hrest)

/-- A piece of a tighter category is one of the looser category. -/
theorem within (h : Reads reading allowed before after d s P) (hd : d.Within e) :
    Reads reading allowed before after e s P := by
  intro read pos depth rest hread hrest
  obtain ⟨ts, p, derives, hp, scans⟩ := h read pos depth rest hread hrest
  exact ⟨ts, p, .within hd derives, hp, scans⟩

/-- A weaker property of the phrase. -/
theorem imp (h : Reads reading allowed before after d s P) (hP : ∀ {p}, P p → Q p) :
    Reads reading allowed before after d s Q := by
  intro read pos depth rest hread hrest
  obtain ⟨ts, p, derives, hp, scans⟩ := h read pos depth rest hread hrest
  exact ⟨ts, p, derives, hP hp, scans⟩

/-- An operand that may stand anywhere. -/
theorem awaiting (h : Reads reading allowed Anything after d s P) :
    Reads reading allowed Awaits after d s P :=
  h.mono (fun _ _ => True.intro) fun _ => id

/-- An operand before a sign. -/
theorem stopping (h : Reads reading allowed before EndsNumeral d s P) :
    Reads reading allowed before Stops d s P :=
  h.mono (fun _ => id) fun _ => Stops.endsNumeral

/-- What binds more tightly can stand for what binds less tightly. -/
theorem loosen {m n : ℕ} (h : Reads reading allowed before after (.ofPrec n) s P) (hmn : m ≤ n) :
    Reads reading allowed before after (.ofPrec m) s P := by
  induction hmn with
  | refl => exact h
  | @step n _ ih =>
    refine ih ?_
    match n with
    | 0 => exact h.within .sum
    | 1 => exact h.within .product
    | 2 => exact (h.within .power).within .unary
    | 3 => exact h.within .powerBase
    | 4 => exact h.within .atom
    | _ + 5 => exact h

/-- What needs no parentheses is an operand of a product. -/
theorem unary (h : Reads reading allowed before after .atom s P) :
    Reads reading allowed before after .unary s P :=
  ((h.within .atom).within .powerBase).within .power

/-- A sign between two pieces, given what the grammar makes of their tokens. -/
theorem sign {op : Binary} (hop : signOp? c = some (.binary op))
    (left : Reads reading allowed before Stops d s P)
    (right : Reads reading allowed Awaits after e s' Q)
    (derive : ∀ {t ts us p q}, t.kind = .op (.binary op) → Derives d ts p → P p →
      Derives e us q → Q q → ∃ r, Derives f (ts ++ t :: us) r ∧ R r) :
    Reads reading allowed before after f (s ++ c :: s') R := by
  intro read pos depth rest hread hrest
  have stops : Stops (c :: s' ++ rest) := stops_cons (Option.isSome_of_eq_some hop) _
  obtain ⟨ts, p, hl, hp, scanl⟩ := left read pos depth (c :: s' ++ rest) hread stops
  let t : Token := ⟨.op (.binary op), [c], pos + s.length⟩
  have scant : scan reading allowed (ts.reverse ++ read) (pos + s.length) depth
      (c :: s' ++ rest) = scan reading allowed (t :: (ts.reverse ++ read))
        (pos + s.length + 1) depth (s' ++ rest) :=
    scan_sign hop (fun _ => continues_derives hl) nofun rfl
  obtain ⟨us, q, hr, hq, scanr⟩ := right (t :: (ts.reverse ++ read))
    (pos + s.length + 1) depth rest (awaits_cons rfl rfl) hrest
  obtain ⟨r, derives, hr⟩ := derive (t := t) rfl hl hp hr hq
  refine ⟨ts ++ t :: us, r, derives, hr, ?_⟩
  rw [List.append_assoc, scanl, scant, scanr]
  simp [Nat.add_assoc, Nat.add_comm 1]

/-- An operator between two operands. -/
theorem combine {op : Binary} (hop : signOp? c = some (.binary op))
    (left : Reads reading allowed before Stops op.leftCategory s P)
    (right : Reads reading allowed Awaits after op.rightCategory s' Q)
    (h : ∀ {p q}, P p → Q q → R (.combine op p q)) :
    Reads reading allowed before after op.category (s ++ c :: s') R :=
  sign hop left right fun kind hl hp hr hq => ⟨_, .combine kind hl hr, h hp hq⟩

/-- Two operands without a sign between them. -/
theorem multiply {between : List Char → Prop}
    (left : Reads reading allowed before between .product s P)
    (right : Reads reading allowed Plain after .power s' Q)
    (joined : ∀ rest, after rest → between (s' ++ rest))
    (h : ∀ {p q}, P p → Q q → R (.combine .mul p q)) :
    Reads reading allowed before after .product (s ++ s') R := by
  intro read pos depth rest hread hrest
  obtain ⟨ts, p, hl, hp, scanl⟩ := left read pos depth (s' ++ rest) hread (joined rest hrest)
  obtain ⟨us, q, hr, hq, scanr⟩ := right (ts.reverse ++ read) (pos + s.length) depth rest
    (plain_derives hl) hrest
  obtain ⟨t, us, rfl, start⟩ := hr.starts_power (.inl rfl)
  refine ⟨ts ++ t :: us, _, .multiply start hl (.within .power hr), h hp hq, ?_⟩
  rw [List.append_assoc, scanl, scanr]
  simp [Nat.add_assoc]

/-- A minus sign before a piece that starts with no numeral, given what the grammar makes of
the tokens. -/
theorem minus (numeral : isNumeralChar c = false)
    (operand : Reads reading allowed Awaits after d (c :: s) P)
    (derive : ∀ {t ts p}, t.kind = .negation → Derives d ts p → P p →
      ∃ r, Derives e (t :: ts) r ∧ R r) :
    Reads reading allowed Awaits after e ('-' :: c :: s) R := by
  intro read pos depth rest hread hrest
  let t : Token := ⟨.negation, ['-'], pos⟩
  have token : next reading allowed (continues read) pos depth '-' (c :: s ++ rest) = .ok t := by
    rw [next_minus hread.2, nextMinus, List.cons_append, List.takeWhile_cons_of_neg]
    · rfl
    · rw [numeral]
      exact Bool.false_ne_true
  obtain ⟨ts, p, derives, hp, scans⟩ := operand (t :: read) (pos + 1) depth rest
    (awaits_cons rfl rfl) hrest
  obtain ⟨r, derives, hr⟩ := derive (t := t) rfl derives hp
  refine ⟨t :: ts, r, derives, hr, ?_⟩
  refine (scan_token (s := []) token (push_of_function? rfl)).trans (scans.trans ?_)
  simp [Nat.add_assoc, Nat.add_comm 1, t]

/-- A minus sign before an operand that starts with no numeral. -/
theorem negate (numeral : isNumeralChar c = false)
    (operand : Reads reading allowed Awaits after .unary (c :: s) P)
    (h : ∀ {p}, P p → Q (.negate p)) :
    Reads reading allowed Awaits after .signed ('-' :: c :: s) Q :=
  operand.minus numeral fun kind derives hp => ⟨_, .negate kind derives, h hp⟩

/-- Parentheses around any phrase. -/
theorem group (h : Reads reading allowed Awaits Stops .equation s P) :
    Reads reading allowed Anything Anything .atom ('(' :: s ++ [')']) P := by
  intro read pos depth rest _ _
  let t : Token := ⟨.op .opening, ['('], pos⟩
  let t' : Token := ⟨.op .closing, [')'], pos + 1 + s.length⟩
  have opening : scan reading allowed read pos depth ('(' :: (s ++ ')' :: rest)) =
      scan reading allowed (t :: read) (pos + 1) (depth + 1) (s ++ ')' :: rest) :=
    scan_sign (by decide) nofun nofun rfl
  obtain ⟨ts, p, derives, hp, scans⟩ := h (t :: read) (pos + 1) (depth + 1) (')' :: rest)
    (awaits_cons rfl rfl) (stops_cons (by decide) rest)
  have closing : scan reading allowed (ts.reverse ++ t :: read) (pos + 1 + s.length) (depth + 1)
      (')' :: rest) = scan reading allowed (t' :: (ts.reverse ++ t :: read))
        (pos + 1 + s.length + 1) depth rest :=
    scan_sign (by decide) nofun (fun _ => Nat.succ_ne_zero depth) rfl
  refine ⟨t :: ts ++ [t'], p, .group rfl derives rfl, hp, ?_⟩
  have text : '(' :: s ++ [')'] ++ rest = '(' :: (s ++ ')' :: rest) := by simp
  rw [text, opening, scans, closing]
  simp [Nat.add_assoc, Nat.add_comm 1]

/-- A function of what starts with a parenthesis. -/
theorem apply (f : Func) (h : Reads reading allowed Anything after .atom ('(' :: s) P)
    (hf : ∀ {p}, P p → Q (.apply f p)) :
    Reads reading allowed Plain after .atom (f.symbol.toList ++ '(' :: s) Q := by
  intro read pos depth rest hread hrest
  let t : Token := ⟨.op (.function f), f.symbol.toList, pos⟩
  obtain ⟨ts, p, derives, hp, scans⟩ := h (t :: read) (pos + f.symbol.toList.length) depth
    rest True.intro hrest
  refine ⟨t :: ts, _, .apply rfl derives, hf hp, ?_⟩
  rw [List.append_assoc, List.cons_append, scan_function f hread, ← List.cons_append, scans]
  simp [Nat.add_assoc, t]

/-- A mark behind an operand makes its factorial. -/
theorem factorial (h : Reads reading allowed before Stops .powerBase s P)
    (hf : ∀ {p}, P p → Q (.factorial p)) :
    Reads reading allowed before Anything .powerBase (s ++ ['!']) Q := by
  intro read pos depth rest hread _
  let t : Token := ⟨.op .factorial, ['!'], pos + s.length⟩
  obtain ⟨ts, p, derives, hp, scans⟩ := h read pos depth ('!' :: rest) hread
    (stops_cons (by decide) rest)
  have sign : scan reading allowed (ts.reverse ++ read) (pos + s.length) depth ('!' :: rest) =
      scan reading allowed (t :: (ts.reverse ++ read)) (pos + s.length + 1) depth rest :=
    scan_sign (by decide) nofun nofun rfl
  refine ⟨ts ++ [t], _, .factorial rfl derives, hf hp, ?_⟩
  rw [List.append_assoc, List.singleton_append, scans, sign]
  simp [Nat.add_assoc]

end Reads

/-! ## Words -/

/-- The name is a letter that stands for a variable, one of the allowed ones. -/
def IsVariable (allowed : Option (List String)) (name : String) : Prop :=
  ∃ c, name = String.singleton c ∧ Text.isBlank c = false ∧ isNumeralChar c = false ∧
    signOp? c = none ∧ Text.isLetter c = true ∧ NamedConstant.ofLetter? c = none ∧
    isAllowed allowed name = true

/-- No function starts with a letter that stands for a variable before a sign. -/
theorem functionAt?_stops (constant : NamedConstant.ofLetter? c = none) (h : Stops rest) :
    functionAt? (c :: rest) = none := by
  refine List.find?_eq_none.mpr fun f _ found => ?_
  obtain ⟨a, b, more, symbol, word⟩ : ∃ a b more, f.symbol.toList = a :: b :: more ∧
      ((signOp? b).isSome = true → a = 'e') := by
    cases f <;> exact ⟨_, _, _, rfl, by decide⟩
  rw [symbol] at found
  cases rest with
  | nil => simp [List.isPrefixOf] at found
  | cons d rest =>
    simp only [List.isPrefixOf, Bool.and_eq_true, beq_iff_eq] at found
    obtain ⟨rfl, rfl, -⟩ := found
    obtain rfl := word (h b rfl)
    exact absurd constant (by decide)

/-- A variable before a sign. -/
theorem reads_letter {name : String} (h : IsVariable allowed name) :
    Reads reading allowed Anything Stops .atom name.toList (· = .letter name) := by
  obtain ⟨c, rfl, -, numeral, sign, letter, constant, isAllowed⟩ := h
  intro read pos depth rest _ hrest
  have token : next reading allowed (continues read) pos depth c rest =
      .ok ⟨.letter, [c], pos⟩ := by
    rw [next_letter numeral sign letter, nextWord, functionAt?_stops constant hrest, constant,
      if_pos isAllowed]
    rfl
  rw [String.toList_singleton]
  exact ⟨[⟨.letter, [c], pos⟩], _, .letter rfl, rfl,
    scan_token (s := []) token (push_of_function? rfl)⟩

/-- The imaginary unit, which no function starts with. -/
theorem reads_i : Reads reading allowed Anything Anything .atom ['i'] (· = .number .i) := by
  intro read pos depth rest _ _
  have token : next reading allowed (continues read) pos depth 'i' rest =
      .ok ⟨.constant .i, ['i'], pos⟩ := by
    rw [next_letter (by decide) (by decide) (by decide)]
    rfl
  exact ⟨[⟨.constant .i, ['i'], pos⟩], _, .constant (c := .i) rfl, rfl,
    scan_token (s := []) token (push_of_function? rfl)⟩

/-! ### Numerals -/

theorem isDigit_bounds (h : c.isDigit = true) : 48 ≤ c.toNat ∧ c.toNat ≤ 57 := by
  simpa [Char.isDigit, UInt32.le_iff_toNat_le] using h

/-- A decimal digit has its value. -/
theorem digitValue?_of_isDigit (h : c.isDigit = true) :
    Text.digitValue? c = some (c.toNat - '0'.toNat) := by
  obtain ⟨low, high⟩ := isDigit_bounds h
  have first : Text.zeros = 0x30 :: Text.zeros.tail := rfl
  rw [Text.digitValue?, first, List.find?_cons_of_pos]
  · rfl
  · rw [decide_eq_true low, decide_eq_true (by omega), Bool.and_self]

theorem isNumeralChar_of_isDigit (h : c.isDigit = true) : isNumeralChar c = true := by
  rw [isNumeralChar, Text.isDigit, digitValue?_of_isDigit h]
  rfl

/-- A decimal digit is not blank. -/
theorem isBlank_of_isDigit (h : c.isDigit = true) : Text.isBlank c = false := by
  obtain ⟨low, high⟩ := isDigit_bounds h
  simp only [Text.isBlank, Text.Ranges.mem, Text.blanks, List.any_cons, List.any_nil,
    Bool.or_eq_false_iff, Bool.and_eq_false_iff, decide_eq_false_iff_not, and_true]
  omega

/-- Decimal digits are read as the number that they stand for. -/
theorem natOfDigits?_of_isDigit (h : ∀ c ∈ s, c.isDigit = true) :
    Text.natOfDigits? s = some (Nat.ofDigitChars 10 s 0) := by
  have digits : ∀ k, s.foldl (fun n c => n.bind fun n => (Text.digitValue? c).map
      fun d => 10 * n + d) (some k) = some (Nat.ofDigitChars 10 s k) := by
    induction s with
    | nil => exact fun k => rfl
    | cons c s ih =>
      rw [List.forall_mem_cons] at h
      intro k
      rw [List.foldl_cons, Option.bind_some, digitValue?_of_isDigit h.1, Option.map_some, ih h.2,
        Nat.ofDigitChars_cons]
  exact digits 0

/-- The digits of a natural number. -/
theorem toList_toString (n : ℕ) : (toString n).toList = Nat.toDigits 10 n :=
  Nat.toList_repr

theorem isDigit_toDigits (n : ℕ) : ∀ c ∈ Nat.toDigits 10 n, c.isDigit = true :=
  fun _ => Nat.isDigit_of_mem_toDigits (by decide) (by decide)

/-- The value of the digits of an integer is that integer. -/
theorem numeralValue_toDigits (exact : reading.exact = true) {n : ℕ} (h : n ≤ 2 ^ 53) :
    numeralValue reading (Nat.toDigits 10 n) pos = .ok (.ofInt n) := by
  have point : ∀ c ∈ Nat.toDigits 10 n, (c != '.') = true := by
    intro c hc
    have digit := isDigit_toDigits n c hc
    rw [bne_iff_ne]
    rintro rfl
    exact absurd digit (by decide)
  have count : (Nat.toDigits 10 n).count '.' = 0 :=
    List.count_eq_zero.mpr fun hc => absurd (point _ hc) (by decide)
  have alone : (Nat.toDigits 10 n == ['.']) = false := by
    rw [beq_eq_false_iff_ne]
    intro same
    rw [same] at count
    exact absurd count (by decide)
  have whole : wholePart (Nat.toDigits 10 n) = Nat.toDigits 10 n :=
    List.takeWhile_eq_self_iff.mpr point
  have fraction : fractionPart (Nat.toDigits 10 n) = [] := by
    rw [fractionPart, List.dropWhile_eq_nil_iff.mpr point, List.drop_nil]
  have quotient : Scalar.ofQuotient n 1 = .ok (.ofInt n) := by
    have factor : Fraction.commonFactor n 1 = 1 := by
      simp [Fraction.commonFactor]
    have lowest : Fraction.lowest n 1 (by decide) = .ofInt n := by
      simp [Fraction.lowest, Fraction.ofInt, factor]
    have narrow : (Fraction.ofInt n).isNarrow = true :=
      Bool.and_eq_true_iff.mpr ⟨decide_eq_true h, rfl⟩
    rw [Scalar.ofQuotient, dif_neg (by decide)]
    simp only [lowest, narrow]
    rfl
  rw [numeralValue, count, alone, exact]
  show exactNumeral _ = _
  unfold exactNumeral
  rw [whole, fraction, natOfDigits?_of_isDigit (isDigit_toDigits n), Nat.ofDigitChars_ten_toDigits]
  show Scalar.ofQuotient (n * 1 + 0 : ℕ) (1 : ℕ) = _
  rw [Nat.mul_one]
  exact quotient

/-- A numeral is read up to its end, and no further. -/
theorem takeWhile_toDigits (n : ℕ) (h : EndsNumeral rest) :
    (Nat.toDigits 10 n ++ rest).takeWhile isNumeralChar = Nat.toDigits 10 n := by
  have stop : rest.takeWhile isNumeralChar = [] := by
    cases rest with
    | nil => rfl
    | cons c rest => exact List.takeWhile_cons_of_neg (by simp [h c rfl])
  rw [List.takeWhile_append_of_pos fun c hc => isNumeralChar_of_isDigit (isDigit_toDigits n c hc),
    stop, List.append_nil]

/-- The digits of an integer are its numeral. -/
theorem reads_numeral (exact : reading.exact = true) {n : ℕ} (h : n ≤ 2 ^ 53) :
    Reads reading allowed Anything EndsNumeral .atom (Nat.toDigits 10 n)
      (· = .number (.ofInt n)) := by
  intro read pos depth rest _ hrest
  obtain ⟨c, cs, digits⟩ := List.exists_cons_of_ne_nil (Nat.toDigits_ne_nil (n := n) (b := 10))
  have digit : c.isDigit = true := isDigit_toDigits n c (by simp [digits])
  have minus : c ≠ '-' := by
    rintro rfl
    exact absurd digit (by decide)
  have token : next reading allowed (continues read) pos depth c (cs ++ rest) =
      .ok ⟨.numeral (.ofInt n), c :: cs, pos⟩ := by
    rw [next, decide_eq_false minus, isNumeralChar_of_isDigit digit]
    show nextNumeral reading pos (c :: cs ++ rest) = _
    rw [nextNumeral, ← digits, takeWhile_toDigits n hrest, numeralValue_toDigits exact h]
    rfl
  rw [digits]
  exact ⟨[⟨.numeral (.ofInt n), c :: cs, pos⟩], _, .number rfl, rfl,
    scan_token token (push_of_function? rfl)⟩

/-- A minus sign belongs to the numeral behind it, where an operand is awaited. -/
theorem reads_negative (exact : reading.exact = true) {n : ℕ} (h : n ≤ 2 ^ 53) :
    Reads reading allowed Awaits EndsNumeral .atom ('-' :: Nat.toDigits 10 n)
      (· = .number (.ofInt (-n))) := by
  intro read pos depth rest hread hrest
  have numeral : (Nat.toDigits 10 n).isEmpty = false := by
    simp [Nat.toDigits_ne_nil]
  have token : next reading allowed (continues read) pos depth '-' (Nat.toDigits 10 n ++ rest) =
      .ok ⟨.numeral (.ofInt (-n)), '-' :: Nat.toDigits 10 n, pos⟩ := by
    rw [next_minus hread.2, nextMinus, takeWhile_toDigits n hrest, numeral,
      numeralValue_toDigits exact h]
    rfl
  exact ⟨[⟨.numeral (.ofInt (-n)), '-' :: Nat.toDigits 10 n, pos⟩], _, .number rfl, rfl,
    scan_token token (push_of_function? rfl)⟩

/-! ## Whole texts -/

/-- A text has tokens that the grammar derives as the phrase that the text is read as. -/
theorem tokenize_reads {text : String} {P : Phrase → Prop}
    (h : Reads reading allowed Awaits Stops .equation (Text.squeeze text.toList) P) :
    ∃ ts p, tokenize reading allowed text = .ok ts ∧ Derives .equation ts p ∧ P p := by
  have awaits : Awaits [] := ⟨nofun, rfl⟩
  have stops : Stops [] := nofun
  obtain ⟨ts, p, derives, hp, scans⟩ := h [] 0 0 [] awaits stops
  refine ⟨ts, p, ?_, derives, hp⟩
  rw [List.append_nil, List.append_nil] at scans
  unfold tokenize tokensOf
  rw [scans, scan, List.reverse_reverse]
  rfl

end Token

end SymbolicAlgebra
