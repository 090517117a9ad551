import SymbolicAlgebra.Proofs.Parse.Peephole

/-!
# The tokens spell the text

Where functions do not cancel, the tokens of a text put one behind the other are the text without
its blanks, each at the position that it has there (`tokenize_lossless`). The lexer is greedy:
a numeral takes all the digits and points there are, a function has the longest symbol that the
text goes on with, and of a minus sign only the token in front of it decides what it is. What
holds of one token where it stands is `Placed`; the lexer finds no others (`next_placed`), and
behind each of them it goes on with the rest of the text (`scan_placed`).

With functions that cancel nothing is said about the text, of which a pair has been left out; the
tokens that remain are `Reduced`.
-/

namespace SymbolicAlgebra

/-- A function is searched for after those with longer symbols. -/
theorem Func.byLength_sorted :
    byLength.Pairwise fun f g => g.symbol.toList.length ≤ f.symbol.toList.length := by
  decide

theorem Func.mem_byLength (f : Func) : f ∈ byLength := by
  cases f <;> decide

namespace Token

variable {reading : Reading} {allowed : Option (List String)} {read ts : List Token}
  {ended : Bool} {pos depth : ℕ} {c : Char} {s rest : List Char} {t : Token} {f : Func}

/-! ## One token -/

/-- No function whose symbol the text goes on with has a longer one. -/
theorem longest_of_functionAt? (h : functionAt? s = some f) :
    f.symbol.toList <+: s ∧
      ∀ g : Func, g.symbol.toList <+: s → g.symbol.toList.length ≤ f.symbol.toList.length := by
  obtain ⟨found, longer, shorter, order, missed⟩ := List.find?_eq_some_iff_append.mp h
  refine ⟨List.isPrefixOf_iff_prefix.mp found, fun g symbol => ?_⟩
  -- those before the first match do not match, and those behind it are no longer
  have sorted := Func.byLength_sorted
  rw [order] at sorted
  have mem := g.mem_byLength
  rw [order, List.mem_append, List.mem_cons] at mem
  rcases mem with before | rfl | after
  · have absent := missed g before
    rw [List.isPrefixOf_iff_prefix.mpr symbol] at absent
    cases absent
  · exact le_rfl
  · exact List.rel_of_pairwise_cons (List.pairwise_append.mp sorted).2.1 after

/-- What holds of a token at a position, behind a complete operand or not, and in front of a
text. -/
structure Placed (ended : Bool) (pos : ℕ) (t : Token) (rest : List Char) : Prop where
  /-- It is known where the token starts. -/
  start : t.pos = pos
  /-- A numeral does not go on behind the token. -/
  numeral : ∀ z, t.kind = .numeral z → EndsNumeral rest
  /-- A function has the longest symbol of all that start here. -/
  function : ∀ f, t.kind = .op (.function f) → t.text = f.symbol.toList ∧
    ∀ g : Func, g.symbol.toList <+: t.text ++ rest →
      g.symbol.toList.length ≤ f.symbol.toList.length
  /-- A minus sign is a subtraction behind a complete operand, and only there. -/
  minus : '-' ∈ t.text → (t.kind = .op (.binary .sub) ↔ ended = true) ∧ (ended = false → t.IsSign)

theorem not_mem_takeWhile_numeral : '-' ∉ s.takeWhile isNumeralChar := fun mem =>
  absurd (List.mem_takeWhile_imp mem) (by decide)

/-- A numeral ends where its digits do. -/
theorem endsNumeral_dropWhile : EndsNumeral (s.dropWhile isNumeralChar) := by
  intro c first
  have stop := List.head?_dropWhile_not isNumeralChar s
  rw [first] at stop
  simpa using stop

/-- A numeral is taken from the text up to its end. -/
theorem placed_nextNumeral (h : nextNumeral reading pos (c :: rest) = .ok t)
    (digit : isNumeralChar c = true) :
    ∃ after, c :: rest = t.text ++ after ∧ t.text ≠ [] ∧ Placed ended pos t after := by
  obtain ⟨v, -, ⟨⟩⟩ := Calc.bind_eq_ok.mp h
  refine ⟨_, List.takeWhile_append_dropWhile.symm, ?_, rfl, fun _ _ => endsNumeral_dropWhile, ?_,
    fun minus => absurd minus not_mem_takeWhile_numeral⟩
  · rw [List.takeWhile_cons_of_pos digit]
    exact List.cons_ne_nil _ _
  · rintro f ⟨⟩

/-- A minus sign in front of an operand is taken alone, or with a numeral. -/
theorem placed_nextMinus (h : nextMinus reading pos rest = .ok t) :
    ∃ after, '-' :: rest = t.text ++ after ∧ t.text ≠ [] ∧ Placed false pos t after := by
  unfold nextMinus at h
  simp only at h
  split at h
  · obtain ⟨⟩ := h
    refine ⟨rest, rfl, List.cons_ne_nil _ _, rfl, ?_, ?_, fun _ =>
      ⟨by simp, fun _ => ⟨rfl, .inl rfl⟩⟩⟩ <;> rintro _ ⟨⟩
  · obtain ⟨v, -, ⟨⟩⟩ := Calc.bind_eq_ok.mp h
    refine ⟨rest.dropWhile isNumeralChar,
      congrArg ('-' :: ·) List.takeWhile_append_dropWhile.symm, List.cons_ne_nil _ _, rfl,
      fun _ _ => endsNumeral_dropWhile, ?_, fun _ => ⟨by simp, fun _ => ⟨rfl, .inr ⟨_, rfl⟩⟩⟩⟩
    rintro f ⟨⟩

/-- A word is taken as the longest name that is there, or as one letter. -/
theorem placed_nextWord (h : nextWord allowed pos c rest = .ok t) (word : signOp? c = none) :
    ∃ after, c :: rest = t.text ++ after ∧ t.text ≠ [] ∧ Placed ended pos t after := by
  have plain : '-' ∉ [c] := by
    intro mem
    obtain rfl := List.mem_singleton.mp mem
    exact absurd word (by decide)
  unfold nextWord at h
  split at h
  next f found =>
    obtain ⟨⟩ := h
    obtain ⟨⟨after, symbol⟩, longest⟩ := longest_of_functionAt? found
    have nonempty : f.symbol.toList ≠ [] := by cases f <;> decide
    have unsigned : '-' ∉ f.symbol.toList := by cases f <;> decide
    refine ⟨after, symbol.symm, nonempty, rfl, ?_, ?_, fun minus => absurd minus unsigned⟩
    · rintro z ⟨⟩
    · rintro _ ⟨rfl⟩
      exact ⟨rfl, by simpa only [symbol] using longest⟩
  split at h
  · obtain ⟨⟩ := h
    refine ⟨rest, rfl, List.cons_ne_nil _ _, rfl, ?_, ?_, fun minus => absurd minus plain⟩ <;>
      rintro _ ⟨⟩
  split at h
  · obtain ⟨⟩ := h
    refine ⟨rest, rfl, List.cons_ne_nil _ _, rfl, ?_, ?_, fun minus => absurd minus plain⟩ <;>
      rintro _ ⟨⟩
  · cases h

/-- What is found at a character is the start of the text, and is placed there. -/
theorem next_placed (h : next reading allowed ended pos depth c rest = .ok t) :
    ∃ after, c :: rest = t.text ++ after ∧ t.text ≠ [] ∧ Placed ended pos t after := by
  unfold next at h
  split at h
  next minus =>
    obtain ⟨rfl, rfl⟩ : c = '-' ∧ ended = false := by simpa using minus
    exact placed_nextMinus h
  next behind =>
    split at h
    next digit => exact placed_nextNumeral h digit
    split at h
    next op symbol =>
      split at h
      · cases h
      · obtain ⟨⟩ := h
        refine ⟨rest, rfl, List.cons_ne_nil _ _, rfl, ?_, ?_, fun minus => ?_⟩
        · rintro z ⟨⟩
        · rintro f ⟨rfl⟩
          exact absurd (List.mem_of_find?_eq_some symbol) (by simp)
        · obtain rfl := List.mem_singleton.mp minus
          have ends : ended = true := by simpa using behind
          obtain rfl : op = .binary .sub := Option.some.inj (symbol.symm.trans (by decide))
          rw [ends]
          exact ⟨by simp, nofun⟩
    next word =>
      split at h
      · exact placed_nextWord h word
      · cases h

/-! ## Whole texts -/

/-- Where functions do not cancel, the tokens that are found behind others spell what is left of
the text, and each is placed there. -/
theorem scan_placed (off : reading.peephole = false)
    (run : scan reading allowed read pos depth s = .ok ts) :
    ∃ us, ts = read.reverse ++ us ∧ us.flatMap Token.text = s ∧ ∀ before t after,
      us = before ++ t :: after → Placed (continues (before.reverse ++ read))
        (pos + (before.flatMap Token.text).length) t (after.flatMap Token.text) := by
  fun_induction scan reading allowed read pos depth s with
  | case1 read pos depth =>
    obtain ⟨⟩ := run
    exact ⟨[], by simp, rfl, fun before t after split => by simp at split⟩
  | case2 read pos depth c rest ih =>
    obtain ⟨t, found, run⟩ := Calc.bind_eq_ok.mp run
    obtain ⟨after, spelled, nonempty, placed⟩ := next_placed found
    -- the first character is off already
    have left : rest.drop (t.text.length - 1) = after := by
      obtain ⟨d, ds, text⟩ := List.exists_cons_of_ne_nil nonempty
      rw [text, List.cons_append] at spelled
      rw [text, (List.cons.inj spelled).2, List.length_cons, Nat.add_sub_cancel, List.drop_left]
    have onward := ih t run
    rw [off, push_off, left] at onward
    obtain ⟨us, rfl, spells, all⟩ := onward
    refine ⟨t :: us, by simp, by rw [List.flatMap_cons, spells, spelled], ?_⟩
    intro before u behind split
    cases before with
    | nil =>
      obtain ⟨rfl, rfl⟩ := List.cons.inj split
      rw [spells]
      exact placed
    | cons v before =>
      obtain ⟨rfl, rfl⟩ := List.cons.inj split
      have placed := all before u behind rfl
      rw [List.reverse_cons, List.append_assoc, List.flatMap_cons, List.length_append,
        ← Nat.add_assoc]
      exact placed

/-- Where functions do not cancel, the tokens spell the text without its blanks and each is placed
where it stands; where they cancel, none stands in front of its inverse. -/
theorem tokenize_lossless {text : String} (run : tokenize reading allowed text = .ok ts) :
    (reading.peephole = false → ts.flatMap Token.text = Text.squeeze text.toList ∧
      ∀ before t after, ts = before ++ t :: after → Placed (continues before.reverse)
        (before.flatMap Token.text).length t (after.flatMap Token.text)) ∧
    (reading.peephole = true → Reduced ts) := by
  refine ⟨fun off => ?_, fun on => ?_⟩
  · obtain ⟨us, rfl, spells, placed⟩ := scan_placed off run
    refine ⟨spells, fun before t after split => ?_⟩
    have placed := placed before t after split
    rwa [List.append_nil, Nat.zero_add] at placed
  · obtain ⟨exact, peephole⟩ := reading
    obtain rfl : peephole = true := on
    exact reduced_tokenize run

/-- The first minus sign of this text is a subtraction and the second one belongs to a numeral; the
last function is not `asin`. The two functions in front of it are found where they stand, and they
vanish if functions cancel. -/
theorem tokenize_lossless_signs :
    let text := "2 x - -3 ln e^ asinh y"
    (∃ ts, tokenize ⟨true, false⟩ none text = .ok ts ∧
      ts.map Token.spelling = ["2", "x", "-", "-3", "ln", "e^", "asinh", "y"] ∧
      ts.flatMap Token.text = Text.squeeze text.toList ∧
      ∀ before t after, ts = before ++ t :: after → Placed (continues before.reverse)
        (before.flatMap Token.text).length t (after.flatMap Token.text)) ∧
    ∃ ts, tokenize ⟨true, true⟩ none text = .ok ts ∧
      ts.map Token.spelling = ["2", "x", "-", "-3", "asinh", "y"] ∧ Reduced ts := by
  intro text
  obtain ⟨all, found, spelled⟩ : ∃ ts, tokenize ⟨true, false⟩ none text = .ok ts ∧
      ts.map Token.spelling = ["2", "x", "-", "-3", "ln", "e^", "asinh", "y"] :=
    Calc.map_eq_ok.mp (by decide +kernel)
  obtain ⟨kept, left, shorter⟩ : ∃ ts, tokenize ⟨true, true⟩ none text = .ok ts ∧
      ts.map Token.spelling = ["2", "x", "-", "-3", "asinh", "y"] :=
    Calc.map_eq_ok.mp (by decide +kernel)
  exact ⟨⟨all, found, spelled, (tokenize_lossless found).1 rfl⟩,
    kept, left, shorter, (tokenize_lossless left).2 rfl⟩

end Token

end SymbolicAlgebra
