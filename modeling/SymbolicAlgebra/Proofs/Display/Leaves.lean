import SymbolicAlgebra.Proofs.Display.Numbers

/-!
# Texts of leaves

The text of a monomial is its coefficient, its variable and its power, written as a product
without a sign. A rational coefficient stands on both sides of the variable, its numerator
before and its denominator behind a slash; one that is not real stands in front, in
parentheses unless it is a multiple of the imaginary unit that needs none.

The text of a leaf is read at least as tightly as `Expr.textPrec` guesses from its characters,
with one exception (`Joined`): `ix` looks like one word, and is a product.
-/

namespace SymbolicAlgebra

/-- The text is a word of several letters. -/
def Joined (s : String) : Prop := Expr.isLong s.toList = true ∧ Text.isWord s.toList = true

/-- A word of several letters is taken for a power at most. -/
theorem Joined.textPrec_le {s : String} (h : Joined s) : Expr.textPrec s ≤ 3 := by
  unfold Expr.textPrec
  dsimp only
  rw [h.1, h.2]
  split_ifs <;> simp_all

/-- The text of a variable with a power. -/
def powerSpelling (name : String) (q : ℚ) : String :=
  if q = 1 then name else name ++ "^" ++ Expr.wrap (q.den ≠ 1) (rationalText q)

/-- The text of an integer in front of a variable. -/
def factorText (k : ℤ) : String := if k = 1 then "" else if k = -1 then "-" else toString k

/-- The text of a variable with a coefficient and a power. -/
def monomialSpelling (name : String) (g : GaussianRat) (q : ℚ) : String :=
  let core := powerSpelling name q
  if g.im = 0 then
    if g.re.den = 1 then factorText g.re.num ++ core
    else factorText g.re.num ++ core ++ "/" ++ toString g.re.den
  else Expr.wrap (!Expr.leadsPlainly (gaussianText g)) (gaussianText g) ++ core

namespace Phrase

/-- What the text of a variable with a power spells. -/
def power (name : String) (q : ℚ) : Phrase :=
  if q = 1 then .letter name else .combine .pow (.letter name) (.rational q)

/-- What an integer in front of a phrase spells. -/
def multiple (k : ℤ) (p : Phrase) : Phrase :=
  if k = 1 then p else if k = -1 then .negate p else .combine .mul (.number (.ofInt k)) p

/-- What the text of a variable with a coefficient and a power spells. -/
def monomial (name : String) (g : GaussianRat) (q : ℚ) : Phrase :=
  let core := power name q
  if g.im = 0 then
    if g.re.den = 1 then multiple g.re.num core
    else .combine .div (multiple g.re.num core) (.number (.ofInt g.re.den))
  else .combine .mul (.gaussian g) core

end Phrase

variable {reading : Reading} {allowed : Option (List String)} {I : Interpretation GaussianRat}
  {σ : String → GaussianRat} {name : String} {k : ℤ} {q : ℚ}

theorem Narrow.natAbs (h : Narrow (k : ℚ)) : k.natAbs ≤ 2 ^ 53 := h.1

theorem rationalText_intCast (k : ℤ) : rationalText k = toString k := if_pos rfl

/-- The text of a power. -/
theorem Expr.powerText_eq [Tolerance] {p : Value} (h : p.Is q) :
    powerText name p = .ok (powerSpelling name q) := by
  have text := h.text_eq
  have isInt := h.isInt_eq
  unfold powerText powerSpelling
  rw [h.same_eq Value.is_one]
  obtain ⟨s, rfl, f, rfl, -⟩ := h
  by_cases one : q = 1
  · rw [if_pos one, decide_eq_true one]
    rfl
  · rw [if_neg one, decide_eq_false one]
    show (Value.isInt (.plain (.exact f)) >>= fun bare => Value.text (.plain (.exact f)) >>=
      fun s => pure (name ++ "^" ++ wrap (!bare) s)) = _
    rw [isInt, text, decide_not]
    rfl

/-- The text of a monomial with an exact coefficient and power. -/
theorem Expr.monomialText_eq [Tolerance] {m : Number} {p : Value} {g : GaussianRat} (hm : m.Is g)
    (hp : p.Is q) : monomialText name m p = .ok (monomialSpelling name g q) := by
  have negOne : (Number.ofInt (-1)).Is (-1) := by
    have one := Number.is_ofInt (n := -1) (by decide)
    rwa [Int.cast_neg, Int.cast_one] at one
  unfold monomialText monomialSpelling
  rw [powerText_eq hp]
  show (Number.same m .one >>= _) = _
  rw [hm.same_eq Number.is_one]
  -- the coefficients one and minus one are left out, and a real one is written as a quotient
  by_cases hg : g = 1
  · subst hg
    rw [decide_eq_true rfl]
    exact congrArg Except.ok String.empty_append.symm
  rw [decide_eq_false hg]
  show (Number.same m _ >>= _) = _
  rw [hm.same_eq negOne]
  by_cases hg' : g = -1
  · subst hg'
    rw [decide_eq_true rfl]
    rfl
  rw [decide_eq_false hg']
  show (Number.isReal m >>= _) = _
  rw [hm.isReal_eq]
  by_cases im : g.im = 0
  · rw [if_pos im, decide_eq_true im]
    obtain ⟨s, re, f, rfl, narrow, value⟩ := hm.1
    obtain ⟨num, den⟩ := f.reduced_parts
    simp only [bind, Except.bind, if_true, re]
    show (Scalar.reduce f >>= _) = _
    rw [Scalar.reduce_eq narrow]
    show Except.ok (coefficientText f.reduced _) = _
    unfold coefficientText factorText
    rw [num, den, value]
    norm_cast
  · rw [if_neg im, decide_eq_false im]
    show leadText m _ = _
    unfold leadText
    rw [hm.text_eq]
    rfl

namespace Token

/-- A variable starts with no numeral, and is not blank. -/
theorem IsVariable.cons (h : IsVariable allowed name) :
    ∃ c, name.toList = [c] ∧ Text.isBlank c = false ∧ isNumeralChar c = false ∧
      Text.isLetter c = true := by
  obtain ⟨c, rfl, blank, numeral, -, letter, -⟩ := h
  exact ⟨c, String.toList_singleton c, blank, numeral, letter⟩

/-- There is no blank in the name of a variable. -/
theorem IsVariable.squeeze_eq (h : IsVariable allowed name) :
    Text.squeeze name.toList = name.toList := by
  obtain ⟨c, text, blank, -⟩ := h.cons
  rw [text, Text.squeeze, List.filter_singleton, blank]
  rfl

/-- The text of a power begins with its variable. -/
theorem squeeze_powerSpelling (h : IsVariable allowed name) (q : ℚ) :
    ∃ c cs, Text.squeeze (powerSpelling name q).toList = c :: cs ∧ isNumeralChar c = false := by
  obtain ⟨c, text, -, numeral, -⟩ := h.cons
  have word := h.squeeze_eq.trans text
  unfold powerSpelling
  split
  · exact ⟨c, [], word, numeral⟩
  · rw [String.append_assoc, Text.squeeze_append, word]
    exact ⟨c, _, rfl, numeral⟩

/-- A variable with a power is read as a power, wherever it stands. -/
theorem reads_power (exact : reading.exact = true) (hname : IsVariable allowed name)
    (hq : Narrow q) :
    Reads reading allowed Anything Stops (if q = 1 then .atom else .power)
      (Text.squeeze (powerSpelling name q).toList) (· = .power name q) := by
  have letter : Reads reading allowed Anything Stops .atom name.toList (· = .letter name) :=
    reads_letter hname
  unfold powerSpelling Phrase.power
  -- the name stands alone for the exponent one; otherwise an exponent follows the caret
  split
  next => rwa [hname.squeeze_eq]
  next =>
    have caret : Text.squeeze "^".toList = ['^'] := by decide
    have sign : signOp? '^' = some (.binary .pow) := by decide
    have rational : Reads reading allowed Awaits Stops (if q.den = 1 then .atom else .product)
        (Text.squeeze (rationalText q).toList) (· = .rational q) :=
      (reads_rational exact hq).stopping
    have exponent : Reads reading allowed Awaits Stops .unary
        (Text.squeeze (Expr.wrap (q.den ≠ 1) (rationalText q)).toList) (· = .rational q) := by
      -- a fraction is written in parentheses, so that only the exponent itself is raised
      by_cases den : q.den = 1
      · rw [if_pos den] at rational
        rw [decide_eq_false (not_not.mpr den)]
        exact rational.unary
      · rw [if_neg den] at rational
        rw [decide_eq_true den, Expr.wrap, if_pos rfl, Text.squeeze_parenthesized]
        have group := ((rational.within .product).within .sum).group
        exact (group.mono (fun _ _ => True.intro) fun _ _ => True.intro).unary
    rw [Text.squeeze_append, Text.squeeze_append, hname.squeeze_eq, caret, List.append_assoc,
      List.singleton_append]
    refine Reads.combine sign (letter.within .atom) exponent ?_
    rintro _ _ rfl rfl
    rfl

/-- What the text of a variable with an integer power spells means this power. -/
theorem means_power (hk : k.natAbs ≤ 2 ^ 53) (defined : σ name ≠ 0 ∨ 0 ≤ k) :
    (Phrase.power name k).Means I σ (σ name ^ k) := by
  have letter : (Phrase.letter name).Means I σ (σ name) := Expr.means_ofName le_rfl name
  unfold Phrase.power
  split
  next one =>
    rw [Int.cast_eq_one.mp one, zpow_one]
    exact letter
  next =>
    rw [Phrase.rational, if_pos (Rat.den_intCast k)]
    exact .pow letter (Number.is_ofInt hk) defined

/-- There is a letter in the text of a power. -/
theorem exists_isLetter (h : IsVariable allowed name) (q : ℚ) :
    ∃ c ∈ (powerSpelling name q).toList, Text.isLetter c = true := by
  obtain ⟨c, text, -, -, letter⟩ := h.cons
  refine ⟨c, ?_, letter⟩
  unfold powerSpelling
  split <;> simp [text]

/-- A text beside a variable is a product at most, if it has other characters than letters. -/
theorem textPrec_beside (h : IsVariable allowed name) (q : ℚ) {s : String} {d : Char}
    (hd : d ∈ s.toList) (other : Text.isLetter d = false) :
    Expr.textPrec (s ++ powerSpelling name q) ≤ 2 := by
  obtain ⟨c, hc, letter⟩ := exists_isLetter h q
  refine Expr.textPrec_of_mixed (c := c) ?_ letter (d := d) ?_ other
  · rw [String.toList_append]
    exact List.mem_append_right _ hc
  · rw [String.toList_append]
    exact List.mem_append_left _ hd

/-- A sum in front of a variable stands in parentheses. -/
theorem leadsPlainly_of_blank {s : String} (h : ' ' ∈ s.toList) : Expr.leadsPlainly s = false := by
  -- dropping the sign leaves the blank where it is
  have rest : Expr.startsNegative s = true →
      Expr.textPrec (String.ofList (s.toList.drop 1)) = 1 := by
    intro negative
    refine Expr.textPrec_of_blank ?_
    unfold Expr.startsNegative at negative
    rw [String.toList_ofList]
    cases text : s.toList with
    | nil => simp [text] at h
    | cons c cs =>
      rw [text] at h negative
      rcases List.mem_cons.mp h with rfl | h
      · cases negative
      · exact h
  unfold Expr.leadsPlainly
  rw [Expr.textPrec_of_blank h]
  cases negative : Expr.startsNegative s with
  | false => rfl
  | true =>
    rw [rest negative]
    rfl

/-- Only an imaginary coefficient stands in front of a variable as it is. -/
theorem re_of_leadsPlainly {g : GaussianRat} (im : g.im ≠ 0)
    (plain : Expr.leadsPlainly (gaussianText g) = true) : g.re = 0 := by
  by_contra re
  have blank : ' ' ∈ (gaussianText g).toList := by
    rw [gaussianText, if_neg im, if_neg re]
    split <;> simp
  rw [leadsPlainly_of_blank blank] at plain
  cases plain

/-- A coefficient that is not real makes a product of the text, or joins the variable in one
word. -/
theorem textPrec_complex (h : IsVariable allowed name) (q : ℚ) {g : GaussianRat} (im : g.im ≠ 0) :
    Expr.textPrec (Expr.wrap (!Expr.leadsPlainly (gaussianText g)) (gaussianText g) ++
        powerSpelling name q) ≤ 2 ∨
      Joined (Expr.wrap (!Expr.leadsPlainly (gaussianText g)) (gaussianText g) ++
        powerSpelling name q) := by
  cases plain : Expr.leadsPlainly (gaussianText g) with
  | false =>
    refine .inl (textPrec_beside h q (d := '(') ?_ (by decide +kernel))
    simp [Expr.wrap, Expr.parenthesized]
  | true =>
    rw [Bool.not_true, Expr.wrap, if_neg Bool.false_ne_true, gaussianText, if_neg im,
      if_pos (re_of_leadsPlainly im plain), imaginaryText]
    -- what leads plainly is imaginary: `i` alone, with a minus, or behind a number
    split_ifs with one negOne
    · obtain ⟨c, text, -, -, letter⟩ := h.cons
      unfold powerSpelling
      split
      · right
        have word : ("i" ++ name).toList = ['i', c] := by
          rw [String.toList_append, text]
          rfl
        rw [Joined, word]
        refine ⟨rfl, ?_⟩
        have unit : Text.isLetter 'i' = true := by decide
        rw [Text.isWord, List.all_cons, List.all_cons, unit, letter]
        rfl
      · exact .inl (Expr.textPrec_of_mixed (c := 'i') (by simp) (by decide) (d := '^') (by simp)
          (by decide +kernel))
    · exact .inl (textPrec_beside h q (d := '-') (by simp) (by decide +kernel))
    · obtain ⟨d, hd, digit⟩ := exists_isDigit_rational g.im
      refine .inl (textPrec_beside h q (d := d) ?_ (Text.isLetter_of_isDigit digit))
      simp [hd]

/-- What an integer in front of a phrase spells means a multiple of it. -/
theorem means_multiple {p : Phrase} {a : GaussianRat} {n : ℤ} (hn : n.natAbs ≤ 2 ^ 53)
    (hp : p.Means I σ a) : (Phrase.multiple n p).Means I σ (n * a) := by
  unfold Phrase.multiple
  split_ifs with one negOne
  · rwa [one, Int.cast_one, one_mul]
  · rw [negOne, Int.cast_neg, Int.cast_one, neg_one_mul]
    exact Phrase.means_negate hp
  · exact .mul (means_integer hn) hp

/-- What the text of a monomial spells means the monomial. -/
theorem means_monomial {g : GaussianRat} (hre : Narrow g.re) (him : Narrow g.im)
    (hk : k.natAbs ≤ 2 ^ 53) (defined : σ name ≠ 0 ∨ 0 ≤ k) :
    (Phrase.monomial name g k).Means I σ (g * σ name ^ k) := by
  have core : (Phrase.power name k).Means I σ (σ name ^ k) := means_power hk defined
  unfold Phrase.monomial
  dsimp only
  -- a whole coefficient, a fraction, and a complex number
  split_ifs with im den
  · have value : (g.re.num : GaussianRat) = g :=
      (gaussian_of_den den).symm.trans (QuadraticAlgebra.ext rfl im.symm)
    have multiple := means_multiple hre.1 core
    rwa [value] at multiple
  · have real : g = ⟨g.re, 0⟩ := QuadraticAlgebra.ext rfl im
    have value : g * σ name ^ k =
        Binary.div.value ((g.re.num : GaussianRat) * σ name ^ k) ((g.re.den : ℤ) : GaussianRat) :=
      (congrArg (· * σ name ^ k) (real.trans (gaussian_eq g.re))).trans
        (div_mul_eq_mul_div (g.re.num : GaussianRat) _ _)
    rw [value]
    exact Phrase.means_binary nofun (means_multiple hre.1 core) (means_integer hre.2)
      fun _ => gaussian_den_ne_zero g.re
  · exact .mul (means_gaussian hre him) core

variable (exact : reading.exact = true) (hname : IsVariable allowed name) (hq : Narrow q)
include exact hname hq

/-- The text of a variable with a power is read as this power. -/
theorem reads_core : Reads reading allowed Anything Stops .power
    (Text.squeeze (powerSpelling name q).toList) (· = .power name q) := by
  have core := reads_power exact hname hq
  split at core
  · exact (core.within .atom).within .powerBase
  · exact core

/-- A factor in front of a variable. -/
theorem reads_multiple {s : List Char} {p : Phrase} {after : List Char → Prop}
    (factor : Reads reading allowed Awaits after .product s (· = p))
    (joined : ∀ c cs, isNumeralChar c = false → after (c :: cs)) :
    Reads reading allowed Awaits Stops .product
      (s ++ Text.squeeze (powerSpelling name q).toList)
      (· = .combine .mul p (.power name q)) := by
  obtain ⟨c, cs, text, numeral⟩ := squeeze_powerSpelling hname q
  have core := reads_core exact hname hq
  refine factor.multiply (core.mono (fun _ _ => True.intro) fun _ => id) (fun rest _ => ?_) ?_
  · rw [text]
    exact joined c (cs ++ rest) numeral
  · rintro _ _ rfl rfl
    rfl

/-- A minus sign in front of a variable. -/
theorem reads_opposite : Reads reading allowed Awaits Stops .product
    ('-' :: Text.squeeze (powerSpelling name q).toList) (· = .negate (.power name q)) := by
  obtain ⟨c, cs, text, numeral⟩ := squeeze_powerSpelling hname q
  have core := (reads_core exact hname hq).awaiting
  rw [text] at core ⊢
  refine (((core.within .power).negate numeral ?_).within .signed).within .unary
  rintro _ rfl
  rfl

/-- An integer in front of a variable. -/
theorem reads_factorText {n : ℤ} (hn : n.natAbs ≤ 2 ^ 53) :
    Reads reading allowed Awaits Stops .product
      (Text.squeeze (factorText n ++ powerSpelling name q).toList)
      (· = .multiple n (.power name q)) := by
  rw [Text.squeeze_append]
  unfold factorText Phrase.multiple
  split_ifs with one negOne
  · exact ((reads_core exact hname hq).awaiting.within .power).within .unary
  · exact reads_opposite exact hname hq
  · have integer : Reads reading allowed Awaits EndsNumeral .atom
        (Text.squeeze (toString n).toList) (· = .number (.ofInt n)) :=
      reads_integer exact hn
    refine reads_multiple exact hname hq (integer.unary.within .unary) ?_
    rintro c cs numeral _ ⟨rfl⟩
    exact numeral

/-- A rational coefficient on both sides of a variable. -/
theorem reads_quotient {r : ℚ} (hr : Narrow r) : Reads reading allowed Awaits Stops .product
    (Text.squeeze (factorText r.num ++ powerSpelling name q ++ "/" ++ toString r.den).toList)
    (· = .combine .div (.multiple r.num (.power name q)) (.number (.ofInt r.den))) := by
  have slash : Text.squeeze "/".toList = ['/'] := by decide
  have sign : signOp? '/' = some (.binary .div) := by decide
  have den : Reads reading allowed Awaits Stops .unary (Nat.toDigits 10 r.den)
      (· = .number (.ofInt r.den)) :=
    (reads_numeral exact hr.2).awaiting.stopping.unary
  rw [Text.squeeze_append, Text.squeeze_append _ "/", Text.squeeze_toString, slash,
    List.append_assoc, List.singleton_append]
  refine Reads.combine sign (reads_factorText exact hname hq hr.1) den ?_
  rintro _ _ rfl rfl
  rfl

/-- A coefficient that is not real in front of a variable. -/
theorem reads_complex {g : GaussianRat} (hre : Narrow g.re) (him : Narrow g.im) (im : g.im ≠ 0) :
    Reads reading allowed Awaits Stops .product
      (Text.squeeze (Expr.wrap (!Expr.leadsPlainly (gaussianText g)) (gaussianText g) ++
        powerSpelling name q).toList) (· = .combine .mul (.gaussian g) (.power name q)) := by
  rw [Text.squeeze_append]
  -- a coefficient that does not lead plainly is put into parentheses
  cases plain : Expr.leadsPlainly (gaussianText g) with
  | false =>
    obtain ⟨n, text, -⟩ : ∃ n, Reads reading allowed Awaits Stops (.ofPrec n)
        (Text.squeeze (gaussianText g).toList) (· = .gaussian g) ∧ _ :=
      reads_gaussian exact hre him
    have group := (text.loosen (Nat.zero_le n)).group.awaiting.unary.within .unary
    rw [Bool.not_false, Expr.wrap, if_pos rfl, Text.squeeze_parenthesized]
    exact reads_multiple exact hname hq group fun _ _ _ => True.intro
  | true =>
    have re := re_of_leadsPlainly im plain
    have imaginary : Reads reading allowed Awaits Anything .product
        (Text.squeeze (imaginaryText g.im).toList) (· = .imaginary g.im) :=
      reads_imaginary exact him
    rw [Bool.not_true, Expr.wrap, if_neg Bool.false_ne_true, gaussianText, if_neg im, if_pos re,
      Phrase.gaussian, if_neg im, if_pos re]
    exact reads_multiple exact hname hq imaginary fun _ _ _ => True.intro

/-- How tightly an integer in front of a variable is read with it. -/
theorem reads_factor {n : ℤ} (hn : n.natAbs ≤ 2 ^ 53) :
    ∃ d, Reads reading allowed Awaits Stops (.ofPrec d)
      (Text.squeeze (factorText n ++ powerSpelling name q).toList)
      (· = .multiple n (.power name q)) ∧
        Expr.textPrec (factorText n ++ powerSpelling name q) ≤ d := by
  -- the factor one is left out, and the power stands alone
  by_cases one : n = 1
  · have core := (reads_power exact hname hq).awaiting
    have text : factorText n ++ powerSpelling name q = powerSpelling name q := by
      rw [factorText, if_pos one, String.empty_append]
    rw [text, Phrase.multiple, if_pos one]
    split at core
    next => exact ⟨9, core, Expr.textPrec_le_nine _⟩
    next other =>
      refine ⟨3, core, Expr.textPrec_of_power ?_⟩
      rw [powerSpelling, if_neg other]
      simp
  refine ⟨2, reads_factorText exact hname hq hn, ?_⟩
  rw [factorText, if_neg one]
  split
  · refine Expr.textPrec_of_minus ?_
    rw [String.toList_append]
    rfl
  · obtain ⟨d, hd, digit⟩ := exists_isDigit_toString n
    exact textPrec_beside hname q hd (Text.isLetter_of_isDigit digit)

/-- How tightly the text of a monomial is read. -/
theorem reads_monomial {g : GaussianRat} (hre : Narrow g.re) (him : Narrow g.im) :
    ∃ n, Reads reading allowed Awaits Stops (.ofPrec n)
      (Text.squeeze (monomialSpelling name g q).toList) (· = .monomial name g q) ∧
      (Expr.textPrec (monomialSpelling name g q) ≤ n ∨
        n = 2 ∧ Joined (monomialSpelling name g q)) := by
  unfold monomialSpelling Phrase.monomial
  dsimp only
  split_ifs with im den
  · obtain ⟨n, factor, prec⟩ := reads_factor exact hname hq hre.1
    exact ⟨n, factor, .inl prec⟩
  · exact ⟨2, reads_quotient exact hname hq hre, .inl (Expr.textPrec_of_slash (by simp))⟩
  · refine ⟨2, reads_complex exact hname hq hre him im, ?_⟩
    exact (textPrec_complex hname q im).imp_right fun joined => ⟨rfl, joined⟩

end Token

end SymbolicAlgebra
