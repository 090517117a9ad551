import SymbolicAlgebra.Expr.Display
import SymbolicAlgebra.Number.Display
import SymbolicAlgebra.Proofs.Parse.Sound

/-!
# Texts of numbers

The text of an exact number depends only on the Gaussian rational that it stands for, however
its parts are written (`Number.text_eq`), and it is read as a phrase that means this Gaussian
rational (`Number.reads_text`). A real or imaginary part is an integer or a quotient of
integers, and the imaginary unit stands behind its part without a sign.

How tightly a text is read is compared with `Expr.textPrec`, which guesses it from the
characters: a blank makes a sum, and a sign in front, a quotient, or letters beside other
characters make a product.
-/

namespace SymbolicAlgebra

/-! ## Rational numbers -/

/-- The text of a rational number. -/
def rationalText (q : ℚ) : String :=
  if q.den = 1 then toString q.num else toString q.num ++ "/" ++ toString q.den

/-- What the text of a rational number spells. -/
def Phrase.rational (q : ℚ) : Phrase :=
  if q.den = 1 then .number (.ofInt q.num)
  else .combine .div (.number (.ofInt q.num)) (.number (.ofInt q.den))

namespace Value

variable {v : Value} {q : ℚ}

/-- The text of an exact value is that of what it stands for, in lowest terms. -/
theorem Is.text_eq [Tolerance] (h : v.Is q) : v.text = .ok (rationalText q) := by
  obtain ⟨s, rfl, f, rfl, narrow, rfl⟩ := h
  obtain ⟨num, den⟩ := f.reduced_parts
  show Scalar.text (.exact f) = _
  rw [Scalar.text, Scalar.reduce_eq narrow]
  show Except.ok f.reduced.lowestText = _
  rw [Fraction.lowestText, num, den, rationalText]
  norm_cast

end Value

/-! ### Characters -/

namespace Text

theorem squeeze_append (s t : String) :
    squeeze (s ++ t).toList = squeeze s.toList ++ squeeze t.toList := by
  rw [String.toList_append, squeeze, List.filter_append]
  rfl

/-- Parentheses are no blanks. -/
theorem squeeze_parenthesized (s : String) :
    squeeze (Expr.parenthesized s).toList = '(' :: squeeze s.toList ++ [')'] := by
  have opening : squeeze "(".toList = ['('] := by decide
  have closing : squeeze ")".toList = [')'] := by decide
  rw [Expr.parenthesized, squeeze_append, squeeze_append, opening, closing, List.singleton_append]

/-- Digits are no blanks. -/
theorem squeeze_toString (n : ℕ) : squeeze (toString n).toList = Nat.toDigits 10 n := by
  rw [Token.toList_toString, squeeze, List.filter_eq_self]
  intro c hc
  rw [Token.isBlank_of_isDigit (Token.isDigit_toDigits n c hc)]
  rfl

end Text

namespace Token

variable {reading : Reading} {allowed : Option (List String)} {I : Interpretation GaussianRat}
  {σ : String → GaussianRat}

/-- The text of an integer, with its sign. -/
theorem reads_integer (exact : reading.exact = true) {k : ℤ} (h : k.natAbs ≤ 2 ^ 53) :
    Reads reading allowed Awaits EndsNumeral .atom (Text.squeeze (toString k).toList)
      (· = .number (.ofInt k)) := by
  cases k with
  | ofNat n =>
    have text : toString (Int.ofNat n) = toString n := rfl
    rw [text, Text.squeeze_toString]
    exact (reads_numeral exact h).mono (fun _ _ => True.intro) fun _ => id
  | negSucc n =>
    have text : toString (Int.negSucc n) = "-" ++ toString (n + 1) := rfl
    rw [text, Text.squeeze_append, Text.squeeze_toString]
    exact reads_negative exact h

theorem means_integer {k : ℤ} (h : k.natAbs ≤ 2 ^ 53) :
    (Phrase.number (.ofInt k)).Means I σ k :=
  Expr.means_ofInt h

theorem gaussian_intCast (k : ℤ) : (k : GaussianRat) = ⟨k, 0⟩ := rfl

theorem gaussian_of_den {q : ℚ} (h : q.den = 1) : (⟨q, 0⟩ : GaussianRat) = (q.num : GaussianRat) := by
  rw [gaussian_intCast, Rat.coe_int_num_of_den_eq_one h]

/-- The denominator is not zero among the Gaussian rationals either. -/
theorem gaussian_den_ne_zero (q : ℚ) : ((q.den : ℤ) : GaussianRat) ≠ 0 := by
  intro zero
  have re := congrArg QuadraticAlgebra.re zero
  exact q.den_ne_zero (by exact_mod_cast re)

/-- A rational number is the quotient of its parts. -/
theorem gaussian_eq (q : ℚ) :
    (⟨q, 0⟩ : GaussianRat) = Binary.div.value (q.num : GaussianRat) ((q.den : ℤ) : GaussianRat) := by
  refine (eq_div_iff (gaussian_den_ne_zero q)).mpr ?_
  rw [gaussian_intCast, gaussian_intCast]
  ext
  · simp [Rat.mul_den_eq_num q]
  · simp

/-- The text of a rational number is an integer or a quotient of two. -/
theorem reads_rational (exact : reading.exact = true) {q : ℚ} (h : Narrow q) :
    Reads reading allowed Awaits EndsNumeral (if q.den = 1 then .atom else .product)
      (Text.squeeze (rationalText q).toList) (· = .rational q) := by
  have num : Reads reading allowed Awaits EndsNumeral .atom
      (Text.squeeze (toString q.num).toList) (· = .number (.ofInt q.num)) :=
    reads_integer exact h.1
  unfold rationalText Phrase.rational
  -- an integer is a single numeral, and a fraction a quotient of two
  split
  next => exact num
  next =>
    have den : Reads reading allowed Anything EndsNumeral .atom (Nat.toDigits 10 q.den)
        (· = .number (.ofInt q.den)) :=
      reads_numeral exact h.2
    have slash : Text.squeeze "/".toList = ['/'] := by decide
    rw [Text.squeeze_append, Text.squeeze_append, Text.squeeze_toString, slash, List.append_assoc,
      List.singleton_append]
    have sign : signOp? '/' = some (.binary .div) := by decide
    refine Reads.combine sign (num.stopping.unary.within .unary) den.awaiting.unary ?_
    rintro _ _ rfl rfl
    rfl

/-- The phrase of a rational number means the number. -/
theorem means_rational {q : ℚ} (h : Narrow q) : (Phrase.rational q).Means I σ ⟨q, 0⟩ := by
  unfold Phrase.rational
  split
  next den =>
    rw [gaussian_of_den den]
    exact means_integer h.1
  next =>
    rw [gaussian_eq]
    exact Phrase.means_binary nofun (means_integer h.1) (means_integer h.2)
      fun _ => gaussian_den_ne_zero q

end Token

/-! ## Complex numbers -/

/-- The text of an imaginary number. -/
def imaginaryText (q : ℚ) : String :=
  if q = 1 then "i" else if q = -1 then "-i" else rationalText q ++ "i"

/-- The text of a Gaussian rational. -/
def gaussianText (g : GaussianRat) : String :=
  if g.im = 0 then rationalText g.re
  else if g.re = 0 then imaginaryText g.im
  else rationalText g.re ++ (if 0 < g.im then " + " else " - ") ++ imaginaryText |g.im|

/-- What the text of an imaginary number spells. -/
def Phrase.imaginary (q : ℚ) : Phrase :=
  if q = 1 then .number .i
  else if q = -1 then .negate (.number .i)
  else .combine .mul (.rational q) (.number .i)

/-- What the text of a Gaussian rational spells. -/
def Phrase.gaussian (g : GaussianRat) : Phrase :=
  if g.im = 0 then .rational g.re
  else if g.re = 0 then .imaginary g.im
  else .combine (if 0 < g.im then .add else .sub) (.rational g.re) (.imaginary |g.im|)

theorem toString_neg {k : ℤ} (h : 0 < k) : toString (-k) = "-" ++ toString k := by
  obtain ⟨n, rfl⟩ : ∃ n : ℕ, k = (n + 1 : ℕ) := ⟨k.toNat - 1, by omega⟩
  rfl

/-- A negative rational number is written with a minus sign in front. -/
theorem rationalText_neg {q : ℚ} (h : 0 < q) : rationalText (-q) = "-" ++ rationalText q := by
  unfold rationalText
  rw [Rat.neg_den, Rat.neg_num, toString_neg (Rat.num_pos.mpr h)]
  split
  · rfl
  · rw [String.append_assoc, String.append_assoc, String.append_assoc]

/-- A negative imaginary number is written with a minus sign in front. -/
theorem imaginaryText_neg {q : ℚ} (h : 0 < q) : imaginaryText (-q) = "-" ++ imaginaryText q := by
  unfold imaginaryText
  have one : -q ≠ 1 := by linarith
  have negOne : q ≠ -1 := by linarith
  rw [if_neg one, if_neg negOne]
  by_cases hq : q = 1
  · rw [if_pos hq, if_pos (neg_inj.mpr hq)]
    rfl
  · rw [if_neg hq, if_neg (mt neg_inj.mp hq), rationalText_neg h, String.append_assoc]

namespace Value

variable [Tolerance] {v : Value} {q : ℚ}

/-- The absolute value of an exact value is exact. -/
theorem Is.abs_eq (h : v.Is q) : ∃ w, v.abs = .ok w ∧ w.Is |q| := by
  obtain ⟨n, sgn, -, negative⟩ := h.sgn_eq
  obtain ⟨s, rfl, hs⟩ := h
  unfold abs
  rw [sgn]
  by_cases hn : n < 0
  · refine ⟨.plain s.neg, if_pos hn, _, rfl, ?_⟩
    rw [abs_of_neg (negative.mp hn)]
    exact hs.neg
  · refine ⟨.plain s, if_neg hn, _, rfl, ?_⟩
    rw [abs_of_nonneg (not_lt.mp (mt negative.mpr hn))]
    exact hs

end Value

namespace Number

variable [Tolerance] {z : Number} {g : GaussianRat}

/-- The text of a positive imaginary part is that of what it stands for. -/
theorem imaginaryText_eq {v : Value} {q : ℚ} (hv : v.Is q) (h : 0 < q) :
    imaginaryText v = .ok (SymbolicAlgebra.imaginaryText q) := by
  have text := hv.text_eq
  have one := hv.same_eq Value.is_one
  have negOne : q ≠ -1 := by linarith
  obtain ⟨s, rfl, f, rfl, -⟩ := hv
  rw [imaginaryText, one, SymbolicAlgebra.imaginaryText, if_neg negOne]
  by_cases hq : q = 1
  · rw [if_pos hq, decide_eq_true hq]
    rfl
  · rw [if_neg hq, decide_eq_false hq]
    show (Value.text _ >>= fun s => pure (s ++ "i")) = _
    rw [text]
    rfl

/-- The text of an exact number depends only on what it stands for. -/
theorem Is.text_eq (h : z.Is g) : z.text = .ok (gaussianText g) := by
  unfold text gaussianText
  rw [h.2.isZero_eq]
  by_cases im : g.im = 0
  · rw [if_pos im, decide_eq_true im]
    exact h.1.text_eq
  · obtain ⟨w, abs, hw⟩ := h.2.abs_eq
    obtain ⟨n, sgn, positive, -⟩ := h.2.sgn_eq
    rw [if_neg im, decide_eq_false im, abs]
    show (imaginaryText w >>= _) = _
    rw [imaginaryText_eq hw (abs_pos.mpr im), h.1.isZero_eq, sgn, h.1.text_eq]
    -- without a real part the sign belongs to the imaginary one, and joins the two otherwise
    by_cases re : g.re = 0
    · rw [if_pos re, decide_eq_true re]
      by_cases hn : 0 < n
      · rw [abs_of_pos (positive.mp hn)]
        exact congrArg Except.ok (if_pos hn)
      · have negative : g.im < 0 := lt_of_le_of_ne (not_lt.mp (mt positive.mpr hn)) im
        have opposite := SymbolicAlgebra.imaginaryText_neg (neg_pos.mpr negative)
        rw [neg_neg] at opposite
        rw [abs_of_neg negative, opposite]
        exact congrArg Except.ok (if_neg hn)
    · rw [if_neg re, decide_eq_false re]
      by_cases hn : 0 < n
      · rw [if_pos (positive.mp hn)]
        show Except.ok (_ ++ (if 0 < n then _ else _) ++ _) = _
        rw [if_pos hn]
      · rw [if_neg (mt positive.mpr hn)]
        show Except.ok (_ ++ (if 0 < n then _ else _) ++ _) = _
        rw [if_neg hn]

end Number

/-! ### How tightly a text binds -/

namespace Text

/-- Digits are no letters. -/
theorem isLetter_of_isDigit {c : Char} (h : c.isDigit = true) : isLetter c = false := by
  have ranges : ∀ r ∈ letters, 57 < r.1 := by decide +kernel
  have high := (Token.isDigit_bounds h).2
  refine List.any_eq_false.mpr fun r hr => ?_
  have low := ranges r hr
  simp only [Bool.and_eq_true, decide_eq_true_iff, not_and_or]
  omega

end Text

namespace Expr

variable {s : String} {c d : Char}

theorem textPrec_le_nine (s : String) : textPrec s ≤ 9 := by
  unfold textPrec atomPrec
  dsimp only
  split_ifs <;> decide

theorem textPrec_of_blank (h : ' ' ∈ s.toList) : textPrec s = 1 := by
  unfold textPrec
  exact if_pos (List.contains_iff_mem.mpr h)

/-- A text with a slash is a product at most. -/
theorem textPrec_of_slash (h : '/' ∈ s.toList) : textPrec s ≤ 2 := by
  unfold textPrec
  dsimp only
  rw [List.contains_iff_mem.mpr h]
  split_ifs <;> simp_all

/-- A text that begins with a minus sign is a product at most. -/
theorem textPrec_of_minus (h : s.toList.head? = some '-') : textPrec s ≤ 2 := by
  unfold textPrec
  dsimp only
  rw [h]
  split_ifs <;> simp_all

/-- A text with a power sign in it is a power at most. -/
theorem textPrec_of_power (h : '^' ∈ s.toList) : textPrec s ≤ 3 := by
  unfold textPrec
  dsimp only
  rw [List.contains_iff_mem.mpr h]
  split_ifs <;> simp_all

/-- A text with letters and other characters is a product at most. -/
theorem textPrec_of_mixed (hc : c ∈ s.toList) (letter : Text.isLetter c = true)
    (hd : d ∈ s.toList) (other : Text.isLetter d = false) : textPrec s ≤ 2 := by
  have word : Text.isWord s.toList = false := by
    rw [Text.isWord, Bool.and_eq_false_iff]
    exact .inr (List.all_eq_false.mpr ⟨d, hd, by simp [other]⟩)
  have any : s.toList.any Text.isLetter = true := List.any_eq_true.mpr ⟨c, hc, letter⟩
  have long : isLong s.toList = true := by
    match h : s.toList, hc, hd with
    | [a], hc, hd =>
      rw [List.mem_singleton] at hc hd
      rw [hc, ← hd, other] at letter
      cases letter
    | a :: b :: rest, _, _ => simp [isLong]
  unfold textPrec
  dsimp only
  rw [word, any, long]
  split_ifs <;> simp_all

end Expr

namespace Token

variable {reading : Reading} {allowed : Option (List String)} {I : Interpretation GaussianRat}
  {σ : String → GaussianRat} {q : ℚ}

theorem means_i : (Phrase.number .i).Means I σ ⟨0, 1⟩ :=
  .number ⟨⟨0, 1⟩, ⟨Value.is_zero, Value.is_one⟩, rfl⟩

theorem endsNumeral_i (rest : List Char) : EndsNumeral ('i' :: rest) := by
  rintro _ ⟨rfl⟩
  decide

/-- The text of an imaginary number is a product, whatever follows it. -/
theorem reads_imaginary (exact : reading.exact = true) (h : Narrow q) :
    Reads reading allowed Awaits Anything .product (Text.squeeze (imaginaryText q).toList)
      (· = .imaginary q) := by
  have unit : Reads reading allowed Anything Anything .atom ['i'] (· = .number .i) := reads_i
  have i : Text.squeeze "i".toList = ['i'] := by decide
  unfold imaginaryText Phrase.imaginary
  -- the unit alone, the unit with a minus, and a rational in front of it
  split_ifs with one negOne
  · rw [i]
    exact unit.awaiting.unary.within .unary
  · have minus : Text.squeeze "-i".toList = ['-', 'i'] := by decide
    rw [minus]
    refine ((unit.awaiting.unary.negate (by decide) ?_).within .signed).within .unary
    rintro _ rfl
    rfl
  · have factor : Reads reading allowed Awaits EndsNumeral (if q.den = 1 then .atom else .product)
        (Text.squeeze (rationalText q).toList) (· = .rational q) :=
      reads_rational exact h
    have product : Reads reading allowed Awaits EndsNumeral .product
        (Text.squeeze (rationalText q).toList) (· = .rational q) := by
      split at factor
      · exact factor.unary.within .unary
      · exact factor
    have behind : Reads reading allowed Plain Anything .power ['i'] (· = .number .i) :=
      ((unit.within .atom).within .powerBase).mono (fun _ _ => True.intro) fun _ => id
    rw [Text.squeeze_append, i]
    refine product.multiply behind (fun rest _ => endsNumeral_i rest) ?_
    rintro _ _ rfl rfl
    rfl

/-- The phrase of an imaginary number means the number. -/
theorem means_imaginary (h : Narrow q) : (Phrase.imaginary q).Means I σ ⟨0, q⟩ := by
  unfold Phrase.imaginary
  split_ifs with one negOne
  · rw [one]
    exact means_i
  · have value : (⟨0, q⟩ : GaussianRat) = -⟨0, 1⟩ := by
      ext <;> simp [negOne]
    rw [value]
    exact Phrase.means_negate means_i
  · have value : (⟨0, q⟩ : GaussianRat) = ⟨q, 0⟩ * ⟨0, 1⟩ := by
      ext <;> simp
    rw [value]
    exact .mul (means_rational h) means_i

/-- There is a digit in the text of an integer. -/
theorem exists_isDigit_toString (k : ℤ) : ∃ d ∈ (toString k).toList, d.isDigit = true := by
  have digits : ∀ n : ℕ, ∃ d ∈ (toString n).toList, d.isDigit = true := by
    intro n
    rw [toList_toString]
    obtain ⟨c, hc⟩ := List.exists_mem_of_ne_nil _ (Nat.toDigits_ne_nil (n := n) (b := 10))
    exact ⟨c, hc, isDigit_toDigits n c hc⟩
  cases k with
  | ofNat n => exact digits n
  | negSucc n =>
    obtain ⟨d, hd, digit⟩ := digits (n + 1)
    have text : toString (Int.negSucc n) = "-" ++ toString (n + 1) := rfl
    rw [text, String.toList_append]
    exact ⟨d, List.mem_append_right _ hd, digit⟩

/-- There is a digit in the text of a rational number. -/
theorem exists_isDigit_rational (q : ℚ) : ∃ d ∈ (rationalText q).toList, d.isDigit = true := by
  obtain ⟨d, hd, digit⟩ := exists_isDigit_toString q.num
  refine ⟨d, ?_, digit⟩
  unfold rationalText
  split
  · exact hd
  · rw [String.toList_append, String.toList_append]
    exact List.mem_append_left _ (List.mem_append_left _ hd)

/-- The text of a rational number that is no integer has a slash in it. -/
theorem textPrec_rational (h : q.den ≠ 1) : Expr.textPrec (rationalText q) ≤ 2 := by
  refine Expr.textPrec_of_slash ?_
  rw [rationalText, if_neg h]
  simp

/-- The text of an imaginary number has digits in it, or a minus sign, beside its letter. -/
theorem textPrec_imaginary (h : q ≠ 1) : Expr.textPrec (imaginaryText q) ≤ 2 := by
  unfold imaginaryText
  rw [if_neg h]
  split
  · decide
  · obtain ⟨d, hd, digit⟩ := exists_isDigit_rational q
    refine Expr.textPrec_of_mixed (c := 'i') ?_ (by decide) (d := d) ?_
      (Text.isLetter_of_isDigit digit)
    · simp
    · simp [hd]

/-- How tightly the text of a Gaussian rational is read. -/
theorem reads_gaussian (exact : reading.exact = true) {g : GaussianRat} (hre : Narrow g.re)
    (him : Narrow g.im) :
    ∃ n, Reads reading allowed Awaits Stops (.ofPrec n) (Text.squeeze (gaussianText g).toList)
      (· = .gaussian g) ∧ Expr.textPrec (gaussianText g) ≤ n := by
  have real : Reads reading allowed Awaits Stops (if g.re.den = 1 then .atom else .product)
      (Text.squeeze (rationalText g.re).toList) (· = .rational g.re) :=
    (reads_rational exact hre).stopping
  have imaginary : ∀ {q : ℚ}, Narrow q → Reads reading allowed Awaits Stops .product
      (Text.squeeze (imaginaryText q).toList) (· = .imaginary q) := fun hq =>
    (reads_imaginary exact hq).mono (fun _ => id) fun _ _ => True.intro
  have summand : Reads reading allowed Awaits Stops .sum (Text.squeeze (rationalText g.re).toList)
      (· = .rational g.re) := by
    split at real
    · exact real.loosen (n := 9) (m := 1) (by decide)
    · exact real.within .product
  have sum : ∀ {op : Binary} {c : Char}, op.category = .sum → signOp? c = some (.binary op) →
      Reads reading allowed Awaits Stops .sum (Text.squeeze (rationalText g.re).toList ++
        c :: Text.squeeze (imaginaryText |g.im|).toList)
        (· = .combine op (.rational g.re) (.imaginary |g.im|)) := by
    intro op c category sign
    have left : op.leftCategory = .sum := by
      cases op <;> first | rfl | cases category
    have right : op.rightCategory = .product := by
      cases op <;> first | rfl | cases category
    rw [← category]
    refine Reads.combine sign (left ▸ summand) (right ▸ imaginary him.abs) ?_
    rintro _ _ rfl rfl
    rfl
  unfold gaussianText Phrase.gaussian
  -- a real number, an imaginary one, and a sum or a difference
  split_ifs with im re positive
  · split at real
    next => exact ⟨9, real, Expr.textPrec_le_nine _⟩
    next den => exact ⟨2, real, textPrec_rational den⟩
  · by_cases one : g.im = 1
    · -- the unit alone needs no parentheses
      refine ⟨9, ?_, Expr.textPrec_le_nine _⟩
      rw [imaginaryText, if_pos one, Phrase.imaginary, if_pos one]
      exact reads_i.mono (fun _ _ => True.intro) fun _ _ => True.intro
    · exact ⟨2, imaginary him, textPrec_imaginary one⟩
  · have plus : Text.squeeze " + ".toList = ['+'] := by decide
    refine ⟨1, ?_, (Expr.textPrec_of_blank (by simp)).le⟩
    rw [Text.squeeze_append, Text.squeeze_append, plus, List.append_assoc, List.singleton_append]
    exact sum rfl (by decide)
  · have minus : Text.squeeze " - ".toList = ['-'] := by decide
    refine ⟨1, ?_, (Expr.textPrec_of_blank (by simp)).le⟩
    rw [Text.squeeze_append, Text.squeeze_append, minus, List.append_assoc, List.singleton_append]
    exact sum rfl (by decide)

/-- What the text of a Gaussian rational spells means this number. -/
theorem means_gaussian {g : GaussianRat} (hre : Narrow g.re) (him : Narrow g.im) :
    (Phrase.gaussian g).Means I σ g := by
  unfold Phrase.gaussian
  split_ifs with im re positive
  · have value : (⟨g.re, 0⟩ : GaussianRat) = g := QuadraticAlgebra.ext rfl im.symm
    have means : (Phrase.rational g.re).Means I σ ⟨g.re, 0⟩ := means_rational hre
    rwa [value] at means
  · have value : (⟨0, g.im⟩ : GaussianRat) = g := QuadraticAlgebra.ext re.symm rfl
    have means : (Phrase.imaginary g.im).Means I σ ⟨0, g.im⟩ := means_imaginary him
    rwa [value] at means
  · have value : Binary.add.value (⟨g.re, 0⟩ : GaussianRat) ⟨0, |g.im|⟩ = g := by
      rw [abs_of_pos positive]
      ext <;> simp [Binary.value]
    have means : (Phrase.combine .add _ _).Means I σ _ :=
      Phrase.means_binary (by decide) (means_rational hre) (means_imaginary him.abs)
        fun div => absurd div (by decide)
    rwa [value] at means
  · have value : Binary.sub.value (⟨g.re, 0⟩ : GaussianRat) ⟨0, |g.im|⟩ = g := by
      rw [abs_of_nonpos (not_lt.mp positive)]
      ext <;> simp [Binary.value]
    have means : (Phrase.combine .sub _ _).Means I σ _ :=
      Phrase.means_binary (by decide) (means_rational hre) (means_imaginary him.abs)
        fun div => absurd div (by decide)
    rwa [value] at means

end Token

end SymbolicAlgebra
