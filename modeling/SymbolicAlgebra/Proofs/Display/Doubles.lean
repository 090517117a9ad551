import SymbolicAlgebra.Double.Decimal
import SymbolicAlgebra.Proofs.Exact.Nearest

/-!
# The text of a double

The text of a finite double is a decimal number without an exponent, and it says what the text in
general form says (`Double.text_faithful`): an integer below the limit is shown in full, and any
other number by the decimal of its leading digits, which is off by half a unit of the last of them
at most.

The text is made of the one in general form, with its exponent written out, and that is the
positional text of the same `Decimal` (`Decimal.writeOut_general`). What either of the two forms is
read as is the number that the decimal stands for (`Decimal.valueOf?_positional`,
`Decimal.valueOf?_scientific`). These hold for any digits and any exponent: moving the point and
counting it back in the exponent cancel. That the decimal is close to the double is apart from this
(`Decimal.ofQuotient_near`).
-/

namespace SymbolicAlgebra

namespace Decimal

variable {s whole fraction tail : List Char} {t : Decimal} {n d : ℕ}

/-! ## Reading decimal text -/

/-- The exponent of a decimal text, from its letter on. -/
def exponentOf? : List Char → Option ℤ
  | [] => some 0
  | 'e' :: digits => Double.intOf? digits
  | _ => none

/-- The number that a decimal text without a sign stands for: digits, a point among them, and an
exponent. -/
def magnitudeOf? (text : List Char) : Option ℚ := do
  let mantissa := text.takeWhile (· != 'e')
  let fraction := (mantissa.dropWhile (· != '.')).drop 1
  let coefficient ← Double.natOf? (mantissa.takeWhile (· != '.') ++ fraction)
  let exponent ← exponentOf? (text.dropWhile (· != 'e'))
  some (coefficient * 10 ^ (exponent - fraction.length))

/-- The number that a decimal text stands for. -/
def valueOf? : List Char → Option ℚ
  | '-' :: text => (magnitudeOf? text).map (-·)
  | text => magnitudeOf? text

/-- Digits only, and at least one. -/
structure IsDigits (s : List Char) : Prop where
  nonempty : s ≠ []
  digits : ∀ c ∈ s, c.isDigit = true

/-- An optional minus sign, digits, and optionally a point with digits behind it. -/
def IsPositional (s : List Char) : Prop :=
  ∃ negative whole, IsDigits whole ∧
    (s = signText negative ++ whole ∨
      ∃ fraction, IsDigits fraction ∧ s = signText negative ++ whole ++ '.' :: fraction)

theorem IsDigits.append {s s' : List Char} (h : IsDigits s) (h' : ∀ c ∈ s', c.isDigit = true) :
    IsDigits (s ++ s') :=
  ⟨by simp [h.nonempty], fun c hc => (List.mem_append.mp hc).elim (h.digits c) (h' c)⟩

theorem isDigit_replicate (k : ℕ) : ∀ c ∈ List.replicate k '0', c.isDigit = true := by
  intro c hc
  rw [List.eq_of_mem_replicate hc]
  decide

/-- The decimal digits of a number are digits, and zero has one too. -/
theorem isDigits_digitsOf (n : ℕ) : IsDigits (digitsOf n) :=
  ⟨Nat.toDigits_ne_nil, fun _ => Nat.isDigit_of_mem_toDigits (by decide) (by decide)⟩

/-- A digit is none of the other characters of a decimal text. -/
theorem ne_of_isDigit {c other : Char} (h : c.isDigit = true) (h' : other.isDigit = false) :
    (c != other) = true := by
  rw [bne_iff_ne]
  rintro rfl
  exact absurd (h.symm.trans h') (by decide)

theorem natOf?_eq (h : IsDigits s) : Double.natOf? s = some (Nat.ofDigitChars 10 s 0) := by
  unfold Double.natOf?
  rw [List.isEmpty_eq_false_iff.mpr h.nonempty, List.all_eq_true.mpr h.digits]
  rfl

/-- The exponent begins where the mantissa ends. -/
theorem mantissa_append {exponent : ℤ} (mantissa : ∀ c ∈ s, (c != 'e') = true)
    (h : exponentOf? tail = some exponent) : (s ++ tail).takeWhile (· != 'e') = s ∧
      (s ++ tail).dropWhile (· != 'e') = tail := by
  have stop : tail.takeWhile (· != 'e') = [] ∧ tail.dropWhile (· != 'e') = tail := by
    unfold exponentOf? at h
    split at h
    · exact ⟨rfl, rfl⟩
    · exact ⟨rfl, rfl⟩
    · cases h
  rw [List.takeWhile_append_of_pos mantissa, List.dropWhile_append_of_pos mantissa, stop.1,
    List.append_nil]
  exact ⟨rfl, stop.2⟩

/-- Digits without a point, whatever exponent is behind them. -/
theorem magnitudeOf?_whole {exponent : ℤ} (hw : IsDigits whole)
    (h : exponentOf? tail = some exponent) :
    magnitudeOf? (whole ++ tail) = some ((Nat.ofDigitChars 10 whole 0 : ℚ) * 10 ^ exponent) := by
  have points : ∀ c ∈ whole, (c != '.') = true :=
    fun c hc => ne_of_isDigit (hw.digits c hc) (by decide)
  have parts := mantissa_append (fun c hc => ne_of_isDigit (hw.digits c hc) (by decide)) h
  unfold magnitudeOf?
  dsimp only
  rw [parts.1, parts.2, List.takeWhile_eq_self_iff.mpr points, List.dropWhile_eq_nil_iff.mpr points,
    List.drop_nil, List.append_nil, natOf?_eq hw, h]
  simp

/-- Digits behind a point lower the exponent. -/
theorem magnitudeOf?_fraction {exponent : ℤ} (hw : IsDigits whole) (hf : IsDigits fraction)
    (h : exponentOf? tail = some exponent) :
    magnitudeOf? (whole ++ '.' :: fraction ++ tail) =
      some ((Nat.ofDigitChars 10 (whole ++ fraction) 0 : ℚ) *
        10 ^ (exponent - fraction.length)) := by
  have points : ∀ c ∈ whole, (c != '.') = true :=
    fun c hc => ne_of_isDigit (hw.digits c hc) (by decide)
  have mantissa : ∀ c ∈ whole ++ '.' :: fraction, (c != 'e') = true := by
    intro c hc
    rw [List.mem_append, List.mem_cons] at hc
    rcases hc with hc | rfl | hc
    · exact ne_of_isDigit (hw.digits c hc) (by decide)
    · decide
    · -- the point is the only place where the number is cut, since no digit is one
      exact ne_of_isDigit (hf.digits c hc) (by decide)
  have front : (whole ++ '.' :: fraction).takeWhile (· != '.') = whole := by
    rw [List.takeWhile_append_of_pos points]
    exact List.append_nil whole
  have back : (whole ++ '.' :: fraction).dropWhile (· != '.') = '.' :: fraction :=
    List.dropWhile_append_of_pos points
  have parts := mantissa_append mantissa h
  unfold magnitudeOf?
  dsimp only
  rw [parts.1, parts.2, front, back, List.drop_one, List.tail_cons,
    natOf?_eq (hw.append hf.digits), h]
  rfl

/-- The sign is read as a sign. -/
theorem valueOf?_signText {text : List Char} {q : ℚ} (negative : Bool)
    (digit : ∀ c ∈ text.head?, c.isDigit = true) (h : magnitudeOf? text = some q) :
    valueOf? (signText negative ++ text) = some (if negative then -q else q) := by
  cases negative with
  | true =>
    show (magnitudeOf? text).map (-·) = _
    rw [h]
    rfl
  | false =>
    show valueOf? text = some q
    unfold valueOf?
    split
    · exact absurd (digit '-' rfl) (by decide)
    · exact h

/-- A text of digits begins with a digit, whatever follows. -/
theorem IsDigits.head (h : IsDigits s) (rest : List Char) :
    ∀ c ∈ (s ++ rest).head?, c.isDigit = true := by
  intro c hc
  rw [List.head?_append_of_ne_nil _ h.nonempty] at hc
  exact h.digits c (List.mem_of_mem_head? hc)

/-! ## The two texts of a decimal -/

/-- The number that a decimal stands for. -/
def value (t : Decimal) : ℚ :=
  let magnitude : ℚ := Nat.ofDigitChars 10 t.digits 0 * 10 ^ (t.exponent + 1 - t.digits.length)
  if t.negative then -magnitude else magnitude

theorem ofDigitChars_zeros (k : ℕ) (s : List Char) :
    Nat.ofDigitChars 10 (List.replicate k '0' ++ s) 0 = Nat.ofDigitChars 10 s 0 := by
  rw [Nat.ofDigitChars_append, Nat.ofDigitChars_replicate_zero, Nat.mul_zero]

/-- The point may stand in front of the digits, behind them, or among them. -/
theorem positional_cases (h : IsDigits t.digits) :
    ∃ whole, IsDigits whole ∧
      ((t.positional = signText t.negative ++ whole ∧
        (Nat.ofDigitChars 10 whole 0 : ℚ) =
          Nat.ofDigitChars 10 t.digits 0 * 10 ^ (t.exponent + 1 - t.digits.length)) ∨
      ∃ fraction, IsDigits fraction ∧
        t.positional = signText t.negative ++ (whole ++ '.' :: fraction) ∧
        Nat.ofDigitChars 10 (whole ++ fraction) 0 = Nat.ofDigitChars 10 t.digits 0 ∧
        (fraction.length : ℤ) = t.digits.length - (t.exponent + 1)) := by
  unfold positional
  dsimp only
  -- the point comes before the digits, behind them, or between two of them
  split
  next front =>
    have zeros := isDigit_replicate (-(t.exponent + 1)).toNat
    refine ⟨['0'], isDigits_digitsOf 0, .inr ⟨_ ++ t.digits, ⟨by simp [h.nonempty],
      List.forall_mem_append.mpr ⟨zeros, h.digits⟩⟩, rfl, ?_, ?_⟩⟩
    · exact (ofDigitChars_zeros 1 _).trans (ofDigitChars_zeros _ _)
    · rw [List.length_append, List.length_replicate]
      omega
  next behind =>
    obtain ⟨k, hk⟩ : ∃ k : ℕ, t.exponent + 1 = k := ⟨(t.exponent + 1).toNat, by omega⟩
    rw [hk, Int.toNat_natCast]
    split
    next all =>
      obtain ⟨j, rfl⟩ := Nat.exists_eq_add_of_le all
      refine ⟨_, h.append (isDigit_replicate (t.digits.length + j - t.digits.length)), .inl ⟨rfl, ?_⟩⟩
      rw [Nat.add_sub_cancel_left, Nat.ofDigitChars_append, Nat.ofDigitChars_replicate_zero,
        Nat.cast_add, add_sub_cancel_left, zpow_natCast, mul_comm]
      push_cast
      rfl
    next among =>
      have parts := List.take_append_drop k t.digits
      refine ⟨t.digits.take k, ⟨?_, fun c hc => h.digits c (List.mem_of_mem_take hc)⟩,
        .inr ⟨t.digits.drop k, ⟨?_, fun c hc => h.digits c (List.mem_of_mem_drop hc)⟩, rfl, ?_, ?_⟩⟩
      · exact List.ne_nil_of_length_pos (by rw [List.length_take]; omega)
      · exact List.ne_nil_of_length_pos (by rw [List.length_drop]; omega)
      · rw [parts]
      · rw [List.length_drop]
        omega

theorem isPositional_positional (h : IsDigits t.digits) : IsPositional t.positional := by
  obtain ⟨whole, hw, ⟨text, -⟩ | ⟨fraction, hf, text, -⟩⟩ := positional_cases h
  · exact ⟨t.negative, whole, hw, .inl text⟩
  · exact ⟨t.negative, whole, hw, .inr ⟨fraction, hf, by rw [text, List.append_assoc]⟩⟩

/-- **The positional text stands for the decimal**, wherever the point is. -/
theorem valueOf?_positional (h : IsDigits t.digits) : valueOf? t.positional = some t.value := by
  obtain ⟨whole, hw, ⟨text, number⟩ | ⟨fraction, hf, text, number, length⟩⟩ := positional_cases h
  · have read := magnitudeOf?_whole hw (show exponentOf? [] = some 0 from rfl)
    have head := hw.head []
    rw [zpow_zero, mul_one, number] at read
    rw [List.append_nil] at read head
    rw [text, valueOf?_signText _ head read]
    rfl
  · have read := magnitudeOf?_fraction hw hf (show exponentOf? [] = some 0 from rfl)
    rw [List.append_nil, number, length, zero_sub, neg_sub] at read
    rw [text, valueOf?_signText _ (hw.head _) read]
    rfl

/-- The text of an exponent is read as this exponent: a sign and at least two digits. -/
theorem exponentOf?_exponentText (e : ℤ) : exponentOf? (exponentText e) = some e := by
  have digits := isDigits_digitsOf e.natAbs
  have number : Nat.ofDigitChars 10 (digitsOf e.natAbs) 0 = e.natAbs :=
    Nat.ofDigitChars_ten_toDigits
  -- a leading zero makes no difference
  have read : Double.natOf? (if (digitsOf e.natAbs).length < 2 then '0' :: digitsOf e.natAbs
      else digitsOf e.natAbs) = some e.natAbs := by
    split
    · refine (natOf?_eq ((isDigits_digitsOf 0).append digits.digits)).trans (congrArg some ?_)
      exact (ofDigitChars_zeros 1 _).trans number
    · rw [natOf?_eq digits, number]
  unfold exponentText
  dsimp only
  generalize (if (digitsOf e.natAbs).length < 2 then '0' :: digitsOf e.natAbs
    else digitsOf e.natAbs) = text at read
  by_cases negative : e < 0
  · rw [if_pos negative]
    rw [exponentOf?, Double.intOf?, read]
    show some (-(e.natAbs : ℤ)) = _
    rw [Int.ofNat_natAbs_of_nonpos negative.le, neg_neg]
  · rw [if_neg negative]
    rw [exponentOf?, Double.intOf?, read]
    show some (e.natAbs : ℤ) = _
    rw [Int.natAbs_of_nonneg (not_lt.mp negative)]

/-- **The text with an exponent stands for the decimal.** -/
theorem valueOf?_scientific (h : IsDigits t.digits) : valueOf? t.scientific = some t.value := by
  have exponent := exponentOf?_exponentText t.exponent
  unfold scientific
  dsimp only
  rw [List.append_assoc]
  -- a single digit is written without a point, and more have it after the first
  rcases digits : t.digits with _ | ⟨first, _ | ⟨second, rest⟩⟩ <;> rw [digits] at h
  · exact absurd rfl h.nonempty
  · have last : t.exponent + 1 - ([first].length : ℕ) = t.exponent := by simp
    refine (valueOf?_signText _ (h.head _) (magnitudeOf?_whole h exponent)).trans ?_
    unfold value
    rw [digits, last]
  · have hw : IsDigits [first] := ⟨by simp, fun c hc => h.digits c (List.mem_append_left _ hc)⟩
    have hf : IsDigits (second :: rest) := ⟨by simp, fun c hc => h.digits c (by simp_all)⟩
    have last : t.exponent + 1 - ((first :: second :: rest).length : ℕ) =
        t.exponent - ((second :: rest).length : ℕ) := by
      rw [List.length_cons]
      push_cast
      ring
    have read := magnitudeOf?_fraction hw hf exponent
    rw [List.append_assoc] at read
    refine (valueOf?_signText _ (hw.head _) read).trans ?_
    unfold value
    rw [digits, last]
    rfl

theorem not_mem_signText (negative : Bool) : 'e' ∉ signText negative := by
  cases negative <;> decide

theorem IsDigits.not_mem (h : IsDigits s) : 'e' ∉ s :=
  fun mem => absurd (h.digits 'e' mem) (by decide)

/-- There is no letter in a text without an exponent. -/
theorem IsPositional.not_mem (h : IsPositional s) : 'e' ∉ s := by
  obtain ⟨negative, whole, hw, rfl | ⟨fraction, hf, rfl⟩⟩ := h
  · rw [List.mem_append, not_or]
    exact ⟨not_mem_signText negative, hw.not_mem⟩
  · rw [List.mem_append, List.mem_append, List.mem_cons, not_or, not_or, not_or]
    exact ⟨⟨not_mem_signText negative, hw.not_mem⟩, by decide, hf.not_mem⟩

/-- A sign in front of digits is taken off again. -/
theorem unsigned_signText {text : List Char} (negative : Bool) (nonempty : text ≠ [])
    (digit : ∀ c ∈ text.head?, c.isDigit = true) :
    ((signText negative ++ text).head? == some '-') = negative ∧
      (signText negative ++ text).dropWhile (· == '-') = text := by
  obtain ⟨c, rest, rfl⟩ := List.exists_cons_of_ne_nil nonempty
  have sign : (c == '-') = false := by
    rw [beq_eq_false_iff_ne]
    exact bne_iff_ne.mp (ne_of_isDigit (digit c rfl) (by decide))
  cases negative with
  | true => simp [signText, sign]
  | false => simp [signText, sign]

/-- Writing out an exponent moves the point, and leaves the digits as they are. -/
theorem writeOut_exponent {unsigned : List Char} {exponent : ℤ} (negative : Bool)
    (nonempty : unsigned ≠ []) (digit : ∀ c ∈ unsigned.head?, c.isDigit = true)
    (mantissa : ∀ c ∈ unsigned, (c != 'e') = true)
    (front : unsigned.takeWhile (· != '.') = whole)
    (back : (unsigned.dropWhile (· != '.')).drop 1 = fraction)
    (power : Double.intOf? tail = some exponent) :
    Double.writeOut (signText negative ++ unsigned ++ 'e' :: tail) =
      positional ⟨negative, whole ++ fraction, whole.length + exponent - 1⟩ := by
  have plain : ∀ c ∈ signText negative ++ unsigned, (c != 'e') = true := by
    intro c hc
    rcases List.mem_append.mp hc with sign | inner
    · exact bne_iff_ne.mpr fun same => not_mem_signText negative (same ▸ sign)
    · exact mantissa c inner
  have ends : exponentOf? ('e' :: tail) = some exponent := power
  have parts := mantissa_append plain ends
  obtain ⟨sign, rest⟩ := unsigned_signText negative nonempty digit
  have found : (signText negative ++ unsigned ++ 'e' :: tail).contains 'e' = true := by simp
  have point : (whole.length : ℤ) + exponent - 1 + 1 = whole.length + exponent := by omega
  unfold Double.writeOut positional
  dsimp only
  rw [if_pos found, parts.1, parts.2, sign, rest, front, back, List.drop_one, List.tail_cons, power,
    Option.getD_some, point]
  -- from here on both sides only ask where the point falls
  generalize (whole.length : ℤ) + exponent = point
  split
  next => rw [List.append_assoc, List.cons_append, List.cons_append]
  next behind =>
    obtain ⟨k, rfl⟩ : ∃ k : ℕ, point = k := ⟨point.toNat, by omega⟩
    rw [Int.toNat_natCast]
    by_cases all : (whole ++ fraction).length ≤ k
    · have zeros : ((k : ℤ) - (whole ++ fraction).length).toNat = k - (whole ++ fraction).length := by
        omega
      rw [if_pos (by exact_mod_cast all), if_pos all, zeros, List.append_assoc]
    · rw [if_neg (by exact_mod_cast all), if_neg all, List.append_assoc]

/-- **The general text with its exponent written out is the positional one.** -/
theorem writeOut_general (h : IsDigits t.digits) (precision : ℕ) :
    Double.writeOut (t.general precision) = t.positional := by
  unfold general
  split
  next =>
    have power := exponentOf?_exponentText t.exponent
    obtain ⟨tail, exponent⟩ : ∃ tail, exponentText t.exponent = 'e' :: tail := ⟨_, rfl⟩
    rw [exponent, exponentOf?] at power
    obtain ⟨negative, digits, x⟩ := t
    dsimp only at h exponent power ⊢
    unfold scientific
    dsimp only
    rw [exponent]
    rcases digits with _ | ⟨first, _ | ⟨second, rest⟩⟩
    · exact absurd rfl h.nonempty
    · -- a single digit stands without a point
      have digit : first.isDigit = true := h.digits first List.mem_cons_self
      have point : (first != '.') = true := ne_of_isDigit digit (by decide)
      have inner : ∀ c ∈ [first], (c != 'e') = true := by
        intro c hc
        obtain rfl := List.mem_singleton.mp hc
        exact ne_of_isDigit digit (by decide)
      have front : [first].takeWhile (· != '.') = [first] := by simp [point]
      have back : ([first].dropWhile (· != '.')).drop 1 = [] := by simp [point]
      have start : ∀ c ∈ [first].head?, c.isDigit = true := by simpa using digit
      rw [writeOut_exponent negative (List.cons_ne_nil _ _) start inner front back power]
      simp
    · have digit : first.isDigit = true := h.digits first List.mem_cons_self
      have point : (first != '.') = true := ne_of_isDigit digit (by decide)
      have inner : ∀ c ∈ first :: '.' :: second :: rest, (c != 'e') = true := by
        intro c hc
        rcases List.mem_cons.mp hc with rfl | hc
        · exact ne_of_isDigit digit (by decide)
        rcases List.mem_cons.mp hc with rfl | hc
        · decide
        · exact ne_of_isDigit (h.digits c (List.mem_cons_of_mem _ hc)) (by decide)
      have front : (first :: '.' :: second :: rest).takeWhile (· != '.') = [first] := by
        simp [point]
      have back : ((first :: '.' :: second :: rest).dropWhile (· != '.')).drop 1 =
          second :: rest := by simp [point]
      have start : ∀ c ∈ (first :: '.' :: second :: rest).head?, c.isDigit = true := by
        simpa using digit
      rw [writeOut_exponent negative (List.cons_ne_nil _ _) start inner front back power]
      simp
  next =>
    have absent : ¬t.positional.contains 'e' = true := by
      rw [List.contains_iff_mem]
      exact (isPositional_positional h).not_mem
    unfold Double.writeOut
    rw [if_neg absent]

/-- The general text stands for the decimal too. -/
theorem valueOf?_general (h : IsDigits t.digits) (precision : ℕ) :
    valueOf? (t.general precision) = some t.value := by
  unfold general
  split
  · exact valueOf?_scientific h
  · exact valueOf?_positional h

/-! ## The leading digits of a quotient -/

/-- The number of digits tells between which powers of ten a number is. -/
theorem digitsOf_mem (hn : 0 < n) : 0 < (digitsOf n).length ∧
    10 ^ ((digitsOf n).length - 1) ≤ n ∧ n < 10 ^ (digitsOf n).length := by
  have positive : 0 < (digitsOf n).length := Nat.length_toDigits_pos
  refine ⟨positive, ?_, (Nat.length_toDigits_le_iff (by norm_num) positive).mp le_rfl⟩
  by_cases one : (digitsOf n).length = 1
  · rw [one]
    exact hn
  · by_contra short
    have := (Nat.length_toDigits_le_iff (b := 10) (by norm_num) (by omega)).mpr (not_le.mp short)
    unfold digitsOf at *
    omega

/-- A number is shown by its leading digits: the first one stands for the power of ten that the
quotient reaches. -/
theorem leading_mem (hn : 0 < n) (hd : 0 < d) :
    (10 : ℚ) ^ leading n d ≤ n / d ∧ (n / d : ℚ) < 10 ^ (leading n d + 1) := by
  have hdq : (0 : ℚ) < d := by exact_mod_cast hd
  have hnq : (0 : ℚ) < n := by exact_mod_cast hn
  unfold leading
  split
  next large =>
    obtain ⟨positive, low, high⟩ := digitsOf_mem (Nat.div_pos large hd)
    obtain ⟨k, hk⟩ := Nat.exists_eq_succ_of_ne_zero positive.ne'
    rw [hk, Nat.succ_eq_add_one] at low high ⊢
    rw [Nat.add_sub_cancel, Nat.le_div_iff_mul_le hd] at low
    rw [Nat.div_lt_iff_lt_mul hd] at high
    have top : ((k + 1 : ℕ) : ℤ) - 1 = (k : ℕ) := by omega
    rw [top, ← Nat.cast_succ, zpow_natCast, zpow_natCast, le_div_iff₀ hdq, div_lt_iff₀ hdq]
    exact ⟨by exact_mod_cast low, by exact_mod_cast high⟩
  next small =>
    -- counted on the reciprocal, which is not below the power of ten but above the one before
    obtain ⟨positive, low, high⟩ := digitsOf_mem (n := (d - 1) / n) (Nat.div_pos (by omega) hn)
    obtain ⟨k, hk⟩ := Nat.exists_eq_succ_of_ne_zero positive.ne'
    rw [hk, Nat.succ_eq_add_one] at low high ⊢
    rw [Nat.add_sub_cancel, Nat.le_div_iff_mul_le hn] at low
    rw [Nat.div_lt_iff_lt_mul hn] at high
    have reached : d ≤ n * 10 ^ (k + 1) := by
      rw [Nat.mul_comm]
      omega
    have above : n * 10 ^ k < d := by
      rw [Nat.mul_comm]
      omega
    have top : -((k + 1 : ℕ) : ℤ) + 1 = -(k : ℕ) := by omega
    rw [top, zpow_neg, zpow_neg, zpow_natCast, zpow_natCast, inv_le_iff_one_le_mul₀ (by positivity),
      div_mul_eq_mul_div, one_le_div hdq, lt_inv_comm₀ (by positivity) (by positivity), inv_div,
      lt_div_iff₀ hnq]
    exact ⟨by exact_mod_cast reached, by exact_mod_cast (Nat.mul_comm _ _).trans_lt above⟩

/-- The shifted quotient is rounded to the nearest integer. -/
theorem roundShifted_near (n : ℕ) (hd : 0 < d) (shift : ℤ) :
    |(roundShifted n d shift : ℚ) - n / d * 10 ^ shift| ≤ 1 / 2 := by
  unfold roundShifted
  split
  next up =>
    obtain ⟨k, rfl⟩ := Int.eq_ofNat_of_zero_le up
    have near := (Double.roundQuotient_near (n * Nat.pow 10 k) hd).1
    rw [Nat.pow_eq] at near
    push_cast at near
    rwa [mul_div_right_comm] at near
  next down =>
    obtain ⟨k, rfl⟩ : ∃ k : ℕ, shift = -k := ⟨(-shift).toNat, by omega⟩
    have near := (Double.roundQuotient_near n
      (Nat.mul_pos hd (Nat.pow_pos (n := k) (by norm_num : 0 < 10)))).1
    rw [Nat.cast_mul, ← div_div, Nat.cast_pow, div_eq_mul_inv (_ / _)] at near
    rw [neg_neg, zpow_neg]
    exact near

/-- The zeros at the end of digits stand for a power of ten. -/
theorem trim_mem (h : IsDigits s) : IsDigits (trim s) ∧ ∃ k, s.length = (trim s).length + k ∧
    Nat.ofDigitChars 10 s 0 = Nat.ofDigitChars 10 (trim s) 0 * 10 ^ k := by
  have zeros : s.reverse.takeWhile (· == '0') =
      List.replicate (s.reverse.takeWhile (· == '0')).length '0' :=
    List.eq_replicate_of_mem fun c hc => by simpa using List.mem_takeWhile_imp hc
  have parts : s = (s.reverse.dropWhile (· == '0')).reverse ++
      List.replicate (s.reverse.takeWhile (· == '0')).length '0' := by
    rw [← List.reverse_replicate, ← zeros, ← List.reverse_append, List.takeWhile_append_dropWhile,
      List.reverse_reverse]
  unfold trim
  -- what was cut off are zeros, so only their number matters
  generalize (s.reverse.dropWhile (· == '0')).reverse = kept at parts
  generalize (s.reverse.takeWhile (· == '0')).length = k at parts
  subst parts
  cases kept with
  | nil =>
    -- nothing is kept only of a text of zeros, which stands for zero and keeps one of them
    have some : 0 < k := by simpa using List.length_pos_iff.mpr h.nonempty
    refine ⟨isDigits_digitsOf 0, k - 1, ?_, ?_⟩
    · simp
      omega
    · show Nat.ofDigitChars 10 ([] ++ List.replicate k '0') 0 = 0 * _
      rw [List.nil_append, Nat.ofDigitChars_replicate_zero, Nat.mul_zero, Nat.zero_mul]
  | cons c cs =>
    refine ⟨⟨List.cons_ne_nil _ _, fun c hc => h.digits c (List.mem_append_left _ hc)⟩, k, ?_, ?_⟩
    · rw [List.length_append, List.length_replicate]
    · rw [Nat.ofDigitChars_append, Nat.ofDigitChars_replicate_zero, Nat.mul_comm]

/-- The leading digits of a quotient are digits. -/
theorem isDigits_ofQuotient (precision : ℕ) (negative : Bool) (n d : ℕ) :
    IsDigits (ofQuotient precision negative n d).digits := by
  unfold ofQuotient
  split
  · exact isDigits_digitsOf 0
  · exact (trim_mem (isDigits_digitsOf _)).1

/-- The rounded quotient has as many digits as asked for, or is the next power of ten. -/
theorem coefficient_mem (hn : 0 < n) (hd : 0 < d) (k : ℕ) :
    10 ^ k ≤ roundShifted n d (k - leading n d) ∧
      roundShifted n d (k - leading n d) ≤ 10 ^ (k + 1) := by
  obtain ⟨low, high⟩ := leading_mem hn hd
  have near := abs_le.mp (roundShifted_near n hd (k - leading n d))
  -- the rounded quotient is no more than a half away, and a power of ten is whole
  generalize roundShifted n d (k - leading n d) = c at near
  have power (j : ℕ) : (10 : ℚ) ^ (leading n d + j) * 10 ^ ((k : ℤ) - leading n d) =
      (10 ^ (k + j) : ℕ) := by
    rw [← zpow_add₀ (by norm_num), show leading n d + j + (k - leading n d) = (k + j : ℕ) by
      push_cast; ring, zpow_natCast]
    push_cast
    rfl
  have scale : (0 : ℚ) < 10 ^ ((k : ℤ) - leading n d) := by positivity
  have low := mul_le_mul_of_nonneg_right low scale.le
  have high := mul_lt_mul_of_pos_right high scale
  have power0 := power 0
  have power1 := power 1
  simp only [Nat.cast_zero, add_zero, Nat.cast_one] at power0 power1
  rw [power0] at low
  rw [power1] at high
  have low : ((10 ^ k : ℕ) : ℚ) < c + 1 := by linarith [near.1]
  have high : (c : ℚ) < (10 ^ (k + 1) : ℕ) + 1 := by linarith [near.2]
  exact ⟨Nat.lt_succ_iff.mp (by exact_mod_cast low), Nat.lt_succ_iff.mp (by exact_mod_cast high)⟩

/-- What the leading digits stand for: a power of ten that rounding reaches moves them, and the
zeros that are dropped count in the exponent. -/
theorem value_ofQuotient (hn : 0 < n) (hd : 0 < d) (k : ℕ) (negative : Bool) :
    (ofQuotient (k + 1) negative n d).value =
      if negative then -(roundShifted n d (k - leading n d) * 10 ^ (leading n d - k) : ℚ)
      else roundShifted n d (k - leading n d) * 10 ^ (leading n d - k) := by
  obtain ⟨low, high⟩ := coefficient_mem hn hd k
  have last : ((k + 1 : ℕ) : ℤ) - 1 - leading n d = k - leading n d := by omega
  unfold ofQuotient
  rw [if_neg hn.ne']
  dsimp only
  rw [last]
  -- rounding may reach the next power of ten, and then one more digit is written
  generalize roundShifted n d (k - leading n d) = c at low high
  generalize leading n d = x
  obtain ⟨positive, -, above⟩ := digitsOf_mem (low.trans_lt' (Nat.pow_pos (by norm_num)))
  have least : k + 1 ≤ (digitsOf c).length :=
    Nat.lt_of_not_le fun short =>
      absurd (low.trans_lt (above.trans_le (Nat.pow_le_pow_right (by norm_num) short))) (lt_irrefl _)
  have most : (digitsOf c).length ≤ k + 2 :=
    (Nat.length_toDigits_le_iff (by norm_num) (by omega)).mpr
      (high.trans_lt (Nat.pow_lt_pow_right (by norm_num) (by omega)))
  obtain ⟨-, j, length, number⟩ := trim_mem (isDigits_digitsOf c)
  have whole : Nat.ofDigitChars 10 (digitsOf c) 0 = c := Nat.ofDigitChars_ten_toDigits
  rw [whole] at number
  have exponent : (if (digitsOf c).length > k + 1 then x + 1 else x) + 1 -
      ((trim (digitsOf c)).length : ℤ) = j + (x - k) := by
    split <;> omega
  unfold value
  dsimp only
  rw [exponent, zpow_add₀ (by norm_num), zpow_natCast, ← mul_assoc]
  have number : (Nat.ofDigitChars 10 (trim (digitsOf c)) 0 : ℚ) * 10 ^ j = c := by
    exact_mod_cast number.symm
  rw [number]

/-- The leading place is the decimal logarithm of the quotient, rounded down. -/
theorem leading_eq_log (hn : 0 < n) (hd : 0 < d) : leading n d = Int.log 10 (n / d : ℚ) := by
  have positive : (0 : ℚ) < n / d := div_pos (by exact_mod_cast hn) (by exact_mod_cast hd)
  obtain ⟨low, high⟩ := leading_mem hn hd
  have low := (Int.zpow_le_iff_le_log (b := 10) (by norm_num) positive).mp (by exact_mod_cast low)
  have high := (Int.lt_zpow_iff_log_lt (b := 10) (by norm_num) positive).mp (by exact_mod_cast high)
  omega

/-- **The leading digits are close to the quotient**, to half a unit of the last of them. -/
theorem ofQuotient_near (hn : 0 < n) (hd : 0 < d) (k : ℕ) (negative : Bool) :
    |(ofQuotient (k + 1) negative n d).value - if negative then -(n / d : ℚ) else n / d| ≤
      10 ^ (Int.log 10 (n / d : ℚ) - k) / 2 := by
  -- the rounding is measured at the last digit and then moved to where the digits stand
  have near := roundShifted_near n hd (k - leading n d)
  have scale : (0 : ℚ) < 10 ^ (leading n d - k) := by positivity
  have one : (10 : ℚ) ^ ((k : ℤ) - leading n d) * 10 ^ (leading n d - k) = 1 := by
    rw [← zpow_add₀ (by norm_num), sub_add_sub_cancel, sub_self, zpow_zero]
  have distance : |(roundShifted n d (k - leading n d) * 10 ^ (leading n d - k) : ℚ) - n / d| ≤
      10 ^ (leading n d - k) / 2 := by
    calc |(roundShifted n d (k - leading n d) * 10 ^ (leading n d - k) : ℚ) - n / d|
        = |(roundShifted n d (k - leading n d) : ℚ) - n / d * 10 ^ (k - leading n d)| *
            10 ^ (leading n d - k) := by
          rw [← abs_of_pos scale, ← abs_mul, abs_of_pos scale, sub_mul, mul_assoc, one, mul_one]
      _ ≤ 1 / 2 * 10 ^ (leading n d - k) := mul_le_mul_of_nonneg_right near scale.le
      _ = 10 ^ (leading n d - k) / 2 := by ring
  rw [value_ofQuotient hn hd, ← leading_eq_log hn hd]
  cases negative
  · exact distance
  · rw [if_pos rfl, if_pos rfl, distance_neg]
    exact distance

end Decimal

/-! ## The text of a double -/

namespace Double

open Decimal

variable {v : Double}

/-- A finite double as a quotient. -/
theorem value_of_content {negative : Bool} {m : ℕ} {e : ℤ}
    (content : v.content = .finite negative m e) : ∃ n d : ℕ, scale m e = (n, d) ∧ 0 < d ∧
      (v.value = if negative then -(n / d : ℚ) else n / d) ∧ |v.value| = n / d := by
  obtain ⟨positive, quotient⟩ := scale_div m e
  have value : v.value = if negative then -((scale m e).1 / (scale m e).2 : ℚ)
      else (scale m e).1 / (scale m e).2 := by
    rw [quotient, Double.value, content]
  refine ⟨_, _, rfl, positive, value, ?_⟩
  rw [value]
  exact abs_signed (by positivity) negative

/-- An integer in full, with its sign. -/
theorem toList_toString_signed (negative : Bool) (q : ℕ) :
    (toString (if negative then -(q : ℤ) else q)).toList =
      signText (negative && q != 0) ++ digitsOf q := by
  cases negative with
  | false => exact Nat.toList_repr
  | true =>
    cases q with
    | zero => rfl
    | succ q =>
      show ("-" ++ toString (q + 1)).toList = _
      rw [String.toList_append]
      exact congrArg ('-' :: ·) Nat.toList_repr

/-- **The text of a finite double is faithful.** It has no exponent; an integer below the limit is
shown in full; and any other number is shown as the general form with fifteen digits shows it, which
is off by half a unit of the fifteenth digit at most. -/
theorem text_faithful (finite : v.isFinite = true) :
    IsPositional v.text.toList ∧
    (∀ k : ℤ, v.value = k → k.natAbs < 10 ^ 16 → v.text = toString k) ∧
    ((∀ k : ℤ, v.value = k → 10 ^ 16 ≤ k.natAbs) →
      ∃ q, valueOf? v.text.toList = some q ∧ valueOf? (general 15 v).toList = some q ∧
        |q - v.value| ≤ 10 ^ (Int.log 10 |v.value| - 14) / 2) := by
  obtain ⟨m, e, -, -, content⟩ := content_of_isFinite finite
  obtain ⟨n, d, parts, positive, value, magnitude⟩ := value_of_content content
  have hd : (d : ℚ) ≠ 0 := Nat.cast_ne_zero.mpr positive.ne'
  have digits : IsDigits (ofFinite 15 v.isNegative m e).digits := isDigits_ofQuotient ..
  have text : v.text.toList = if n % d = 0 ∧ n / d < 10 ^ 16 then
      signText (v.isNegative && n / d != 0) ++ digitsOf (n / d)
      else (ofFinite 15 v.isNegative m e).positional := by
    rw [Double.text, String.toList_ofList, textDigits, content]
    dsimp only
    rw [parts]
    simp only [Bool.and_eq_true, decide_eq_true_eq]
    rw [show textPrecision = 15 from rfl, writeOut_general digits]
    rfl
  by_cases integral : n % d = 0 ∧ n / d < 10 ^ 16
  · rw [if_pos integral] at text
    have whole : v.value = (if v.isNegative then -((n / d : ℕ) : ℤ) else (n / d : ℕ) : ℤ) := by
      rw [value, ← Nat.cast_div (Nat.dvd_of_mod_eq_zero integral.1) hd]
      cases v.isNegative <;> norm_cast
    refine ⟨⟨_, _, isDigits_digitsOf _, .inl text⟩, fun k hk _ => ?_, fun large => ?_⟩
    · rw [whole, Int.cast_inj] at hk
      rw [← hk, ← String.toList_inj, text, toList_toString_signed]
    · have size : (if v.isNegative then -((n / d : ℕ) : ℤ) else (n / d : ℕ)).natAbs = n / d := by
        cases v.isNegative
        · exact Int.natAbs_natCast _
        · exact (Int.natAbs_neg _).trans (Int.natAbs_natCast _)
      exact absurd (size ▸ large _ whole) (not_le.mpr integral.2)
  · rw [if_neg integral] at text
    have general : (general 15 v).toList = (ofFinite 15 v.isNegative m e).general 15 := by
      rw [Double.general, String.toList_ofList, content]
    rw [text, general]
    refine ⟨isPositional_positional digits, fun k hk small => ?_, fun large => ?_⟩
    · -- an integer is a quotient without remainder
      have multiple : n = k.natAbs * d := by
        rw [hk, eq_div_iff hd, ← Int.cast_abs, Int.abs_eq_natAbs, Int.cast_natCast] at magnitude
        exact_mod_cast magnitude.symm
      refine absurd ⟨?_, ?_⟩ integral
      · rw [multiple, Nat.mul_mod_left]
      · rw [multiple, Nat.mul_div_cancel _ positive]
        exact small
    · have some : 0 < n := by
        by_contra none
        rw [Nat.eq_zero_of_not_pos none, Nat.cast_zero, zero_div, neg_zero, ite_self] at value
        exact absurd (large 0 (value.trans Int.cast_zero.symm)) (by decide)
      refine ⟨_, valueOf?_positional digits, valueOf?_general digits 15, ?_⟩
      rw [magnitude, value, ofFinite, parts]
      exact ofQuotient_near some positive 14 v.isNegative

/-- A power of two that is too large to be shown in full. -/
theorem text_faithful_power :
    (ofInt (2 ^ 70)).isFinite = true ∧ (ofInt (2 ^ 70)).text = "1180591620717410000000" ∧
      general 15 (ofInt (2 ^ 70)) = "1.18059162071741e+21" ∧
      ∃ q, valueOf? (ofInt (2 ^ 70)).text.toList = some q ∧
        valueOf? (general 15 (ofInt (2 ^ 70))).toList = some q ∧ |q - 2 ^ 70| ≤ 10 ^ 7 / 2 := by
  have finite : (ofInt (2 ^ 70)).isFinite = true := by decide +kernel
  have value : (ofInt (2 ^ 70)).value = 2 ^ 70 := by decide +kernel
  have log : Int.log 10 |(2 ^ 70 : ℚ)| = 21 := by
    rw [abs_of_pos (by norm_num)]
    decide +kernel
  obtain ⟨q, text, general, near⟩ := (text_faithful finite).2.2 fun k hk => by
    have power : (2 ^ 70 : ℤ) = k := by exact_mod_cast value.symm.trans hk
    rw [← power]
    decide
  rw [value, log] at near
  exact ⟨finite, by decide +kernel, by decide +kernel, q, text, general, near⟩

end Double

end SymbolicAlgebra
