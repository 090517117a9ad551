import SymbolicAlgebra.Proofs.Combine.Quantity
import SymbolicAlgebra.Proofs.Display.Leaves
import SymbolicAlgebra.Proofs.Powers

/-!
# Texts of leaves read back exactly

The text of a leaf is read as several leaves: `-3x^(1/2)/2` as a number, a variable, two numbers
under the line of the power, and one more below the coefficient. While it is read, they combine to
one leaf again (`parse_text_leaf`), which stands for the same Gaussian rational, or for the same
coefficient and power, and is equal to the first leaf. The parts of the first one may be written
with a common factor or a negative denominator, those of the second one are in lowest terms.

What the text spells is known as a phrase. So the proof follows this phrase, in the same cases in
which the text was written: each operator stands between two leaves, no identity spoils them, and
the numbers that come out are parts of the leaf, so they are narrow.
-/

namespace SymbolicAlgebra

/-! ## Letters -/

namespace Text

/-- Whether no range of one class meets one of the other. -/
def Ranges.isApart (a b : Ranges) : Bool :=
  a.all fun r => b.all fun s => r.2.blt s.1 || s.2.blt r.1

/-- No character is in both classes. -/
theorem Ranges.mem_of_isApart {a b : Ranges} {c : Char} (apart : a.isApart b = true)
    (ha : a.mem c = true) : b.mem c = false := by
  obtain ⟨r, hr, low⟩ := List.any_eq_true.mp ha
  refine List.any_eq_false.mpr fun s hs => ?_
  have beside := List.all_eq_true.mp (List.all_eq_true.mp apart r hr) s hs
  simp only [Bool.or_eq_true, Nat.blt_eq] at beside
  simp only [Bool.and_eq_true, decide_eq_true_iff] at low ⊢
  omega

variable {c : Char}

theorem isBlank_of_isLetter (h : isLetter c = true) : isBlank c = false := by
  have apart : letters.isApart blanks = true := by decide +kernel
  exact Ranges.mem_of_isApart apart h

/-- No letter is a digit, of any script. -/
theorem isDigit_of_isLetter (h : isLetter c = true) : isDigit c = false := by
  have runs : letters.isApart (zeros.map fun z => (z, z + 9)) = true := by decide +kernel
  have others : letters.isApart otherDigits = true := by decide +kernel
  have value : digitValue? c = none := by
    rw [digitValue?, Option.map_eq_none_iff, List.find?_eq_none]
    intro z hz
    have outside := List.any_eq_false.mp (Ranges.mem_of_isApart runs h) _ (List.mem_map_of_mem hz)
    simp only [Bool.and_eq_true, decide_eq_true_iff] at outside ⊢
    omega
  rw [isDigit, value, Ranges.mem_of_isApart others h]
  rfl

end Text

namespace Token

variable {allowed : Option (List String)} {c : Char}

/-- No letter is a sign. -/
theorem signOp?_of_isLetter (h : Text.isLetter c = true) : signOp? c = none := by
  have signs : ("+-*/^!()=".toList.all fun d => !Text.isLetter d) = true := by decide +kernel
  rw [← Option.not_isSome_iff_eq_none]
  intro sign
  simpa [h] using List.all_eq_true.mp signs c (mem_of_signOp? sign)

/-- Every letter stands for a variable but the four that stand for constants. -/
theorem isVariable_singleton (letter : Text.isLetter c = true) (other : c ∉ ['e', 'i', 'π', 'φ'])
    (isAllowed : isAllowed allowed (String.singleton c) = true) :
    IsVariable allowed (String.singleton c) := by
  have point : c ≠ '.' := by
    rintro rfl
    exact absurd letter (by decide +kernel)
  have numeral : isNumeralChar c = false := by
    rw [isNumeralChar, Text.isDigit_of_isLetter letter, beq_false_of_ne point]
    rfl
  refine ⟨c, rfl, Text.isBlank_of_isLetter letter, numeral, signOp?_of_isLetter letter, letter, ?_,
    isAllowed⟩
  rw [NamedConstant.ofLetter?, List.find?_eq_none]
  intro k _ same
  rw [beq_iff_eq] at same
  refine other (same ▸ ?_)
  cases k <;> decide

end Token

/-! ## Leaves with exact parts -/

namespace Expr

/-- The expression is a number that stands for a Gaussian rational. -/
def IsNumber (t : Expr) (g : GaussianRat) : Prop := ∃ z, t = number z ∧ z.Is g

/-- The expression is a monomial with an exact coefficient and power. -/
def IsMonomial (name : String) (t : Expr) (g : GaussianRat) (q : ℚ) : Prop :=
  ∃ m p, t = leaf (.monomial name m p) ∧ m.Is g ∧ p.Is q

theorem isNumber_ofInt {n : ℤ} (hn : n.natAbs ≤ 2 ^ 53) : (ofInt n).IsNumber n :=
  ⟨_, rfl, Number.is_ofInt hn⟩

theorem isMonomial_ofName (name : String) : (ofName name).IsMonomial name 1 1 :=
  ⟨_, _, rfl, Number.is_one, Value.is_one⟩

variable [Tolerance] {l r t : Expr} {g h : GaussianRat} {p q a : ℚ} {name : String}

namespace IsNumber

theorem isZero_eq (ht : t.IsNumber g) : t.isZero = .ok (decide (g = 0)) := by
  obtain ⟨z, rfl, hz⟩ := ht
  exact hz.isZero_eq

theorem isNumberZero_eq (ht : t.IsNumber g) : t.isNumberZero = .ok (decide (g = 0)) := by
  obtain ⟨z, rfl, hz⟩ := ht
  exact hz.isZero_eq

theorem isOne_eq (ht : t.IsNumber g) : t.isOne = .ok (decide (g = 1)) := by
  obtain ⟨z, rfl, hz⟩ := ht
  exact hz.same_eq Number.is_one

theorem isNegOne_eq (ht : t.IsNumber g) : t.isNegOne = .ok (decide (g = (-1 : ℤ))) := by
  obtain ⟨z, rfl, hz⟩ := ht
  exact hz.same_eq (Number.is_ofInt (by decide))

theorem same_eq (hl : l.IsNumber g) (hr : r.IsNumber h) : l.same r = .ok (decide (g = h)) := by
  obtain ⟨z, rfl, hz⟩ := hl
  obtain ⟨w, rfl, hw⟩ := hr
  exact hz.same_eq hw

end IsNumber

namespace IsMonomial

theorem isZero_eq (ht : t.IsMonomial name g q) : t.isZero = .ok (decide (g = 0)) := by
  obtain ⟨m, p, rfl, hm, -⟩ := ht
  exact hm.isZero_eq

/-- A monomial is no number. -/
theorem apart (ht : t.IsMonomial name g q) : t.isOne = .ok false ∧
    ∀ {r : Expr} {h : GaussianRat}, r.IsNumber h →
      t.same r = .ok false ∧ r.same t = .ok false := by
  obtain ⟨m, p, rfl, -⟩ := ht
  refine ⟨rfl, ?_⟩
  rintro _ _ ⟨z, rfl, -⟩
  exact ⟨rfl, rfl⟩

end IsMonomial

variable [Exactness]

theorem mergeLeaves_eq {op : Binary} {a b c : Leaf}
    (h : Leaf.combine? op a b = .ok (some c)) :
    mergeLeaves op (leaf a) (leaf b) = .ok (leaf c) :=
  Calc.bind_eq_ok.mpr ⟨_, h, rfl⟩

/-! ### Identities

Where an identity spares the merger of two leaves, its result has to be as good. -/

section

variable {P : Expr → Prop} {b c : Leaf}

/-- A number in front of a leaf that is neither zero nor one. -/
theorem combine_number_mul {z : Number} {equal : Bool} (hz : z.Is g)
    (nonzero : (leaf b).isZero = .ok false) (notOne : (leaf b).isOne = .ok false)
    (same : (leaf b).same (number z) = .ok equal) (ofZero : g = 0 → P zero)
    (ofOne : g = 1 → P (leaf b)) (merge : Leaf.combine? .mul (.number z) b = .ok (some c))
    (merged : P (leaf c)) : ∃ t, combine .mul (number z) (leaf b) = .ok t ∧ P t := by
  have factor : (number z).IsNumber g := ⟨z, rfl, hz⟩
  have merger : mergeLeaves .mul (number z) (leaf b) = .ok (leaf c) := mergeLeaves_eq merge
  obtain ⟨rec, first⟩ := combine_leaves .mul nofun (.number z) b
  have identities : combine .mul (number z) (leaf b) = atomicProduct rec (number z) (leaf b) :=
    first
  rw [identities]
  unfold atomicProduct
  rw [factor.isZero_eq, factor.isOne_eq, nonzero, notOne, same, merger]
  by_cases zero : g = 0
  · rw [decide_eq_true zero]
    exact ⟨_, rfl, ofZero zero⟩
  rw [decide_eq_false zero]
  by_cases one : g = 1
  · rw [decide_eq_true one]
    exact ⟨_, rfl, ofOne one⟩
  rw [decide_eq_false one]
  refine ⟨_, ?_, merged⟩
  -- nothing moves in front of a leaf, and equal leaves are merged like others
  cases equal with
  | false => exact if_neg (Bool.eq_false_iff.mp (Bool.and_false _))
  | true => rfl

/-- A leaf over a real number. -/
theorem combine_div_number {w : Number} {vanishes equal : Prop} [Decidable vanishes]
    [Decidable equal] (hw : w.Is ⟨a, 0⟩) (ha : a ≠ 0)
    (dividend : (leaf b).isZero = .ok (decide vanishes))
    (same : (number w).same (leaf b) = .ok (decide equal)) (ofZero : vanishes → P zero)
    (ofOne : a = 1 → P (leaf b)) (ofNegOne : a = -1 → ∃ t, negate (leaf b) = .ok t ∧ P t)
    (ofSame : equal → P one) (merge : Leaf.combine? .div b (.number w) = .ok (some c))
    (merged : P (leaf c)) : ∃ t, combine .div (leaf b) (number w) = .ok t ∧ P t := by
  have divisor : (number w).IsNumber ⟨a, 0⟩ := ⟨w, rfl, hw⟩
  have nonzero : (⟨a, 0⟩ : GaussianRat) ≠ 0 := fun zero => ha (congrArg (·.re) zero)
  have merger : mergeLeaves .div (leaf b) (number w) = .ok (leaf c) := mergeLeaves_eq merge
  obtain ⟨rec, first⟩ := combine_leaves .div nofun b (.number w)
  have identities : combine .div (leaf b) (number w) = atomicQuotient rec (leaf b) (number w) :=
    first
  rw [identities]
  unfold atomicQuotient
  rw [divisor.isZero_eq, divisor.isOne_eq, divisor.isNegOne_eq, dividend, same, merger,
    decide_eq_false nonzero]
  -- the identities are tried in this order, and each has its own answer; the rest merge
  by_cases zero : vanishes
  · rw [decide_eq_true zero]
    exact ⟨_, rfl, ofZero zero⟩
  rw [decide_eq_false zero]
  by_cases unit : (⟨a, 0⟩ : GaussianRat) = 1
  · rw [decide_eq_true unit]
    exact ⟨_, rfl, ofOne (congrArg (·.re) unit)⟩
  rw [decide_eq_false unit]
  by_cases negUnit : (⟨a, 0⟩ : GaussianRat) = (-1 : ℤ)
  · rw [decide_eq_true negUnit]
    exact ofNegOne (congrArg (·.re) negUnit)
  rw [decide_eq_false negUnit]
  by_cases hequal : equal
  · rw [decide_eq_true hequal]
    exact ⟨_, rfl, ofSame hequal⟩
  rw [decide_eq_false hequal]
  exact ⟨_, rfl, merged⟩

end

omit [Tolerance] [Exactness] in
theorem real_div_negOne (p : ℚ) : (⟨p / -1, 0⟩ : GaussianRat) = -⟨p, 0⟩ := by
  ext <;> simp [div_neg]

/-! ### Numbers -/

/-- The opposite of an exact number is exact. -/
theorem IsNumber.negate (ht : t.IsNumber g) : ∃ u, Expr.negate t = .ok u ∧ u.IsNumber (-g) := by
  obtain ⟨z, rfl, hz⟩ := ht
  obtain ⟨w, neg, hw⟩ := hz.neg
  refine ⟨number w, ?_, w, rfl, hw⟩
  show leaf <$> Leaf.number <$> z.neg = _
  rw [neg]
  rfl

/-- A quotient of real numbers. -/
theorem IsNumber.div (hl : l.IsNumber ⟨p, 0⟩) (hr : r.IsNumber ⟨q, 0⟩) (hq : q ≠ 0)
    (narrow : Narrow (p / q)) : ∃ t, combine .div l r = .ok t ∧ t.IsNumber ⟨p / q, 0⟩ := by
  have dividend := hl.isZero_eq
  have same := hr.same_eq hl
  have opposite := hl.negate
  have unchanged := hl
  obtain ⟨z, rfl, hz⟩ := hl
  obtain ⟨w, rfl, hw⟩ := hr
  obtain ⟨v, quotient, hv⟩ := hz.real_div hw hq narrow
  refine combine_div_number hw hq dividend same ?_ ?_ ?_ ?_
    (congrArg (some <$> Leaf.number <$> ·) quotient) ⟨v, rfl, hv⟩
  · -- where an identity answers, its answer is the quotient as well
    intro zero
    obtain rfl : p = 0 := congrArg (·.re) zero
    rw [zero_div]
    exact ⟨_, rfl, Number.is_zero⟩
  · rintro rfl
    rwa [div_one]
  · rintro rfl
    rwa [real_div_negOne]
  · intro equal
    obtain rfl : q = p := congrArg (·.re) equal
    rw [div_self hq]
    exact ⟨_, rfl, Number.is_one⟩

/-- A real number in front of the imaginary unit. -/
theorem IsNumber.mul_i (hl : l.IsNumber ⟨q, 0⟩) :
    ∃ t, combine .mul l (number .i) = .ok t ∧ t.IsNumber ⟨0, q⟩ := by
  have hi : (number .i).IsNumber ⟨0, 1⟩ := ⟨_, rfl, Value.is_zero, Value.is_one⟩
  have nonzero : (⟨0, 1⟩ : GaussianRat) ≠ 0 := fun h => one_ne_zero (congrArg (·.im) h)
  have notOne : (⟨0, 1⟩ : GaussianRat) ≠ 1 := fun h => one_ne_zero (congrArg (·.im) h)
  have same := hi.same_eq hl
  obtain ⟨z, rfl, hz⟩ := hl
  obtain ⟨v, product, hv⟩ : ∃ v, z.mul .i = .ok v ∧ v.Is ⟨0, q⟩ := by
    -- the factor `i` is the right operand, so none of its own identities applies
    have product := hz.real_mul (w := .i) (g := ⟨0, 1⟩) ⟨Value.is_zero, Value.is_one⟩
      ((mul_zero q).symm ▸ Narrow.zero) ((mul_one q).symm ▸ hz.1.narrow)
    rwa [mul_zero, mul_one] at product
  refine combine_number_mul hz (hi.isZero_eq.trans (congrArg _ (decide_eq_false nonzero)))
    (hi.isOne_eq.trans (congrArg _ (decide_eq_false notOne))) same ?_ ?_
    (congrArg (some <$> Leaf.number <$> ·) product) ⟨v, rfl, hv⟩
  · intro zero
    obtain rfl : q = 0 := congrArg (·.re) zero
    exact ⟨_, rfl, Number.is_zero⟩
  · intro one
    obtain rfl : q = 1 := congrArg (·.re) one
    exact hi

/-- The sum or difference of a real and a positive imaginary number. -/
theorem IsNumber.add_imaginary {op : Binary} (hop : op = .add ∨ op = .sub)
    (hl : l.IsNumber ⟨p, 0⟩) (hr : r.IsNumber ⟨0, q⟩) (hp : p ≠ 0) (hq : 0 < q) :
    ∃ t, combine op l r = .ok t ∧ t.IsNumber (op.value ⟨p, 0⟩ ⟨0, q⟩) := by
  have left := hl.isNumberZero_eq
  have right := hr.isNumberZero_eq
  have same := hr.same_eq hl
  obtain ⟨z, rfl, hz⟩ := hl
  obtain ⟨w, rfl, hw⟩ := hr
  obtain ⟨v, value, hv⟩ : ∃ v, Leaf.combine? op (.number z) (.number w) = .ok (some (.number v)) ∧
      v.Is (op.value ⟨p, 0⟩ ⟨0, q⟩) := by
    rcases hop with rfl | rfl
    · obtain ⟨v, sum, hv⟩ := hz.add hw ((add_zero p).symm ▸ hz.1.narrow)
        ((zero_add q).symm ▸ hw.2.narrow)
      exact ⟨v, congrArg (some <$> Leaf.number <$> ·) sum, hv⟩
    · obtain ⟨v, difference, hv⟩ := hz.sub hw ((sub_zero p).symm ▸ hz.1.narrow)
        ((zero_sub q).symm ▸ hw.2.narrow.neg)
      exact ⟨v, congrArg (some <$> Leaf.number <$> ·) difference, hv⟩
  have merge := mergeLeaves_eq value
  -- the right operand has no sign that could move out
  obtain ⟨n, sgn, positive, -⟩ := hw.2.sgn_eq
  have sign : (number w).sgn = .ok n := by
    refine Calc.bind_eq_ok.mpr ⟨_, hw.1.isZero_eq, ?_⟩
    rw [if_pos (decide_eq_true rfl)]
    exact sgn
  have unsigned : ¬n < 0 := by
    have := positive.mpr hq
    omega
  obtain ⟨rec, first⟩ := combine_leaves op (by rcases hop with rfl | rfl <;> nofun)
    (.number z) (.number w)
  have sum : atomicWith rec op (number z) (number w) = atomicSum rec op (number z) (number w) := by
    rcases hop with rfl | rfl <;> rfl
  show ∃ t, combine op (leaf (.number z)) (leaf (.number w)) = .ok t ∧ _
  rw [first]
  show ∃ t, atomicWith rec op (number z) (number w) = .ok t ∧ _
  rw [sum]
  have leftNonzero : (⟨p, 0⟩ : GaussianRat) ≠ 0 := fun h => hp (congrArg (·.re) h)
  have rightNonzero : (⟨0, q⟩ : GaussianRat) ≠ 0 := fun h => hq.ne' (congrArg (·.im) h)
  have differ : (⟨0, q⟩ : GaussianRat) ≠ ⟨p, 0⟩ := fun h => hq.ne' (congrArg (·.im) h)
  unfold atomicSum
  rw [right, left, same, sign, decide_eq_false leftNonzero, decide_eq_false rightNonzero,
    decide_eq_false differ]
  refine ⟨_, ?_, v, rfl, hv⟩
  show (if (decide (n < 0) && true) = true then _ else mergeLeaves op _ _) = _
  rw [decide_eq_false unsigned]
  exact merge

/-! ### Monomials -/

namespace IsMonomial

/-- The opposite of a monomial has the opposite coefficient. -/
theorem negate (ht : t.IsMonomial name g q) :
    ∃ u, Expr.negate t = .ok u ∧ u.IsMonomial name (-g) q := by
  obtain ⟨m, p, rfl, hm, hp⟩ := ht
  obtain ⟨n, neg, hn⟩ := hm.neg
  refine ⟨leaf (.monomial name n p), ?_, n, p, rfl, hn, hp⟩
  show leaf <$> (do return Leaf.monomial name (← m.neg) p) = _
  rw [neg]
  rfl

omit [Exactness] in
/-- A coefficient and a power other than zero make a monomial. -/
theorem ofMonomial_eq {m : Number} {v : Value} (hm : m.Is g) (hv : v.Is q) (hg : g ≠ 0)
    (hq : q ≠ 0) : Leaf.ofMonomial name m v = .ok (.monomial name m v) := by
  unfold Leaf.ofMonomial
  rw [hm.isZero_eq, hv.isZero_eq, decide_eq_false hg, decide_eq_false hq]
  rfl

/-- A power of a variable. -/
theorem pow (hr : r.IsNumber ⟨q, 0⟩) (hq : q ≠ 0) (small : q.num.natAbs ≤ Fraction.powerLimit) :
    ∃ t, combine .pow (ofName name) r = .ok t ∧ t.IsMonomial name 1 q := by
  have nonzero : (⟨q, 0⟩ : GaussianRat) ≠ 0 := fun zero => hq (congrArg (·.re) zero)
  have zero := hr.isNumberZero_eq
  have one := hr.isOne_eq
  obtain ⟨z, rfl, hz⟩ := hr
  obtain ⟨v, exponent, hv⟩ : ∃ v, Value.one.mul z.re = .ok v ∧ v.Is q := by
    have product := Value.isRat_one.mul hz.1.isRat ((one_mul q).symm ▸ hz.1.narrow)
    rwa [one_mul] at product
  have merge : mergeLeaves .pow (ofName name) (number z) =
      .ok (leaf (.monomial name .one v)) := by
    refine mergeLeaves_eq (Calc.bind_eq_ok.mpr ⟨_, hz.isReal_eq, ?_⟩)
    -- a monomial is made of a coefficient and an exponent that are both computed
    rw [if_pos (decide_eq_true rfl)]
    refine Calc.bind_eq_ok.mpr ⟨_, Number.one_pow hz hq small, Calc.bind_eq_ok.mpr
      ⟨_, exponent, ?_⟩⟩
    rw [ofMonomial_eq Number.is_one hv one_ne_zero hq]
    rfl
  obtain ⟨rec, first⟩ := combine_leaves .pow nofun (.ofName name) (.number z)
  show ∃ t, combine .pow (leaf (.ofName name)) (leaf (.number z)) = .ok t ∧ _
  rw [first]
  show ∃ t, raise (ofName name) (number z) = .ok t ∧ _
  unfold raise
  rw [zero, one, merge, decide_eq_false nonzero]
  -- the exponent one gives the name back, which is already the monomial
  by_cases unit : (⟨q, 0⟩ : GaussianRat) = 1
  · obtain rfl : q = 1 := congrArg (·.re) unit
    rw [decide_eq_true unit]
    exact ⟨_, rfl, isMonomial_ofName name⟩
  rw [decide_eq_false unit]
  exact ⟨_, rfl, _, v, rfl, Number.is_one, hv⟩

/-- A coefficient in front of a power of a variable. -/
theorem mul (hl : l.IsNumber g) (hr : r.IsMonomial name 1 q) (hg : g ≠ 0) (hq : q ≠ 0) :
    ∃ t, combine .mul l r = .ok t ∧ t.IsMonomial name g q := by
  have nonzero := hr.isZero_eq
  rw [decide_eq_false one_ne_zero] at nonzero
  obtain ⟨notOne, apart⟩ := hr.apart
  have same := (apart hl).1
  have unchanged := hr
  obtain ⟨z, rfl, hz⟩ := hl
  obtain ⟨m, v, rfl, hm, hv⟩ := hr
  obtain ⟨n, product, hn⟩ : ∃ n, m.mul z = .ok n ∧ n.Is g := by
    have product := Number.Is.real_mul (p := 1) hm hz ((one_mul g.re).symm ▸ hz.1.narrow)
      ((one_mul g.im).symm ▸ hz.2.narrow)
    rwa [one_mul, one_mul] at product
  have merge : Leaf.combine? .mul (.number z) (.monomial name m v) =
      .ok (some (.monomial name n v)) := by
    refine Calc.bind_eq_ok.mpr ⟨_, product, ?_⟩
    rw [ofMonomial_eq hn hv hg hq]
    rfl
  refine combine_number_mul hz nonzero notOne same (fun zero => absurd zero hg) ?_ merge
    ⟨n, v, rfl, hn, hv⟩
  rintro rfl
  exact unchanged
-- the coefficient one leaves the monomial as it is

/-- A monomial with a real coefficient over a real number. -/
theorem div (hl : l.IsMonomial name ⟨p, 0⟩ q) (hr : r.IsNumber ⟨a, 0⟩) (hp : p ≠ 0) (hq : q ≠ 0)
    (ha : a ≠ 0) (narrow : Narrow (p / a)) :
    ∃ t, combine .div l r = .ok t ∧ t.IsMonomial name ⟨p / a, 0⟩ q := by
  have nonzero : ∀ {b : ℚ}, b ≠ 0 → (⟨b, 0⟩ : GaussianRat) ≠ 0 :=
    fun hb zero => hb (congrArg (·.re) zero)
  have dividend := hl.isZero_eq
  obtain ⟨-, apart⟩ := hl.apart
  have same : r.same l = .ok (decide False) := (apart hr).2
  have opposite := hl.negate
  have unchanged := hl
  obtain ⟨m, v, rfl, hm, hv⟩ := hl
  obtain ⟨w, rfl, hw⟩ := hr
  obtain ⟨n, quotient, hn⟩ := hm.real_div hw ha narrow
  have merge : Leaf.combine? .div (.monomial name m v) (.number w) =
      .ok (some (.monomial name n v)) := by
    refine Calc.bind_eq_ok.mpr ⟨_, hw.isZero_eq, ?_⟩
    rw [decide_eq_false (nonzero ha), if_neg Bool.false_ne_true]
    refine Calc.bind_eq_ok.mpr ⟨_, quotient, ?_⟩
    rw [ofMonomial_eq hn hv (nonzero (div_ne_zero hp ha)) hq]
    rfl
  -- a monomial is neither zero nor equal to a number, so two identities are left
  refine combine_div_number hw ha dividend same (fun zero => absurd zero (nonzero hp)) ?_ ?_
    False.elim merge ⟨n, v, rfl, hn, hv⟩
  · rintro rfl
    rwa [div_one]
  · rintro rfl
    rwa [real_div_negOne]

end IsMonomial

end Expr

/-! ## Phrases -/

namespace Phrase

variable [Tolerance] [Exactness] {peephole : Bool} {p p' : Phrase} {P Q R : Expr → Prop}
  {op : Binary} {q : ℚ} {g : GaussianRat} {name : String}

/-- An expression is made of the phrase, and it has a property. -/
def Builds (peephole : Bool) (p : Phrase) (P : Expr → Prop) : Prop :=
  ∃ t, p.build (Expr.builder peephole) = .ok t ∧ P t

/-- Phrases that make two expressions make what these combine to. -/
theorem Builds.combine (hl : p.Builds peephole P) (hr : p'.Builds peephole Q)
    (h : ∀ {l r}, P l → Q r → ∃ t, Expr.combine op l r = .ok t ∧ R t) :
    (combine op p p').Builds peephole R := by
  obtain ⟨l, left, hl⟩ := hl
  obtain ⟨r, right, hr⟩ := hr
  obtain ⟨t, combined, ht⟩ := h hl hr
  exact ⟨t, Calc.bind_eq_ok.mpr ⟨l, left, Calc.bind_eq_ok.mpr ⟨r, right, combined⟩⟩, ht⟩

/-- A phrase with a minus sign makes the opposite. -/
theorem Builds.negate (hp : p.Builds peephole P)
    (h : ∀ {t}, P t → ∃ u, Expr.negate t = .ok u ∧ R u) : (negate p).Builds peephole R := by
  obtain ⟨t, built, ht⟩ := hp
  obtain ⟨u, opposite, hu⟩ := h ht
  exact ⟨u, Calc.bind_eq_ok.mpr ⟨t, built, opposite⟩, hu⟩

theorem builds_integer {n : ℤ} (hn : n.natAbs ≤ 2 ^ 53) :
    (number (.ofInt n)).Builds peephole (·.IsNumber ⟨n, 0⟩) :=
  ⟨_, rfl, Expr.isNumber_ofInt hn⟩

/-- The phrase of a rational number makes this number, by a division if it is no integer. -/
theorem builds_rational (hq : Narrow q) : (rational q).Builds peephole (·.IsNumber ⟨q, 0⟩) := by
  unfold rational
  split
  next den =>
    have integer : (number (.ofInt q.num)).Builds peephole _ := builds_integer hq.1
    rwa [Rat.coe_int_num_of_den_eq_one den] at integer
  next =>
    refine (builds_integer hq.1).combine (builds_integer hq.2) fun hl hr => ?_
    have nonzero : ((q.den : ℤ) : ℚ) ≠ 0 :=
      Int.cast_ne_zero.mpr (Int.natCast_ne_zero.mpr q.den_ne_zero)
    have value : (q.num : ℚ) / (q.den : ℤ) = q := q.num_div_den
    have quotient := hl.div hr nonzero (value.symm ▸ hq)
    rwa [value] at quotient

theorem builds_i : (number .i).Builds peephole (·.IsNumber ⟨0, 1⟩) :=
  ⟨_, rfl, _, rfl, Value.is_zero, Value.is_one⟩

/-- The phrase of an imaginary number makes this number, whether its factor is written or not. -/
theorem builds_imaginary (hq : Narrow q) : (imaginary q).Builds peephole (·.IsNumber ⟨0, q⟩) := by
  unfold imaginary
  split_ifs with one negOne
  · rw [one]
    exact builds_i
  · have value : (⟨0, q⟩ : GaussianRat) = -⟨0, 1⟩ := by
      ext <;> simp [negOne]
    rw [value]
    exact builds_i.negate Expr.IsNumber.negate
  · obtain ⟨l, left, hl⟩ : (rational q).Builds peephole _ := builds_rational hq
    obtain ⟨t, product, ht⟩ := hl.mul_i
    exact ⟨t, Calc.bind_eq_ok.mpr ⟨l, left, product⟩, ht⟩

/-- The phrase of a complex number makes this number: a part that is zero is left out, and a
negative imaginary part is subtracted. -/
theorem builds_gaussian (hre : Narrow g.re) (him : Narrow g.im) :
    (gaussian g).Builds peephole (·.IsNumber g) := by
  have sum : ∀ op : Binary, (op = .add ∨ op = .sub) → g.re ≠ 0 → g.im ≠ 0 →
      (Phrase.combine op (rational g.re) (imaginary |g.im|)).Builds peephole
        (·.IsNumber (op.value ⟨g.re, 0⟩ ⟨0, |g.im|⟩)) := fun _ hop re im =>
    (builds_rational hre).combine (builds_imaginary him.abs) fun hl hr =>
      hl.add_imaginary hop hr re (abs_pos.mpr im)
  unfold gaussian
  -- a real number, an imaginary one, and both parts with their sign between
  split_ifs with im re positive
  · have value : (⟨g.re, 0⟩ : GaussianRat) = g := QuadraticAlgebra.ext rfl im.symm
    have real : (rational g.re).Builds peephole _ := builds_rational hre
    rwa [value] at real
  · have value : (⟨0, g.im⟩ : GaussianRat) = g := QuadraticAlgebra.ext re.symm rfl
    have built : (imaginary g.im).Builds peephole _ := builds_imaginary him
    rwa [value] at built
  · have value : Binary.add.value (⟨g.re, 0⟩ : GaussianRat) ⟨0, |g.im|⟩ = g := by
      rw [abs_of_pos positive]
      ext <;> simp [Binary.value]
    have built := sum .add (.inl rfl) re im
    rwa [value] at built
  · have value : Binary.sub.value (⟨g.re, 0⟩ : GaussianRat) ⟨0, |g.im|⟩ = g := by
      rw [abs_of_nonpos (not_lt.mp positive)]
      ext <;> simp [Binary.value]
    have built := sum .sub (.inr rfl) re im
    rwa [value] at built

/-- The phrase of a power of a variable makes this monomial. -/
theorem builds_power (hq : Narrow q) (nonzero : q ≠ 0)
    (small : q.num.natAbs ≤ Fraction.powerLimit) :
    (power name q).Builds peephole (·.IsMonomial name 1 q) := by
  have letter : (Phrase.letter name).Builds peephole (· = Expr.ofName name) := ⟨_, rfl, rfl⟩
  unfold power
  split
  next one =>
    rw [one]
    exact ⟨_, rfl, Expr.isMonomial_ofName name⟩
  next =>
    refine letter.combine (builds_rational hq) ?_
    rintro _ r rfl hr
    exact Expr.IsMonomial.pow hr nonzero small

/-- The phrase of an integer multiple of a power makes this monomial. -/
theorem builds_multiple {n : ℤ} (hn : n.natAbs ≤ 2 ^ 53) (nonzero : n ≠ 0) (hq : q ≠ 0)
    (hp : p.Builds peephole (·.IsMonomial name 1 q)) :
    (multiple n p).Builds peephole (·.IsMonomial name ⟨n, 0⟩ q) := by
  unfold multiple
  split_ifs with one negOne
  · rw [one, Int.cast_one]
    exact hp
  · have value : (⟨n, 0⟩ : GaussianRat) = -1 := by
      rw [negOne, ← Token.gaussian_intCast, Int.cast_neg, Int.cast_one]
    rw [value]
    exact hp.negate Expr.IsMonomial.negate
  · refine (builds_integer hn).combine hp fun hl hr => Expr.IsMonomial.mul hl hr ?_ hq
    exact fun zero => nonzero (Int.cast_eq_zero.mp (congrArg (·.re) zero))

/-- The phrase of a monomial makes this monomial. -/
theorem builds_monomial (hre : Narrow g.re) (him : Narrow g.im) (hg : g ≠ 0) (hq : Narrow q)
    (nonzero : q ≠ 0) (small : q.num.natAbs ≤ Fraction.powerLimit) :
    (monomial name g q).Builds peephole (·.IsMonomial name g q) := by
  have core : (power name q).Builds peephole (·.IsMonomial name 1 q) :=
    builds_power hq nonzero small
  unfold monomial
  dsimp only
  by_cases im : g.im = 0
  · have real : (⟨g.re, 0⟩ : GaussianRat) = g := QuadraticAlgebra.ext rfl im.symm
    have num : g.re.num ≠ 0 := fun zero =>
      hg (QuadraticAlgebra.ext (Rat.num_eq_zero.mp zero) im)
    have multiple := builds_multiple hre.1 num nonzero core
    rw [if_pos im]
    -- a whole coefficient has no denominator to divide by
    split
    next den =>
      rw [Rat.coe_int_num_of_den_eq_one den, real] at multiple
      exact multiple
    next =>
      have bottom : ((g.re.den : ℤ) : ℚ) ≠ 0 :=
        Int.cast_ne_zero.mpr (Int.natCast_ne_zero.mpr g.re.den_ne_zero)
      have value : (g.re.num : ℚ) / (g.re.den : ℤ) = g.re := g.re.num_div_den
      refine multiple.combine (builds_integer hre.2) fun hl hr => ?_
      have quotient := hl.div hr (Int.cast_ne_zero.mpr num) nonzero bottom (value.symm ▸ hre)
      rwa [value, real] at quotient
  · rw [if_neg im]
    exact (builds_gaussian hre him).combine core fun hl hr =>
      Expr.IsMonomial.mul hl hr hg nonzero

end Phrase

/-! ## Leaves -/

namespace Leaf

/-- The parts of the leaf are narrow fractions. A monomial has a letter for its variable that
stands for no constant, neither its coefficient nor its power is zero, and the numerator of the
power in lowest terms is small. -/
def Printable (allowed : Option (List String)) : Leaf → Prop
  | number z => ∃ g, z.Is g
  | monomial name m p =>
    (∃ c, name = String.singleton c ∧ Text.isLetter c = true ∧ c ∉ ['e', 'i', 'π', 'φ'] ∧
      Token.isAllowed allowed name = true) ∧
      (∃ g, m.Is g ∧ g ≠ 0) ∧ ∃ q, p.Is q ∧ q ≠ 0 ∧ q.num.natAbs ≤ 256

/-- The leaves have the same variable, and their parts are fractions that stand for the same
rational numbers. -/
def SameParts : Leaf → Leaf → Prop
  | number z, number w => ∃ g, z.Is g ∧ w.Is g
  | monomial x m p, monomial y n r => x = y ∧ (∃ g, m.Is g ∧ n.Is g) ∧ ∃ q, p.Is q ∧ r.Is q
  | _, _ => False

/-- Leaves with the same parts are the same. -/
theorem SameParts.same_eq [Tolerance] {a b : Leaf} (h : a.SameParts b) : a.same b = .ok true := by
  cases a with
  | number z =>
    cases b with
    | number w =>
      obtain ⟨g, hz, hw⟩ := h
      rw [Leaf.same, hz.same_eq hw, decide_eq_true rfl]
    | monomial => exact h.elim
  | monomial x m p =>
    cases b with
    | number => exact h.elim
    | monomial y n r =>
      obtain ⟨rfl, ⟨g, hm, hn⟩, q, hp, hr⟩ := h
      rw [Leaf.same, if_pos (beq_self_eq_true x), Calc.both_eq_ok (hm.same_eq hn) (hp.same_eq hr),
        decide_eq_true rfl, decide_eq_true rfl]
      rfl

end Leaf

namespace Expr

variable [Tolerance] {reading : Reading} {allowed : Option (List String)} {layout : Layout}

/-- A text that is read as a phrase is parsed as what is made of the phrase. -/
theorem parse_of_reads {d : ℕ} {s : String} {p : Phrase} {P : Expr → Prop}
    (reads : Token.Reads reading allowed Token.Awaits Token.Stops (.ofPrec d)
      (Text.squeeze s.toList) (· = p)) (builds : p.Builds reading.peephole P) :
    ∃ t, parse reading allowed s = .ok t ∧ P t := by
  obtain ⟨ts, _, tokens, derives, rfl⟩ := Token.tokenize_reads (reads.loosen (Nat.zero_le d))
  obtain ⟨t, built, ht⟩ := builds
  refine ⟨t, Calc.bind_eq_ok.mpr ⟨ts, tokens, ?_⟩, ht⟩
  rw [Parser.parseTokens_derives derives]
  exact built

/-- **Leaves print and read back exactly.** In exact reading the text of a leaf with narrow
fractions for parts is read as one leaf, which stands for the same numbers and is equal to the
first. -/
theorem parse_text_leaf (exact : reading.exact = true) {a : Leaf} (ha : a.Printable allowed) :
    ∃ s b, (leaf a).text layout = .ok s ∧ parse reading allowed s = .ok (leaf b) ∧
      b.SameParts a ∧ (leaf b).same (leaf a) = .ok true := by
  obtain ⟨s, b, text, parsed, parts⟩ : ∃ s b, leafText a = .ok s ∧
      parse reading allowed s = .ok (leaf b) ∧ b.SameParts a := by
    cases a with
    | number z =>
      obtain ⟨g, hz⟩ := ha
      obtain ⟨n, reads, -⟩ := Token.reads_gaussian exact hz.1.narrow hz.2.narrow
      obtain ⟨_, parsed, w, rfl, hw⟩ :=
        parse_of_reads reads (Phrase.builds_gaussian hz.1.narrow hz.2.narrow)
      exact ⟨_, .number w, hz.text_eq, parsed, g, hw, hz⟩
    | monomial name m p =>
      obtain ⟨⟨c, rfl, letter, other, isAllowed⟩, ⟨g, hm, hg⟩, q, hp, hq, small⟩ := ha
      obtain ⟨n, reads, -⟩ := Token.reads_monomial exact
        (Token.isVariable_singleton letter other isAllowed) hp.narrow hm.1.narrow hm.2.narrow
      obtain ⟨_, parsed, n, r, rfl, hn, hr⟩ := parse_of_reads reads
        (Phrase.builds_monomial hm.1.narrow hm.2.narrow hg hp.narrow hq small)
      exact ⟨_, .monomial _ n r, monomialText_eq hm hp, parsed, rfl, ⟨g, hn, hm⟩, q, hr, hp⟩
  exact ⟨s, b, text, parsed, parts, parts.same_eq⟩

omit [Tolerance] in
/-- A coefficient and a power that are not written in lowest terms. -/
theorem parse_text_leaf_unreduced :
    letI := Double.standardTolerance
    let mult : Number := .ofValue (.exact ⟨6, -4, by decide⟩)
    let a := Leaf.monomial "x" mult (.exact ⟨-2, 4, by decide⟩)
    a.Printable none ∧ (leaf a).text ⟨true⟩ = .ok "-3x^(-1/2)/2" ∧
      ∃ b, parse ⟨true, true⟩ none "-3x^(-1/2)/2" = .ok (leaf b) ∧ b.SameParts a ∧
        (leaf b).same (leaf a) = .ok true := by
  let := Double.standardTolerance
  intro mult a
  have hm : mult.Is ⟨-3 / 2, 0⟩ :=
    Number.is_ofValue ⟨_, rfl, _, rfl, by decide, by norm_num [Fraction.toRat]⟩
  have hp : (Value.exact ⟨-2, 4, by decide⟩).Is (-1 / 2) :=
    ⟨_, rfl, _, rfl, by decide, by norm_num [Fraction.toRat]⟩
  have printable : a.Printable none := by
    refine ⟨⟨'x', rfl, by decide, by decide, rfl⟩, ⟨_, hm, ?_⟩, _, hp, by norm_num, ?_⟩
    · exact fun zero => absurd (congrArg (·.re) zero) (by norm_num)
    · decide +kernel
  have text : (leaf a).text ⟨true⟩ = .ok "-3x^(-1/2)/2" := by decide +kernel
  obtain ⟨s, b, spelled, parsed, parts, same⟩ :=
    @parse_text_leaf _ ⟨true, true⟩ none ⟨true⟩ rfl a printable
  rw [text, Except.ok.injEq] at spelled
  subst spelled
  exact ⟨printable, text, b, parsed, parts, same⟩

end Expr

end SymbolicAlgebra
