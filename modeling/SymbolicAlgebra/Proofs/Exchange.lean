import SymbolicAlgebra.Proofs.Combine.Sound
import SymbolicAlgebra.Term.Exchange

/-!
# Terms and back

An expression that is written as a term and read back means what it meant before
(`Term.means_exchange`). Nothing is left of its shape on the way: there are no differences and
quotients among terms, a number is spelled out as the sum of its parts and a monomial as a
product, and what is read back is combined anew.

So terms get a meaning of their own, `Term.Means`, in any field that has a place for all Gaussian
rationals, and the two directions are proved apart: the term of an expression means what the
expression does (`means_ofExpr`), and what is read from a term means what the term does
(`toExpr_exactly`). The terms of a sum are combined from the left
with what has been read of it so far, so the induction of the second carries along what the rest
of a sum or product makes of an expression in front of it (`ReadsBack`).

An exponent has to come back as a number and not only with its value, because a power means
something only with a number for exponent. The imaginary part of an exponent is zero, and
combining drops it at once (`IsInteger.toExpr_eq`).
-/

namespace SymbolicAlgebra

/-! ## Equations -/

namespace Expr

/-- Whether no equation stands in the tree. -/
def isQuantity : Expr → Bool
  | binary .equals _ _ => false
  | node _ l r => l.isQuantity && r.isQuantity
  | _ => true

/-- Whether no equation stands in the tree, unless the whole tree is one. -/
def isStatement : Expr → Bool
  | binary .equals l r => l.isQuantity && r.isQuantity
  | t => t.isQuantity

/-- Only at its root may a statement be an equation. -/
theorem isStatement_eq {t : Expr} (h : ∀ l r, t ≠ binary .equals l r) :
    t.isStatement = t.isQuantity := by
  unfold isStatement
  split
  next l r => exact absurd rfl (h l r)
  next => rfl

end Expr

namespace Term

/-! ## The meaning of a term -/

variable {K : Type} [Field K] [Coefficients K]

/-- The term is an integer: a fraction that is one, or its sum with no imaginary part. -/
inductive IsInteger : Term → ℤ → Prop
  | rational {q : Fraction} {n : ℤ} (narrow : q.isNarrow = true) (value : q.toRat = n) :
    IsInteger (rational q) n
  | real {t : Term} {q : Fraction} {n : ℤ} (part : IsInteger t n) (narrow : q.isNarrow = true)
    (zero : q.toRat = 0) : IsInteger (sum [t, product [rational q, atom .imaginaryUnit]]) n

/-- The term means this element of the field. Sums and products are those of all their terms,
and the exponent of a power is an integer. -/
inductive Means (I : Interpretation K) (σ : String → K) : Term → K → Prop
  | rational {q : Fraction} {a : K} (narrow : q.isNarrow = true)
    (place : Stands ⟨q.toRat, 0⟩ a) : Means I σ (rational q) a
  | imaginaryUnit {a : K} (place : Stands ⟨0, 1⟩ a) : Means I σ (atom .imaginaryUnit) a
  | symbol {x : String} (letter : x.length = 1) : Means I σ (symbol x) (σ x)
  | noSummand : Means I σ (sum []) 0
  | summand {t : Term} {ts : List Term} {a b : K} (first : Means I σ t a)
    (rest : Means I σ (sum ts) b) : Means I σ (sum (t :: ts)) (a + b)
  | noFactor : Means I σ (product []) 1
  | factor {t : Term} {ts : List Term} {a b : K} (first : Means I σ t a)
    (rest : Means I σ (product ts) b) : Means I σ (product (t :: ts)) (a * b)
  | power {t e : Term} {a : K} {n : ℤ} (base : Means I σ t a)
    (exponent : e.IsInteger n) (defined : a ≠ 0 ∨ 0 ≤ n) : Means I σ (power t e) (a ^ n)
  | factorial {t : Term} {a b : K} (argument : Means I σ t a)
    (value : I.factorial a = some b) : Means I σ (factorial t) b
  | function {f : Func} {t : Term} {a b : K} (argument : Means I σ t a)
    (value : I.function f a = some b) : Means I σ (function f t) b

variable {I : Interpretation K} {σ : String → K} {s t e : Term} {a b v : K} {n : ℤ}

/-! ## From expressions -/

namespace Means

theorem isNaN_eq (h : t.Means I σ a) : t.isNaN = false := by
  cases h <;> rfl

theorem isEquation_eq (h : t.Means I σ a) : t.isEquation = false := by
  cases h <;> rfl

/-- Terms that mean something are let through as operands. -/
theorem operands_eq (hs : s.Means I σ a) (ht : t.Means I σ b) :
    operands [s, t] = .ok [s, t] := by
  unfold operands
  rw [List.any_cons, List.any_cons, hs.isEquation_eq, ht.isEquation_eq]
  rfl

theorem single (ht : t.Means I σ a) : Means I σ (product [t]) a := by
  rw [← mul_one a]
  exact .factor ht .noFactor

theorem plus (hs : s.Means I σ a) (ht : t.Means I σ b) : (s.plus t).Means I σ (a + b) := by
  unfold Term.plus
  rw [if_neg (by simp [hs.isNaN_eq]), ← add_zero b]
  exact .summand hs (.summand ht .noSummand)

theorem times (hs : s.Means I σ a) (ht : t.Means I σ b) : (s.times t).Means I σ (a * b) := by
  unfold Term.times
  rw [if_neg (by simp [hs.isNaN_eq])]
  exact .factor hs ht.single

theorem negOne : Means I σ (ofInt (-1)) (-1) := by
  refine .rational (Fraction.isNarrow_ofInt (by norm_num)) ?_
  rw [Fraction.toRat_ofInt]
  exact Coefficients.neg Coefficients.one

/-- The opposite of a term, whose factor minus one joins a product that there is. -/
theorem opposite (ht : t.Means I σ a) : t.opposite.Means I σ (-a) := by
  rw [neg_eq_neg_one_mul a]
  have front : Means I σ (product [ofInt (-1), t]) (-1 * a) := .factor negOne ht.single
  cases ht with
  | noFactor => exact .factor negOne .noFactor
  | factor first rest => exact .factor negOne (.factor first rest)
  | _ => exact front

/-- There are no differences among terms: the opposite is added. -/
theorem minus (hs : s.Means I σ a) (ht : t.Means I σ b) : (s.minus t).Means I σ (a - b) := by
  have sum := hs.plus ht.opposite
  unfold Term.plus at sum
  rw [sub_eq_add_neg]
  exact sum

/-- There are no quotients either: the reciprocal is multiplied to. -/
theorem dividedBy (hs : s.Means I σ a) (ht : t.Means I σ b) (hb : b ≠ 0) :
    (s.dividedBy t).Means I σ (a / b) := by
  have exponent : (ofInt (-1)).IsInteger (-1) :=
    .rational (Fraction.isNarrow_ofInt (by norm_num)) (Fraction.toRat_ofInt _)
  unfold Term.dividedBy
  rw [if_neg (by simp [hs.isNaN_eq]), div_eq_mul_inv, ← zpow_neg_one]
  exact .factor hs (power ht exponent (.inl hb)).single

/-- Two terms that mean something are calculated with. -/
theorem calculate_eq (f : Term → Term → Term) (hs : s.Means I σ a) (ht : t.Means I σ b) :
    calculate f s t = .ok (f s t) := by
  unfold calculate
  rw [if_neg (by simp [hs.isNaN_eq]), hs.operands_eq ht]
  rfl

end Means

/-- A number is the sum of its parts, which have places in the field of their own. -/
theorem means_ofNumber (total : ∀ g, ∃ a : K, Stands g a) {z : Number} (hz : z.StandsFor v) :
    (ofNumber z).Means I σ v := by
  obtain ⟨g, ⟨⟨_, re, p, rfl, hp, real⟩, ⟨_, im, q, rfl, hq, imaginary⟩⟩, place⟩ := hz
  obtain ⟨x, hx⟩ := total ⟨p.reduced.toRat, 0⟩
  obtain ⟨y, hy⟩ := total ⟨q.reduced.toRat, 0⟩
  obtain ⟨i, hi⟩ := total ⟨0, 1⟩
  have parts : g = ⟨p.reduced.toRat, 0⟩ + ⟨q.reduced.toRat, 0⟩ * ⟨0, 1⟩ := by
    rw [p.toRat_reduced, q.toRat_reduced, real, imaginary]
    ext <;> simp
  have value : v = x + y * i :=
    (Coefficients.eq_iff place (Coefficients.add hx (Coefficients.mul hy hi))).mp parts
  unfold ofNumber
  rw [re, im, value]
  exact .plus (.rational (Fraction.isNarrow_reduced hp) hx)
    (.times (.rational (Fraction.isNarrow_reduced hq) hy) (.imaginaryUnit hi))

theorem isInteger_ofValue {p : Value} (hp : p.Is n) : (ofValue p).IsInteger n := by
  obtain ⟨_, rfl, f, rfl, narrow, value⟩ := hp
  exact .rational (Fraction.isNarrow_reduced narrow) (f.toRat_reduced.trans value)

/-- The term of a number that is an integer is one, spelled out with its imaginary part. -/
theorem isInteger_ofNumber {z : Number} (hz : z.Is n) : (ofNumber z).IsInteger n := by
  obtain ⟨⟨_, re, p, rfl, hp, real⟩, ⟨_, im, q, rfl, hq, imaginary⟩⟩ := hz
  unfold ofNumber
  rw [re, im]
  refine .real (.rational (Fraction.isNarrow_reduced hp) (p.toRat_reduced.trans real))
    (Fraction.isNarrow_reduced hq) (q.toRat_reduced.trans imaginary)

/-- The term of an expression without an equation means what the expression does. -/
theorem means_ofExpr (total : ∀ g, ∃ a : K, Stands g a) {t : Expr} (ht : t.isQuantity = true)
    (letters : ∀ x ∈ t.names, x.length = 1) (hv : MeansFrom 0 I σ t v) :
    ∃ s, ofExpr t = .ok s ∧ s.Means I σ v := by
  -- two operands that have terms are joined by a calculation with these
  have calculated : ∀ {op : Binary} {f : Term → Term → Term} {l r : Expr} {a b c : K},
      (∀ s t, ofBinary op s t = calculate f s t) →
      (l.isQuantity = true → (∀ x ∈ l.names, x.length = 1) →
        ∃ s, ofExpr l = .ok s ∧ s.Means I σ a) →
      (r.isQuantity = true → (∀ x ∈ r.names, x.length = 1) →
        ∃ s, ofExpr r = .ok s ∧ s.Means I σ b) →
      (l.isQuantity && r.isQuantity) = true → (∀ x ∈ l.names ++ r.names, x.length = 1) →
      (∀ {s t}, s.Means I σ a → t.Means I σ b → (f s t).Means I σ c) →
      ∃ s, ofExpr (.binary op l r) = .ok s ∧ s.Means I σ c := by
    intro op f l r a b c operator ihl ihr quantities letters means
    obtain ⟨hl, hr⟩ := Bool.and_eq_true_iff.mp quantities
    rw [List.forall_mem_append] at letters
    obtain ⟨s, writtenLeft, left⟩ := ihl hl letters.1
    obtain ⟨t, writtenRight, right⟩ := ihr hr letters.2
    refine ⟨f s t, ?_, means left right⟩
    rw [ofExpr, writtenLeft, writtenRight]
    exact (operator s t).trans (left.calculate_eq f right)
  induction hv with
  | number value => exact ⟨_, rfl, means_ofNumber total value⟩
  | @monomial x m p c k mult power defined =>
    have letter : x.length = 1 := letters x (List.mem_singleton_self x)
    have raised : Means I σ (Term.power (symbol x) (ofValue p)) (σ x ^ k) :=
      .power (.symbol letter) (isInteger_ofValue power) defined
    exact ⟨_, rfl, (means_ofNumber total mult).times raised⟩
  | equals => cases ht
  | add _ _ ihl ihr => exact calculated (fun _ _ => rfl) ihl ihr ht letters Means.plus
  | sub _ _ ihl ihr => exact calculated (fun _ _ => rfl) ihl ihr ht letters Means.minus
  | mul _ _ ihl ihr => exact calculated (fun _ _ => rfl) ihl ihr ht letters Means.times
  | div _ _ hb ihl ihr =>
    exact calculated (fun _ _ => rfl) ihl ihr ht letters fun h h' => h.dividedBy h' hb
  | @pow l z a n hl exponent defined ih =>
    obtain ⟨hl, -⟩ := Bool.and_eq_true_iff.mp ht
    obtain ⟨s, hs, base⟩ := ih hl (List.forall_mem_append.mp letters).1
    refine ⟨_, ?_, Means.power base (isInteger_ofNumber exponent) defined⟩
    rw [ofExpr, hs]
    show ofPower s (ofNumber z) = _
    unfold ofPower
    rw [base.operands_eq (means_ofNumber total ⟨_, exponent, Coefficients.intCast n⟩)]
    rfl
  | factorial _ value ih =>
    obtain ⟨ht, -⟩ := Bool.and_eq_true_iff.mp ht
    obtain ⟨s, hs, argument⟩ := ih ht (List.forall_mem_append.mp letters).1
    refine ⟨_, ?_, Means.factorial argument value⟩
    rw [ofExpr, hs]
    rfl
  | apply _ value ih =>
    obtain ⟨-, ht⟩ := Bool.and_eq_true_iff.mp ht
    obtain ⟨s, hs, argument⟩ := ih ht (List.forall_mem_append.mp letters).2
    refine ⟨_, ?_, Means.function argument value⟩
    rw [ofExpr, hs]
    rfl

/-! ## To expressions -/

/-- A narrow fraction in lowest terms as a number. -/
def ofFraction (q : Fraction) : Number := .ofValue (.plain (.exact q.reduced))

theorem is_ofFraction {q : Fraction} (narrow : q.isNarrow = true) :
    (ofFraction q).Is ⟨q.toRat, 0⟩ :=
  Number.is_ofValue ⟨_, rfl, _, rfl, Fraction.isNarrow_reduced narrow, q.toRat_reduced⟩

/-- The number of a fraction that is an integer stands for that. -/
theorem is_ofFraction_int {q : Fraction} (narrow : q.isNarrow = true) (value : q.toRat = n) :
    (ofFraction q).Is n := by
  have h := is_ofFraction narrow
  rw [value] at h
  exact h

variable [Tolerance] [Printer]

theorem toExpr_rational [Exactness] {q : Fraction} (narrow : q.isNarrow = true) :
    toExpr (rational q) = .ok (.number (ofFraction q)) := by
  rw [toExpr, Scalar.reduce_eq narrow]
  rfl

omit [Printer] in
/-- Zero times the imaginary unit is zero. -/
theorem combine_imaginary [Exactness] {z : Number} (hz : z.Is 0) :
    Expr.combine .mul (.number z) (.number .i) = .ok .zero := by
  obtain ⟨rec, first⟩ := Expr.combine_leaves .mul nofun (.number z) (.number .i)
  refine first.trans ?_
  show Expr.atomicProduct rec (.number z) (.number .i) = _
  unfold Expr.atomicProduct
  have zero : (Expr.number z).isZero = .ok true := hz.isZero_eq
  rw [zero]
  rfl

omit [Printer] in
/-- Zero is dropped from a sum of numbers. -/
theorem combine_noImaginary [Exactness] (z : Number) :
    Expr.combine .add (.number z) .zero = .ok (.number z) := by
  obtain ⟨rec, first⟩ := Expr.combine_leaves .add nofun (.number z) (.number .zero)
  refine first.trans ?_
  show Expr.atomicSum rec .add (.number z) .zero = _
  unfold Expr.atomicSum
  have zero : Expr.zero.isNumberZero = .ok true := Number.is_zero.isZero_eq
  rw [zero]
  rfl

/-- An integer is read as a number. -/
theorem IsInteger.toExpr_eq (h : e.IsInteger n) :
    ∃ z, (∀ [Exactness], toExpr e = .ok (.number z)) ∧ z.Is n := by
  induction h with
  | rational narrow value => exact ⟨_, toExpr_rational narrow, is_ofFraction_int narrow value⟩
  | @real t q n part narrow zero ih =>
    obtain ⟨z, read, hz⟩ := ih
    have imaginary : (ofFraction q).Is 0 := by
      have h := is_ofFraction_int (n := 0) narrow (by rw [zero, Int.cast_zero])
      rw [Int.cast_zero] at h
      exact h
    refine ⟨z, ?_, hz⟩
    intro exactness
    -- the imaginary part is read as zero, and the sum drops it
    have product : toExpr (product [Term.rational q, atom .imaginaryUnit]) = .ok .zero := by
      rw [toExpr, toExpr_rational narrow]
      show combineAll .mul (.number (ofFraction q)) [atom .imaginaryUnit] = _
      rw [combineAll, toExpr]
      show (Expr.combine .mul (.number (ofFraction q)) (.number .i) >>= _) = _
      rw [combine_imaginary imaginary]
      rfl
    rw [toExpr, read]
    show combineAll .add (.number z) [Term.product [Term.rational q, atom .imaginaryUnit]] = _
    rw [combineAll, product]
    show (Expr.combine .add (.number z) .zero >>= _) = _
    rw [combine_noImaginary]
    rfl

/-- What reading makes of a term: an expression with its meaning and, if it is a sum or product,
the change by its meaning of an expression in front. -/
structure ReadsBack (I : Interpretation K) (σ : String → K) (t : Term) (v : K) : Prop where
  expr : Exactly (fun _ => toExpr t) (Expr.Combined I σ v)
  summands {ts : List Term} {acc : Expr} {a : K} : t = sum ts →
    Expr.Combined I σ a acc → Exactly (fun _ => combineAll .add acc ts) (Expr.Combined I σ (a + v))
  factors {ts : List Term} {acc : Expr} {a : K} : t = product ts →
    Expr.Combined I σ a acc → Exactly (fun _ => combineAll .mul acc ts) (Expr.Combined I σ (a * v))

namespace ReadsBack

variable {ts : List Term}

/-- A term that is no sum and no product. -/
theorem of_expr (h : Exactly (fun _ => toExpr t) (Expr.Combined I σ v)) (sum : ∀ ts, t ≠ sum ts)
    (product : ∀ ts, t ≠ product ts) : ReadsBack I σ t v :=
  ⟨h, fun ht => absurd ht (sum _), fun ht => absurd ht (product _)⟩

/-- One more summand, in front of a sum that reads back. -/
theorem summand (first : ReadsBack I σ t a) (rest : ReadsBack I σ (sum ts) b) :
    ReadsBack I σ (sum (t :: ts)) (a + b) where
  expr := by
    simp only [toExpr]
    exact first.expr.bind fun _ h => rest.summands rfl h
  summands := by
    rintro _ acc c ⟨rfl⟩ hc
    simp only [combineAll]
    rw [← add_assoc]
    refine first.expr.bind fun l hl => ?_
    refine (Expr.combine_exactly hc.flat hl.flat (.add hc.means hl.means)).bind fun _ h => ?_
    exact rest.summands rfl h
  factors := nofun

/-- One more factor, in front of a product that reads back. -/
theorem factor (first : ReadsBack I σ t a) (rest : ReadsBack I σ (product ts) b) :
    ReadsBack I σ (product (t :: ts)) (a * b) where
  expr := by
    simp only [toExpr]
    exact first.expr.bind fun _ h => rest.factors rfl h
  summands := nofun
  factors := by
    rintro _ acc c ⟨rfl⟩ hc
    simp only [combineAll]
    rw [← mul_assoc]
    refine first.expr.bind fun l hl => ?_
    refine (Expr.combine_exactly hc.flat hl.flat (.mul hc.means hl.means)).bind fun _ h => ?_
    exact rest.factors rfl h

end ReadsBack

/-- What is read from a term means what the term does. -/
theorem Means.readsBack (h : t.Means I σ v) : ReadsBack I σ t v := by
  induction h with
  | rational narrow place =>
    refine .of_expr ?_ nofun nofun
    exact .of_forall (fun _ => toExpr_rational narrow)
      (Expr.combined_number ⟨_, is_ofFraction narrow, place⟩)
  | imaginaryUnit place =>
    refine .of_expr ?_ nofun nofun
    have unit : Number.i.Is ⟨0, 1⟩ := ⟨Value.is_zero, Value.is_one⟩
    simp only [toExpr, atomExpr]
    exact .pure (Expr.combined_number ⟨_, unit, place⟩)
  | @symbol x letter =>
    refine .of_expr ?_ nofun nofun
    simp only [toExpr, symbolExpr, if_pos letter]
    exact .pure ⟨Expr.means_ofName le_rfl x, True.intro⟩
  | noSummand =>
    refine ⟨?_, ?_, nofun⟩
    · simp only [toExpr]
      exact .pure Expr.combined_zero
    · -- nothing changes what stands in front
      rintro _ acc a ⟨rfl⟩ ha
      simp only [combineAll, add_zero]
      exact .pure ha
  | summand _ _ first rest => exact first.summand rest
  | noFactor =>
    refine ⟨?_, nofun, ?_⟩
    · simp only [toExpr]
      exact .pure Expr.combined_one
    · rintro _ acc a ⟨rfl⟩ ha
      simp only [combineAll, mul_one]
      exact .pure ha
  | factor _ _ first rest => exact first.factor rest
  | @power t e a n _ exponent defined ih =>
    refine .of_expr ?_ nofun nofun
    simp only [toExpr]
    refine ih.expr.bind fun l hl => ?_
    obtain ⟨z, read, hz⟩ := exponent.toExpr_eq
    refine (Exactly.of_forall (fun _ => read) rfl).bind fun r hr => ?_
    subst hr
    exact Expr.combine_exactly hl.flat True.intro (.pow hl.means hz defined)
  | factorial _ value ih =>
    refine .of_expr ?_ nofun nofun
    simp only [toExpr]
    refine ih.expr.bind fun t ht => ?_
    exact .pure ⟨.factorial ht.means value, ht.flat, True.intro, nofun, nofun⟩
  | function _ value ih =>
    refine .of_expr ?_ nofun nofun
    simp only [toExpr]
    refine ih.expr.bind fun t ht => ?_
    exact .pure ⟨.apply ht.means value, True.intro, ht.flat, nofun, nofun⟩

/-- What is read from a term is a tree with the meaning of the term. -/
theorem toExpr_exactly (h : t.Means I σ v) :
    Exactly (fun _ => toExpr t) (Expr.Combined I σ v) :=
  h.readsBack.expr

/-! ## There and back -/

/-- An expression without an equation comes back with its meaning. -/
theorem exchange_quantity (total : ∀ g, ∃ a : K, Stands g a) {t : Expr} (ht : t.isQuantity = true)
    (letters : ∀ x ∈ t.names, x.length = 1) (hv : MeansFrom 0 I σ t v) :
    Exactly (fun _ => ofExpr t >>= toExpr) (Expr.Combined I σ v) := by
  obtain ⟨s, written, means⟩ := means_ofExpr total ht letters hv
  rw [written]
  exact toExpr_exactly means

/-- The sides of an equation come back one by one. -/
theorem exchange_equals (total : ∀ g, ∃ a : K, Stands g a) {l r : Expr}
    (hl : l.isQuantity = true) (hr : r.isQuantity = true)
    (letters : ∀ x ∈ l.names ++ r.names, x.length = 1) (ha : MeansFrom 0 I σ l a)
    (hb : MeansFrom 0 I σ r b) :
    Exactly (fun _ => ofExpr (.binary .equals l r) >>= toExpr) fun t =>
      ∃ l' r', t = .binary .equals l' r' ∧ Expr.Combined I σ a l' ∧ Expr.Combined I σ b r' := by
  rw [List.forall_mem_append] at letters
  obtain ⟨s, writtenLeft, left⟩ := means_ofExpr total hl letters.1 ha
  obtain ⟨u, writtenRight, right⟩ := means_ofExpr total hr letters.2 hb
  have written : ofExpr (.binary .equals l r) = .ok (equation s u) := by
    rw [ofExpr, writtenLeft, writtenRight]
    rfl
  rw [written]
  show Exactly (fun _ => toExpr (equation s u)) _
  simp only [toExpr]
  refine (toExpr_exactly left).bind fun l' hl' => ?_
  refine (toExpr_exactly right).bind fun r' hr' => ?_
  exact .of_forall (fun _ => Expr.combine_equals l' r') ⟨l', r', rfl, hl', hr'⟩

/-- Written as a term and read back, an expression in single letters means what it meant before,
and an equation stays one, side by side. -/
theorem means_exchange (total : ∀ g, ∃ a : K, Stands g a) {t : Expr} (ht : t.isStatement = true)
    (letters : ∀ x ∈ t.names, x.length = 1) (hv : MeansFrom 0 I σ t v)
    (exact : StaysExact fun _ => ofExpr t >>= toExpr) :
    ∃ t', (ofExpr t >>= toExpr) = .ok t' ∧ MeansFrom 0 I σ t' v ∧
      ∀ l r a b, t = .binary .equals l r → MeansFrom 0 I σ l a → MeansFrom 0 I σ r b →
        ∃ l' r', t' = .binary .equals l' r' ∧ MeansFrom 0 I σ l' a ∧ MeansFrom 0 I σ r' b := by
  -- the two sides of an equation are exchanged one by one, and it stands at the root only
  by_cases equation : ∃ l r, t = .binary .equals l r
  · obtain ⟨l, r, rfl⟩ := equation
    obtain ⟨hl, hr⟩ := Bool.and_eq_true_iff.mp ht
    cases hv with
    | equals ha hb =>
      obtain ⟨_, back, l', r', rfl, left, right⟩ :=
        (exchange_equals total hl hr letters ha hb).result exact
      have left := left.means.mono zero_le_one
      have right := right.means.mono zero_le_one
      refine ⟨_, back, .equals left right, ?_⟩
      rintro _ _ a b ⟨rfl⟩ ha' hb'
      rw [ha'.unique ha, hb'.unique hb]
      exact ⟨l', r', rfl, left, right⟩
  · rw [Expr.isStatement_eq fun l r h => equation ⟨l, r, h⟩] at ht
    obtain ⟨t', back, combined⟩ := (exchange_quantity total ht letters hv).result exact
    exact ⟨t', back, combined.means.mono zero_le_one, fun l r _ _ h => absurd ⟨l, r, h⟩ equation⟩

omit [Tolerance] [Printer] in
/-- An equation with a denominator below zero, a quotient, a difference and a function. -/
theorem means_exchange_equation :
    letI := Double.standardTolerance
    letI := Printer.absent
    let σ : String → GaussianRat := fun _ => 1
    let I : Interpretation GaussianRat := ⟨fun _ a => some (a + 1), fun _ => none⟩
    let half : Expr := .number (.ofValue (.plain (.exact ⟨2, -4, by decide⟩)))
    let x := Expr.ofName "x"
    let t := Expr.binary .equals (.binary .div x (.binary .sub half x)) (.apply .ln x)
    ∃ l r, (ofExpr t >>= toExpr) = .ok (.binary .equals l r) ∧ MeansFrom 0 I σ l (-2 / 3) ∧
      MeansFrom 0 I σ r 2 := by
  let := Double.standardTolerance
  let := Printer.absent
  intro σ I half x t
  have letter : MeansFrom 0 I σ x 1 := Expr.means_ofName zero_le_one "x"
  have number : MeansFrom 0 I σ half (-1 / 2) := by
    refine .number ⟨⟨-1 / 2, 0⟩, Number.is_ofValue ⟨_, rfl, _, rfl, by decide, ?_⟩, ?_⟩
    · norm_num [Fraction.toRat]
    · refine (eq_div_iff two_ne_zero).mpr ?_
      ext <;> norm_num [QuadraticAlgebra.re_ofNat, QuadraticAlgebra.im_ofNat] <;> rfl
  have quotient : MeansFrom 0 I σ (.binary .div x (.binary .sub half x)) (-2 / 3) := by
    have value : (-2 / 3 : GaussianRat) = 1 / (-1 / 2 - 1) := by norm_num
    rw [value]
    exact .div letter (.sub number letter) (by norm_num)
  have logarithm : MeansFrom 0 I σ (.apply .ln x) 2 := .apply letter (by norm_num [I])
  have letters : ∀ y ∈ t.names, y.length = 1 := by decide
  obtain ⟨_, back, -, sides⟩ := means_exchange (fun g => ⟨g, rfl⟩) (by decide) letters
    (.equals quotient logarithm) (by unfold StaysExact; decide +kernel)
  obtain ⟨l, r, rfl, left, right⟩ := sides _ _ _ _ rfl quotient logarithm
  exact ⟨l, r, back, left, right⟩

omit [Tolerance] [Printer] in
/-- A variable of two letters means something and does not come back. -/
theorem exchange_longName :
    letI := Double.standardTolerance
    letI := Printer.absent
    let t := Expr.ofName "xy"
    t.isStatement = true ∧ MeansFrom 0 .none (fun _ => (2 : GaussianRat)) t 2 ∧
      (StaysExact fun _ => ofExpr t >>= toExpr) ∧
      (ofExpr t >>= toExpr) = .error (.longName "xy") := by
  let := Double.standardTolerance
  let := Printer.absent
  intro t
  exact ⟨rfl, Expr.means_ofName zero_le_one "xy", by unfold StaysExact; decide, by decide⟩

end Term

end SymbolicAlgebra
