import SymbolicAlgebra.Proofs.Combine.Cancel
import SymbolicAlgebra.Proofs.Combine.Sound
import SymbolicAlgebra.Proofs.Exact.Rational

/-!
# Sums of terms

A number and a monomial `c * x ^ p` are *terms*, each of a kind: the variable with its power, or
none for a number (`Leaf.IsTerm`). However terms are added, subtracted and negated with
`Expr.combine` and `Expr.negate`, what comes out is collected (`Collected`): one term for each kind
whose coefficient is not zero, in a chain that nests to the left, and the number zero if there is
none (`sums_collect`). The only condition is that no coefficient on the way becomes too wide.

A chain is described by the coefficients of its kinds (`Chain`). The right operands in it are
positive, the operator in front of each has its sign. A new term joins the one of its kind
(`spliceWith_joins`) or passes the whole chain (`spliceWith_passes`), and then it is put at its end
(`atomicSum_term`). So combining with one term adds it to the coefficients (`combine_term`), and
with a chain it does so for one term after the other (`combine_chain`).
-/

namespace SymbolicAlgebra

/-- What a term is a multiple of: a variable with its power, or none for a number. -/
abbrev Kind := Option (String × ℚ)

/-- A coefficient, or all of them, with the sign of their place, which may be inverted. -/
def signed {α : Type} [Neg α] (inverted : Bool) (c : α) : α := if inverted then -c else c

section

variable {α : Type} [AddCommGroup α]

@[simp] theorem signed_zero (inverted : Bool) : signed inverted (0 : α) = 0 := by
  cases inverted <;> simp [signed]

@[simp] theorem signed_eq_zero {inverted : Bool} {c : α} : signed inverted c = 0 ↔ c = 0 := by
  cases inverted <;> simp [signed]

theorem signed_neg (inverted : Bool) (c : α) : signed inverted (-c) = -signed inverted c := by
  cases inverted <;> simp [signed]

theorem signed_add (inverted : Bool) (c d : α) :
    signed inverted (c + d) = signed inverted c + signed inverted d := by
  cases inverted <;> simp [signed, add_comm]

/-- The sign of a place inside an inverted one. -/
theorem signed_signed (inverted outer : Bool) (c : α) :
    signed outer (signed (inverted != outer) c) = signed inverted c := by
  cases inverted <;> cases outer <;> simp [signed]

namespace Binary

variable {op inner : Binary}

theorem signed_flip (hop : op.level = some .sum) (c : α) :
    signed op.flip.isInverted c = -signed op.isInverted c := by
  cases op <;> cases hop <;> simp [flip, isInverted, signed]

/-- The sign of the second part of a chain on the right. -/
theorem signed_second (hop : op.level = some .sum) (hinner : inner.level = some .sum) (c : α) :
    signed (op.second inner).isInverted c = signed op.isInverted (signed inner.isInverted c) := by
  cases op <;> cases hop <;> cases inner <;> cases hinner <;>
    simp [second, flip, isInverted, signed]

end Binary

end

@[simp] theorem signed_apply (inverted : Bool) (f : Kind → ℚ) (k : Kind) :
    signed inverted f k = signed inverted (f k) := by
  cases inverted <;> rfl

/-- The sign of one coefficient. -/
theorem signed_single (inverted : Bool) (k : Kind) (c : ℚ) :
    signed inverted (Pi.single k c : Kind → ℚ) = Pi.single k (signed inverted c) := by
  cases inverted
  · rfl
  · exact (Pi.single_neg (f := fun _ => ℚ) k c).symm

theorem narrow_signed {inverted : Bool} {c : ℚ} : Narrow (signed inverted c) ↔ Narrow c := by
  cases inverted <;> simp [signed, Narrow]

theorem Binary.level_flip {op : Binary} {level : Level} (hop : op.level = some level) :
    op.flip.level = some level := by
  cases op <;> exact hop

namespace Leaf

/-- A leaf that is a multiple of a kind of term, with a rational coefficient. A monomial has a
coefficient and a power other than zero. -/
inductive IsTerm : Leaf → Kind → ℚ → Prop
  /-- A number. -/
  | number {z : Number} {c : ℚ} (value : z.IsRat c) : IsTerm (.number z) none c
  /-- A monomial. -/
  | monomial {x : String} {m : Number} {p : Value} {c q : ℚ} (mult : m.IsRat c)
      (power : p.IsRat q) (nonzero : c ≠ 0) (order : q ≠ 0) : IsTerm (.monomial x m p) (some (x, q)) c

/-- A leaf that stands for a term whose coefficient may have become zero. -/
def Amounts (a : Leaf) (k : Kind) (c : ℚ) : Prop :=
  c ≠ 0 ∧ a.IsTerm k c ∨ c = 0 ∧ a.IsTerm none 0

section

variable {a b : Leaf} {k k' : Kind} {c c' : ℚ}

/-- A term amounts to its coefficient. -/
theorem IsTerm.amounts (h : a.IsTerm k c) : a.Amounts k c := by
  by_cases zero : c = 0
  · subst zero
    cases h with
    | number value => exact .inr ⟨rfl, .number value⟩
    | monomial _ _ nonzero => exact absurd rfl nonzero
  · exact .inl ⟨zero, h⟩

variable [Tolerance]

theorem IsTerm.isZero_eq (h : a.IsTerm k c) : a.isZero = .ok (decide (c = 0)) := by
  cases h with
  | number value => exact value.isZero_eq
  | monomial mult => exact mult.isZero_eq

/-- Only numbers are terms that may be zero. -/
theorem IsTerm.isNumberZero_eq (h : a.IsTerm k c) : a.isNumberZero = .ok (decide (c = 0)) := by
  cases h with
  | number value => exact value.isZero_eq
  | monomial _ _ nonzero =>
    rw [decide_eq_false nonzero]
    rfl

/-- A term other than zero has the sign of its coefficient. -/
theorem IsTerm.sgn_eq (h : a.IsTerm k c) (nonzero : c ≠ 0) :
    ∃ n, a.sgn = .ok n ∧ (n < 0 ↔ c < 0) := by
  cases h with
  | number value => exact value.sgn_eq nonzero
  | monomial mult => exact mult.sgn_eq nonzero

/-- Terms are equal if they are multiples of one kind by one coefficient. -/
theorem IsTerm.same_eq (ha : a.IsTerm k c) (hb : b.IsTerm k' c') :
    a.same b = .ok (decide (k = k' ∧ c = c')) := by
  cases ha with
  | number value =>
    cases hb with
    | number value' =>
      refine (value.same_eq value').trans ?_
      simp
    | monomial => rfl
  | @monomial x m p _ q mult power =>
    cases hb with
    | number => rfl
    | @monomial y m' p' _ q' mult' power' =>
      show (if x == y then Calc.both (m.same m') (p.same p') else pure false) = _
      by_cases name : x = y
      · subst name
        rw [if_pos (beq_self_eq_true x),
          Calc.both_eq_ok (mult.same_eq mult') (power.same_eq power')]
        simp [and_comm]
      · rw [if_neg (mt beq_iff_eq.mp name)]
        simp [name]
        rfl

theorem IsTerm.isOne_eq (h : a.IsTerm k c) : a.isOne = .ok (decide (k = none ∧ c = 1)) := by
  rw [← h.same_eq (.number Number.isRat_one)]
  cases a <;> rfl

/-- Monomials are compatible in a sum if they are of one kind. -/
theorem compatible_terms {x y : String} {m n : Number} {p p' : Value} {q q' : ℚ} (hp : p.IsRat q)
    (hp' : p'.IsRat q') : Leaf.compatible false (.monomial x m p) (.monomial y n p') =
      .ok (decide ((some (x, q) : Kind) = some (y, q'))) := by
  show (if x == y then p'.same p else pure false) = _
  by_cases name : x = y
  · subst name
    rw [if_pos (beq_self_eq_true x), hp'.same_eq hp]
    simp [eq_comm]
  · rw [if_neg (mt beq_iff_eq.mp name)]
    simp [name]
    rfl

variable [Exactness]

/-- The opposite of a term is a term of the same kind. -/
theorem IsTerm.neg (h : a.IsTerm k c) : ∃ b, a.neg = .ok b ∧ b.IsTerm k (-c) := by
  cases h with
  | @number z _ value =>
    obtain ⟨r, neg, hr⟩ := value.neg
    refine ⟨.number r, ?_, .number hr⟩
    show Leaf.number <$> z.neg = _
    rw [neg]
    rfl
  | @monomial x m p _ q mult power nonzero order =>
    obtain ⟨r, neg, hr⟩ := mult.neg
    refine ⟨.monomial x r p, ?_, .monomial hr power (neg_ne_zero.mpr nonzero) order⟩
    show m.neg >>= (fun mult => pure (Leaf.monomial x mult p)) = _
    rw [neg]
    rfl

/-! ### Two terms -/

omit [Exactness] in
/-- Monomials of one kind make one monomial, or zero. -/
theorem sum?_alike {f : Number → Number → Calc Number} {x : String} {m n r : Number} {p p' : Value}
    {d q : ℚ} (hp : p.IsRat q) (hp' : p'.IsRat q) (order : q ≠ 0) (value : f m n = .ok r)
    (hr : r.IsRat d) : ∃ b, sum? f (.monomial x m p) (.monomial x n p') = .ok (some b) ∧
      b.Amounts (some (x, q)) d := by
  have one : sum? f (.monomial x m p) (.monomial x n p') = r.isZero >>= fun zero =>
      if zero = true then pure (some (Leaf.number .zero)) else
        pure (some (Leaf.monomial x r p)) := by
    unfold sum?
    simp only [compatible_terms hp hp']
    show f m n >>= _ = _
    -- a coefficient of zero leaves the number zero, with no variable in it
    rw [value]
    rfl
  rw [one, hr.isZero_eq]
  by_cases zero : d = 0
  · rw [decide_eq_true zero]
    exact ⟨_, rfl, .inr ⟨zero, .number Number.isRat_zero⟩⟩
  · rw [decide_eq_false zero]
    exact ⟨_, rfl, .inl ⟨zero, .monomial hr hp zero order⟩⟩

omit [Exactness] in
/-- An operation on coefficients makes one leaf of two terms of one kind. -/
theorem join_alike {f : Number → Number → Calc Number} {d : ℚ} (ha : a.IsTerm k c)
    (hb : b.IsTerm k c') (hf : ∀ z w : Number, z.IsRat c → w.IsRat c' →
      ∃ r, f z w = .ok r ∧ r.IsRat d) :
    ∃ o, (match a, b with
      | .number z, .number w => some <$> Leaf.number <$> f z w
      | _, _ => sum? f a b) = .ok (some o) ∧ o.Amounts k d := by
  cases ha with
  -- numbers join by `f`; two monomials of one kind join their coefficients
  | @number z _ value =>
    cases hb with
    | @number w _ value' =>
      obtain ⟨r, join, hr⟩ := hf z w value value'
      refine ⟨.number r, ?_, IsTerm.amounts (.number hr)⟩
      show some <$> Leaf.number <$> f z w = _
      rw [join]
      rfl
  | @monomial x m p _ q mult power _ order =>
    cases hb with
    | @monomial _ n p' _ _ mult' power' =>
      obtain ⟨r, join, hr⟩ := hf m n mult mult'
      exact sum?_alike power power' order join hr

variable {op : Binary}

/-- Terms of one kind add up. -/
theorem combine?_alike (hop : op.level = some .sum) (ha : a.IsTerm k c) (hb : b.IsTerm k c')
    (narrow : Narrow (c + signed op.isInverted c')) :
    ∃ o, combine? op a b = .ok (some o) ∧ o.Amounts k (c + signed op.isInverted c') := by
  cases op with
  | equals | mul | div | pow => cases hop
  | add =>
    obtain ⟨o, join, ho⟩ := join_alike ha hb fun z w hz hw => hz.add hw narrow
    refine ⟨o, ?_, ho⟩
    rw [← join]
    cases ha <;> cases hb <;> rfl
  | sub =>
    have difference : c + signed Binary.sub.isInverted c' = c - c' := (sub_eq_add_neg c c').symm
    rw [difference] at narrow ⊢
    obtain ⟨o, join, ho⟩ := join_alike ha hb fun z w hz hw => hz.sub hw narrow
    refine ⟨o, ?_, ho⟩
    rw [← join]
    cases ha <;> cases hb <;> rfl

/-- Terms of different kinds stay apart. -/
theorem combine?_apart (hop : op.level = some .sum) (ha : a.IsTerm k c) (hb : b.IsTerm k' c')
    (apart : k ≠ k') : combine? op a b = .ok none := by
  cases ha with
  | number =>
    cases hb with
    | number => exact absurd rfl apart
    | monomial => cases op <;> cases hop <;> rfl
  | monomial _ power =>
    cases hb with
    | number => cases op <;> cases hop <;> rfl
    | monomial _ power' =>
      cases op <;> cases hop <;>
        simp only [combine?, sum?, compatible_terms power power', decide_eq_false apart] <;> rfl

/-- Twice a term. -/
theorem product?_two (ha : a.IsTerm k c) (narrow : Narrow (c + c)) (nonzero : c ≠ 0) :
    ∃ o, combine? .mul (.ofInt 2) a = .ok (some o) ∧ o.IsTerm k (c + c) := by
  have two : (Number.ofInt 2).IsRat 2 := Number.isRat_ofInt 2
  cases ha with
  | @number z _ value =>
    rw [← two_mul] at narrow ⊢
    obtain ⟨r, mul, hr⟩ := two.mul value narrow
    refine ⟨.number r, ?_, .number hr⟩
    show some <$> Leaf.number <$> (Number.ofInt 2).mul z = _
    rw [mul]
    rfl
  | @monomial x m p _ q mult power _ order =>
    rw [← mul_two] at narrow ⊢
    obtain ⟨r, mul, hr⟩ := mult.mul two narrow
    have double : c * 2 ≠ 0 := mul_ne_zero nonzero two_ne_zero
    refine ⟨.monomial x r p, ?_, .monomial hr power double order⟩
    show (m.mul (.ofInt 2) >>= fun mult => some <$> ofMonomial x mult p) = _
    rw [mul]
    show some <$> ofMonomial x r p = _
    unfold ofMonomial
    rw [hr.isZero_eq, power.isZero_eq, decide_eq_false double, decide_eq_false order]
    rfl

end

end Leaf

namespace Expr

open Leaf (IsTerm)

/-- A chain of terms of different kinds that nests to the left, with the coefficients of all kinds.
A term behind an operator is positive. -/
inductive Chain : Expr → (Kind → ℚ) → Prop
  /-- One term. -/
  | one {a : Leaf} {k : Kind} {c : ℚ} (ha : a.IsTerm k c) (nonzero : c ≠ 0) :
    Chain (leaf a) (Pi.single k c)
  /-- One more term. -/
  | more {op : Binary} {l : Expr} {f : Kind → ℚ} {a : Leaf} {k : Kind} {c : ℚ}
    (hop : op.level = some .sum) (hl : Chain l f) (ha : a.IsTerm k c) (positive : 0 < c)
    (fresh : f k = 0) : Chain (binary op l (leaf a)) (f + Pi.single k (signed op.isInverted c))

/-- A chain of terms, or the number zero if all coefficients are. -/
def Collected (t : Expr) (f : Kind → ℚ) : Prop :=
  t.Chain f ∨ f = 0 ∧ ∃ a : Leaf, t = leaf a ∧ a.IsTerm none 0

section

variable {t l r : Expr} {f g : Kind → ℚ} {op : Binary} {a b : Leaf} {k k' : Kind} {c c' : ℚ}

/-- A single term has no coefficient for a kind only if that is another one. -/
theorem apart_of_single (nonzero : c ≠ 0) (fresh : (Pi.single k' c : Kind → ℚ) k = 0) :
    k' ≠ k := by
  rintro rfl
  rw [Pi.single_eq_same] at fresh
  exact nonzero fresh

/-- A chain has no coefficient for a kind only if that is not the last one and the rest of the chain
has none for it. -/
theorem apart_of_node (positive : 0 < c) (last : f k' = 0)
    (fresh : (f + (Pi.single k' (signed op.isInverted c) : Kind → ℚ)) k = 0) :
    k' ≠ k ∧ f k = 0 := by
  have nonzero : signed op.isInverted c ≠ 0 := mt signed_eq_zero.mp positive.ne'
  by_cases same : k' = k
  · subst same
    rw [Pi.add_apply, last, zero_add, Pi.single_eq_same] at fresh
    exact absurd fresh nonzero
  · rw [Pi.add_apply, Pi.single_eq_of_ne (Ne.symm same), add_zero] at fresh
    exact ⟨same, fresh⟩

theorem collected_of_amounts (h : a.Amounts k c) : (leaf a).Collected (Pi.single k c) := by
  rcases h with ⟨nonzero, ha⟩ | ⟨zero, ha⟩
  · exact .inl (.one ha nonzero)
  · exact .inr ⟨by rw [zero, Pi.single_zero], a, rfl, ha⟩

/-- Some coefficient of a chain is not zero. -/
theorem Chain.ne_zero (h : t.Chain f) : f ≠ 0 := by
  intro zero
  cases h with
  | one ha nonzero => exact apart_of_single nonzero (congrFun zero _) rfl
  | more hop hl ha positive fresh => exact (apart_of_node positive fresh (congrFun zero _)).1 rfl

theorem Collected.chain (h : t.Collected f) (nonzero : f ≠ 0) : t.Chain f :=
  h.resolve_right fun zero => nonzero zero.1

variable [Tolerance]

theorem Chain.isNumberZero_eq (h : t.Chain f) : t.isNumberZero = .ok false := by
  cases h with
  | one ha nonzero => exact ha.isNumberZero_eq.trans (congrArg _ (decide_eq_false nonzero))
  | more => rfl

/-- A term is not equal to a chain without its kind. -/
theorem Chain.same_eq (h : t.Chain f) (ha : a.IsTerm k c) (fresh : f k = 0) :
    (leaf a).same t = .ok false := by
  cases h with
  | one hb nonzero =>
    refine (ha.same_eq hb).trans (congrArg _ (decide_eq_false ?_))
    rintro ⟨rfl, -⟩
    exact apart_of_single nonzero fresh rfl
  | more => rfl

variable [Exactness]

/-! ## A term of a new kind -/

/-- A term passes a chain without its kind. -/
theorem spliceWith_passes {rec : Combiner} (h : t.Chain f) (ha : a.IsTerm k c) (fresh : f k = 0)
    (inverted : Bool) : spliceWith rec .sum a inverted t = .ok none := by
  have leaf {b : Leaf} {k' : Kind} {c' : ℚ} (hb : b.IsTerm k' c') (apart : k' ≠ k)
      (inverted : Bool) : spliceWith rec .sum a inverted (leaf b) = .ok none := by
    have merge : Leaf.mergeInto? .sum inverted b a = .ok none := by
      cases inverted with
      | false => exact Leaf.combine?_apart (rfl : Binary.add.level = some .sum) hb ha apart
      | true => exact Leaf.combine?_apart (rfl : Binary.sub.level = some .sum) hb ha apart
    show (return (← Leaf.mergeInto? .sum inverted b a).map Expr.leaf : Calc _) = _
    rw [merge]
    rfl
  -- the leaf is tried at the left before the last term, so the sign is the chain's at each step
  induction h generalizing inverted with
  | one hb nonzero => exact leaf hb (apart_of_single nonzero fresh) inverted
  | @more op l f b k' c' hop hl hb positive last ih =>
    obtain ⟨apart, fresh⟩ := apart_of_node positive last fresh
    unfold spliceWith
    rw [if_pos hop, ih fresh]
    show (spliceWith rec .sum a _ (Expr.leaf b) >>= _) = _
    rw [leaf hb apart]
    rfl

/-- A positive term of a new kind makes a node. -/
theorem atomicSum_positive {rec : Combiner} (hop : op.level = some .sum) (hl : l.Chain f)
    (ha : a.IsTerm k c) (positive : 0 < c) (fresh : f k = 0) :
    atomicSum rec op l (leaf a) = .ok (binary op l (leaf a)) := by
  obtain ⟨n, sgn, negative⟩ := ha.sgn_eq positive.ne'
  have isNumberZero : (leaf a).isNumberZero = .ok false :=
    ha.isNumberZero_eq.trans (congrArg _ (decide_eq_false positive.ne'))
  have sgn : (leaf a).sgn = .ok n := sgn
  have merge : mergeLeaves op l (leaf a) = .ok (binary op l (leaf a)) := by
    cases hl with
    | one hb nonzero =>
      unfold mergeLeaves
      simp only [Leaf.combine?_apart hop hb ha (apart_of_single nonzero fresh)]
      rfl
    | more => rfl
  -- neither zero nor equal to the chain, and the sign stays where it is
  unfold atomicSum
  rw [isNumberZero, hl.isNumberZero_eq, hl.same_eq ha fresh, sgn, merge]
  show (if decide (n < 0) && _ then _ else _) = _
  rw [decide_eq_false (mt negative.mp positive.le.not_gt)]
  rfl

/-- A term of a new kind passes to the identities at the root. -/
theorem combine_passes (hop : op.level = some .sum) (hl : l.Collected f) (ha : a.IsTerm k c)
    (fresh : f k = 0) : combine op l (leaf a) = atomicSum combine op l (leaf a) := by
  rcases hl with chain | ⟨-, b, rfl, hb⟩
  · cases chain with
    | one hb nonzero => exact (combine_eq_chain hop rfl rfl).trans (atomicWith_sum _ hop)
    | more hop' hl hb positive last =>
      have chain := Chain.more hop' hl hb positive last
      rw [combine_eq_chain hop rfl rfl, ← atomicWith_sum _ hop]
      show chainWith combine .sum op _ (leaf a) = _
      unfold chainWith joinRight
      simp only [inChain, Op.continues, hop', beq_self_eq_true, if_true,
        spliceWith_passes chain ha fresh]
      rfl
  · exact (combine_eq_chain hop rfl rfl).trans (atomicWith_sum _ hop)

/-- A positive term of a new kind is put at the end of a chain. -/
theorem combine_positive (hop : op.level = some .sum) (hl : l.Chain f) (ha : a.IsTerm k c)
    (positive : 0 < c) (fresh : f k = 0) :
    combine op l (leaf a) = .ok (binary op l (leaf a)) := by
  rw [combine_passes hop (.inl hl) ha fresh]
  exact atomicSum_positive hop hl ha positive fresh

/-- A negative term goes with the opposite sign behind the opposite operator. -/
theorem atomicSum_negative {rec : Combiner} (hl : l.Chain f) (ha : a.IsTerm k c)
    (negative : c < 0) (fresh : f k = 0) :
    ∃ b, b.IsTerm k (-c) ∧ atomicSum rec op l (leaf a) = rec op.flip l (leaf b) := by
  obtain ⟨n, sgn, sign⟩ := ha.sgn_eq negative.ne
  obtain ⟨b, neg, hb⟩ := ha.neg
  refine ⟨b, hb, ?_⟩
  have isNumberZero : (leaf a).isNumberZero = .ok false :=
    ha.isNumberZero_eq.trans (congrArg _ (decide_eq_false negative.ne))
  have sgn : (leaf a).sgn = .ok n := sgn
  unfold atomicSum
  rw [isNumberZero, hl.isNumberZero_eq, hl.same_eq ha fresh, sgn]
  show (if decide (n < 0) && _ then _ else _) = _
  rw [decide_eq_true (sign.mpr negative)]
  show leaf <$> a.neg >>= _ = _
  rw [neg]
  rfl

/-- **A term of a new kind is added to the coefficients.** -/
theorem atomicSum_term (hop : op.level = some .sum) (hl : l.Collected f) (ha : a.IsTerm k c)
    (nonzero : c ≠ 0) (fresh : f k = 0) : ∃ t, atomicSum combine op l (leaf a) = .ok t ∧
      t.Collected (f + Pi.single k (signed op.isInverted c)) := by
  rcases hl with chain | ⟨rfl, z, rfl, hz⟩
  · rcases nonzero.lt_or_gt with negative | positive
    · -- a negative coefficient turns the operator, and the chain takes the opposite term
      obtain ⟨b, hb, flips⟩ := atomicSum_negative chain ha negative fresh
      have hop' := Binary.level_flip hop
      have positive : 0 < -c := neg_pos.mpr negative
      refine ⟨_, flips.trans (combine_positive hop' chain hb positive fresh), .inl ?_⟩
      have more := Chain.more hop' chain hb positive fresh
      rwa [Binary.signed_flip hop, signed_neg, neg_neg] at more
    · exact ⟨_, atomicSum_positive hop chain ha positive fresh,
        .inl (.more hop chain ha positive fresh)⟩
  · -- zero gives way to the term
    rw [zero_add]
    have isNumberZero : (leaf a).isNumberZero = .ok false :=
      ha.isNumberZero_eq.trans (congrArg _ (decide_eq_false nonzero))
    have zero : (leaf z).isNumberZero = .ok true := hz.isNumberZero_eq
    unfold atomicSum
    rw [isNumberZero, zero]
    cases op with
    | equals | mul | div | pow => cases hop
    | add => exact ⟨leaf a, rfl, .inl (.one ha nonzero)⟩
    | sub =>
      obtain ⟨b, neg, hb⟩ := ha.neg
      refine ⟨leaf b, ?_, .inl (.one hb (neg_ne_zero.mpr nonzero))⟩
      show leaf <$> a.neg = _
      rw [neg]
      rfl

/-- A term whose coefficient may have become zero. -/
theorem atomicSum_amounts (hop : op.level = some .sum) (hl : l.Collected f) (ha : a.Amounts k c)
    (fresh : f k = 0) : ∃ t, atomicSum combine op l (leaf a) = .ok t ∧
      t.Collected (f + Pi.single k (signed op.isInverted c)) := by
  rcases ha with ⟨nonzero, ha⟩ | ⟨rfl, ha⟩
  · exact atomicSum_term hop hl ha nonzero fresh
  · rw [signed_zero, Pi.single_zero, add_zero]
    exact ⟨l, atomicSum_zero ha.isNumberZero_eq, hl⟩

/-! ## A term of a kind that is there -/

/-- **A term joins the one of its kind in a chain.** The path to it is built again, and the chain
loses the term if its coefficient becomes zero. -/
theorem spliceWith_joins (ht : t.Chain f) (ha : a.IsTerm k c) (there : f k ≠ 0) (inverted : Bool)
    (narrow : Narrow (f k + signed inverted c)) :
    ∃ u, spliceWith combine .sum a inverted t = .ok (some u) ∧
      u.Collected (f + Pi.single k (signed inverted c)) := by
  have merge {b : Leaf} {c' : ℚ} (hb : b.IsTerm k c') (inverted : Bool)
      (narrow : Narrow (c' + signed inverted c)) : ∃ o : Leaf,
      spliceWith combine .sum a inverted (leaf b) = .ok (some (leaf o)) ∧
        o.Amounts k (c' + signed inverted c) := by
    obtain ⟨o, join, ho⟩ : ∃ o, Leaf.mergeInto? .sum inverted b a = .ok (some o) ∧
        o.Amounts k (c' + signed inverted c) := by
      cases inverted with
      | false => exact Leaf.combine?_alike (rfl : Binary.add.level = some .sum) hb ha narrow
      | true => exact Leaf.combine?_alike (rfl : Binary.sub.level = some .sum) hb ha narrow
    refine ⟨o, ?_, ho⟩
    show (return (← Leaf.mergeInto? .sum inverted b a).map leaf : Calc _) = _
    rw [join]
    rfl
  -- the term of this kind is looked for from the left, as the splice does
  induction ht generalizing inverted with
  | @one b k' c' hb nonzero =>
    by_cases same : k' = k
    · subst same
      rw [Pi.single_eq_same] at narrow
      obtain ⟨o, join, ho⟩ := merge hb inverted narrow
      rw [← Pi.single_add]
      exact ⟨_, join, collected_of_amounts ho⟩
    · exact absurd (by rw [Pi.single_eq_of_ne (Ne.symm same)]) there
  | @more op l f b k' c' hop hl hb positive last ih =>
    by_cases left : f k = 0
    · -- the last term is the one of the kind
      have same : k' = k := by
        by_contra other
        refine there ?_
        rw [Pi.add_apply, left, Pi.single_eq_of_ne (Ne.symm other), add_zero]
      subst same
      rw [Pi.add_apply, left, zero_add, Pi.single_eq_same] at narrow
      have sum : signed op.isInverted c' + signed inverted c =
          signed op.isInverted (c' + signed (inverted != op.isInverted) c) := by
        rw [signed_add, signed_signed]
      rw [sum, narrow_signed] at narrow
      obtain ⟨o, join, ho⟩ := merge hb (inverted != op.isInverted) narrow
      obtain ⟨u, root, hu⟩ := atomicSum_amounts hop (.inl hl) ho left
      rw [add_assoc, ← Pi.single_add, sum]
      refine ⟨u, ?_, hu⟩
      unfold spliceWith
      rw [if_pos hop, spliceWith_passes hl ha left]
      show (spliceWith combine .sum a _ (leaf b) >>= _) = _
      rw [join]
      show some <$> atomicWith combine op l (leaf o) = _
      rw [atomicWith_sum _ hop, root]
      rfl
    · -- the term is further left: the last one goes back onto the new chain, where its kind is new
      have other : k' ≠ k := by
        rintro rfl
        exact left last
      rw [Pi.add_apply, Pi.single_eq_of_ne (Ne.symm other), add_zero] at narrow
      obtain ⟨l', join, hl'⟩ := ih left inverted narrow
      have fresh : (f + (Pi.single k (signed inverted c) : Kind → ℚ)) k' = 0 := by
        rw [Pi.add_apply, last, Pi.single_eq_of_ne other, add_zero]
      obtain ⟨u, root, hu⟩ := atomicSum_term hop hl' hb positive.ne' fresh
      rw [add_right_comm]
      refine ⟨u, ?_, hu⟩
      unfold spliceWith
      rw [if_pos hop, join]
      show some <$> atomicWith combine op l' (leaf b) = _
      rw [atomicWith_sum _ hop, root]
      rfl

/-- A term joins the one of its kind in a chain on the left. -/
theorem combine_joins {inner : Binary} (hop : op.level = some .sum)
    (hinner : inner.level = some .sum) (ht : (binary inner l r).Chain f) (ha : a.IsTerm k c)
    (there : f k ≠ 0) (narrow : Narrow (f k + signed op.isInverted c)) :
    ∃ u, combine op (binary inner l r) (leaf a) = .ok u ∧
      u.Collected (f + Pi.single k (signed op.isInverted c)) := by
  obtain ⟨u, join, hu⟩ := spliceWith_joins ht ha there op.isInverted narrow
  refine ⟨u, ?_, hu⟩
  rw [combine_eq_chain hop rfl rfl]
  show chainWith combine .sum op _ (leaf a) = _
  unfold chainWith joinRight
  simp only [inChain, Op.continues, hinner, beq_self_eq_true, if_true, join]
  rfl

/-- Twice a term by multiplication. -/
theorem combine_two (ha : a.IsTerm k c) (nonzero : c ≠ 0) (narrow : Narrow (c + c)) :
    ∃ b, combine .mul two (leaf a) = .ok (leaf b) ∧ b.IsTerm k (c + c) := by
  have two' : (Leaf.ofInt 2).IsTerm none 2 := .number (Number.isRat_ofInt 2)
  have isZero : (leaf a).isZero = .ok false :=
    ha.isZero_eq.trans (congrArg _ (decide_eq_false nonzero))
  have isZero' : two.isZero = .ok false := two'.isZero_eq
  have isOne' : two.isOne = .ok false := two'.isOne_eq
  have isOne : (leaf a).isOne = .ok (decide (k = none ∧ c = 1)) := ha.isOne_eq
  have same : (leaf a).same two = .ok (decide (k = none ∧ c = 2)) := ha.same_eq two'
  obtain ⟨o, double, ho⟩ := Leaf.product?_two ha narrow nonzero
  have merge : mergeLeaves .mul two (leaf a) = .ok (leaf o) := by
    show (Leaf.combine? .mul (.ofInt 2) a >>= _) = _
    rw [double]
    rfl
  rw [combine_eq_chain rfl rfl rfl]
  show ∃ b, atomicProduct combine two (leaf a) = .ok (leaf b) ∧ _
  unfold atomicProduct
  rw [isZero', isZero, isOne', isOne, same, merge]
  -- `2 * 1` is cut short by the rule for one before the leaves meet
  by_cases one : k = none ∧ c = 1
  · obtain ⟨rfl, rfl⟩ := one
    refine ⟨.ofInt 2, rfl, ?_⟩
    rw [one_add_one_eq_two]
    exact two'
  · refine ⟨o, ?_, ho⟩
    rw [decide_eq_false one]
    cases decide (k = none ∧ c = 2) <;> cases a <;> rfl

/-- Terms of one kind at the root add up, if the opposite of a negative one does. -/
theorem atomicSum_alike (hop : op.level = some .sum) (hb : b.IsTerm k c') (ha : a.IsTerm k c)
    (nonzero' : c' ≠ 0) (nonzero : c ≠ 0) (narrow : Narrow (c' + signed op.isInverted c))
    (opposite : c < 0 → ∀ o, o.IsTerm k (-c) → ∃ t, combine op.flip (leaf b) (leaf o) = .ok t ∧
      t.Collected (Pi.single k (c' + signed op.isInverted c))) :
    ∃ t, atomicSum combine op (leaf b) (leaf a) = .ok t ∧
      t.Collected (Pi.single k (c' + signed op.isInverted c)) := by
  obtain ⟨n, sgn, sign⟩ := ha.sgn_eq nonzero
  have isNumberZero : (leaf a).isNumberZero = .ok false :=
    ha.isNumberZero_eq.trans (congrArg _ (decide_eq_false nonzero))
  have isNumberZero' : (leaf b).isNumberZero = .ok false :=
    hb.isNumberZero_eq.trans (congrArg _ (decide_eq_false nonzero'))
  have sgn : (leaf a).sgn = .ok n := sgn
  have same : (leaf a).same (leaf b) = .ok (decide (c = c')) :=
    (ha.same_eq hb).trans (by simp)
  unfold atomicSum
  rw [isNumberZero, isNumberZero', same, sgn]
  by_cases equal : c = c'
  · -- equal terms are doubled or cancel
    subst equal
    rw [decide_eq_true rfl]
    cases op with
    | equals | mul | div | pow => cases hop
    | add =>
      obtain ⟨o, double, ho⟩ := combine_two hb nonzero narrow
      refine ⟨leaf o, double, .inl (.one ho ?_)⟩
      show c + c ≠ 0
      rw [← two_mul]
      exact mul_ne_zero two_ne_zero nonzero
    | sub =>
      have zero : c + signed Binary.sub.isInverted c = 0 := add_neg_cancel c
      rw [zero, Pi.single_zero]
      exact ⟨_, rfl, .inr ⟨rfl, _, rfl, .number Number.isRat_zero⟩⟩
  rw [decide_eq_false equal]
  show ∃ t, (if decide (n < 0) && _ then _ else _) = _ ∧ _
  rcases nonzero.lt_or_gt with negative | positive
  · -- a negative term is turned round, and joins as the opposite one
    obtain ⟨o, neg, ho⟩ := ha.neg
    rw [decide_eq_true (sign.mpr negative)]
    show ∃ t, (leaf <$> a.neg >>= _) = _ ∧ _
    rw [neg]
    exact opposite negative o ho
  · obtain ⟨o, join, ho⟩ := Leaf.combine?_alike hop hb ha narrow
    rw [decide_eq_false (mt sign.mp positive.le.not_gt)]
    refine ⟨leaf o, ?_, collected_of_amounts ho⟩
    show (Leaf.combine? op b a >>= _) = _
    rw [join]
    rfl

/-- Two terms of one kind add up. -/
theorem combine_alike (hop : op.level = some .sum) (hb : b.IsTerm k c') (ha : a.IsTerm k c)
    (nonzero' : c' ≠ 0) (nonzero : c ≠ 0) (narrow : Narrow (c' + signed op.isInverted c)) :
    ∃ t, combine op (leaf b) (leaf a) = .ok t ∧
      t.Collected (Pi.single k (c' + signed op.isInverted c)) := by
  rw [combine_eq_chain hop rfl rfl]
  show ∃ t, atomicWith combine op _ _ = _ ∧ _
  rw [atomicWith_sum _ hop]
  refine atomicSum_alike hop hb ha nonzero' nonzero narrow fun negative o ho => ?_
  have hop' := Binary.level_flip hop
  have turned : signed op.isInverted c = signed op.flip.isInverted (-c) := by
    rw [Binary.signed_flip hop, signed_neg, neg_neg]
  rw [turned] at narrow ⊢
  rw [combine_eq_chain hop' rfl rfl]
  show ∃ t, atomicWith combine op.flip _ _ = _ ∧ _
  rw [atomicWith_sum _ hop']
  -- the opposite is positive, so this ends here
  refine atomicSum_alike hop' hb ho nonzero' (neg_ne_zero.mpr nonzero) narrow fun again => ?_
  exact absurd again (neg_pos.mpr negative).not_gt

/-- **Combining with a term adds it to the coefficients.** -/
theorem combine_term (hop : op.level = some .sum) (hl : l.Collected f) (ha : a.IsTerm k c)
    (nonzero : c ≠ 0) (narrow : f k ≠ 0 → Narrow (f k + signed op.isInverted c)) :
    ∃ t, combine op l (leaf a) = .ok t ∧
      t.Collected (f + Pi.single k (signed op.isInverted c)) := by
  -- a kind that is new goes to the end; otherwise its term is found by the splice
  by_cases fresh : f k = 0
  · rw [combine_passes hop hl ha fresh]
    exact atomicSum_term hop hl ha nonzero fresh
  have narrow := narrow fresh
  have chain : l.Chain f := hl.chain (by rintro rfl; exact fresh rfl)
  cases chain with
  | @one b k' c' hb nonzero' =>
    have same : k' = k := by
      by_contra other
      exact fresh (by rw [Pi.single_eq_of_ne (Ne.symm other)])
    subst same
    rw [Pi.single_eq_same] at narrow
    rw [← Pi.single_add]
    exact combine_alike hop hb ha nonzero' nonzero narrow
  | more hop' hl' hb positive last =>
    exact combine_joins hop hop' (.more hop' hl' hb positive last) ha fresh narrow

/-! ## A chain on the right -/

omit [Tolerance] [Exactness] in
theorem Collected.present_eq (h : t.Collected f) : t.present = .ok t := by
  rcases h with chain | ⟨-, a, rfl, -⟩
  · cases chain <;> rfl
  · rfl

/-- A leaf that is to be added on the left joins the chain on the right if its kind is there. -/
theorem joinLeft_collected (hop : op.level = some .sum) (hl : l.Collected f) (hr : r.Chain g)
    (pairs : ∀ k, f k ≠ 0 → g k ≠ 0 → Narrow (f k + signed op.isInverted (g k)))
    (alone : f = 0 → ∀ k, Narrow (g k)) :
    joinLeft combine .sum op l r = .ok none ∨
      ∃ t, joinLeft combine .sum op l r = .ok (some t) ∧
        t.Collected (f + signed op.isInverted g) := by
  cases op with
  | equals | mul | div | pow => cases hop
  | sub =>
    left
    unfold joinLeft
    split <;> rfl
  | add =>
    -- the leaf, if it is one, with its kind and coefficient
    have leaf {a : Leaf} {k : Kind} {c : ℚ} (ha : a.IsTerm k c)
        (narrow : g k ≠ 0 → Narrow (g k + c)) :
        joinLeft combine .sum .add (leaf a) r = .ok none ∨
          ∃ t, joinLeft combine .sum .add (leaf a) r = .ok (some t) ∧
            t.Collected (g + Pi.single k c) := by
      unfold joinLeft
      by_cases chain : r.inChain .sum = true
      · simp only [chain, Binary.isCommutative, Bool.and_self, if_true]
        by_cases fresh : g k = 0
        · exact .inl (spliceWith_passes hr ha fresh false)
        · exact .inr (spliceWith_joins hr ha fresh false (narrow fresh))
      · simp only [chain, Bool.and_false]
        exact .inl rfl
    rcases hl with chain | ⟨rfl, z, rfl, hz⟩
    · cases chain with
      | @one a k c ha nonzero =>
        rw [add_comm]
        refine leaf ha fun there => ?_
        have := pairs k (by rwa [Pi.single_eq_same]) there
        rwa [Pi.single_eq_same, add_comm] at this
      | more => exact .inl rfl
    · have nothing : g + (Pi.single none 0 : Kind → ℚ) = 0 + signed Binary.add.isInverted g := by
        rw [Pi.single_zero, add_comm]
        rfl
      rw [← nothing]
      refine leaf hz fun _ => ?_
      rw [add_zero]
      exact alone rfl none

/-- **Combining with a chain adds its coefficients**, one term after the other. -/
theorem combine_chain (hr : r.Chain g) : ∀ {op : Binary} {l : Expr} {f : Kind → ℚ},
    op.level = some .sum → l.Collected f →
      (∀ k, f k ≠ 0 → g k ≠ 0 → Narrow (f k + signed op.isInverted (g k))) →
        (f = 0 → ∀ k, Narrow (g k)) → ∃ t, combine op l r = .ok t ∧
          t.Collected (f + signed op.isInverted g) := by
  induction hr with
  | @one a k c ha nonzero =>
    intro op l f hop hl pairs alone
    rw [signed_single]
    refine combine_term hop hl ha nonzero fun there => ?_
    have := pairs k there (by rwa [Pi.single_eq_same])
    rwa [Pi.single_eq_same] at this
  | @more inner r g a k c hinner hr ha positive last ih =>
    intro op l f hop hl pairs alone
    -- the coefficients of the first part are those of the whole, but for the last kind
    have before {k' : Kind} (there : g k' ≠ 0) :
        (g + (Pi.single k (signed inner.isInverted c) : Kind → ℚ)) k' = g k' := by
      have other : k' ≠ k := by
        rintro rfl
        exact there last
      rw [Pi.add_apply, Pi.single_eq_of_ne other, add_zero]
    have behind : (g + (Pi.single k (signed inner.isInverted c) : Kind → ℚ)) k =
        signed inner.isInverted c := by
      rw [Pi.add_apply, last, zero_add, Pi.single_eq_same]
    have chain := Chain.more hinner hr ha positive last
    rcases joinLeft_collected hop hl chain pairs alone with none | ⟨t, some, ht⟩
    · obtain ⟨t, first, ht⟩ := ih hop hl
        (fun k' hf hg => by
          have := pairs k' hf (by rwa [before hg])
          rwa [before hg] at this)
        (fun zero k' => by
          by_cases there : g k' = 0
          · rw [there]
            exact .zero
          · exact before there ▸ alone zero k')
      have hsecond : (op.second inner).level = some .sum := Binary.level_second hinner
      obtain ⟨u, second, hu⟩ := combine_term hsecond ht ha positive.ne' (fun there => by
        rw [Pi.add_apply, signed_apply, last, signed_zero, add_zero] at there ⊢
        rw [Binary.signed_second hop hinner]
        have := pairs k there (by
          rw [behind]
          exact mt signed_eq_zero.mp positive.ne')
        rwa [behind] at this)
      refine ⟨u, ?_, ?_⟩
      · rw [combine_of_not_joined hop hinner hl.present_eq none, first]
        exact second
      · rwa [Binary.signed_second hop hinner, add_assoc, ← signed_single, ← signed_add] at hu
    · exact ⟨t, combine_of_joined hop hl.present_eq some, ht⟩

/-- Combining with zero changes no coefficient. -/
theorem combine_zero (hop : op.level = some .sum) (hl : l.Collected f) (ha : a.IsTerm none 0)
    (narrow : Narrow (f none)) : ∃ t, combine op l (leaf a) = .ok t ∧ t.Collected f := by
  have root : atomicSum combine op l (leaf a) = .ok l :=
    atomicSum_zero ha.isNumberZero_eq
  have narrow' : Narrow (f none + signed op.isInverted 0) := by rwa [signed_zero, add_zero]
  by_cases fresh : f none = 0
  · rw [combine_passes hop hl ha fresh]
    exact ⟨l, root, hl⟩
  cases hl.chain (by rintro rfl; exact fresh rfl) with
  | one hb nonzero =>
    refine ⟨_, ?_, hl⟩
    rw [combine_eq_chain hop rfl rfl]
    show atomicWith combine op _ _ = _
    rw [atomicWith_sum _ hop, root]
  | more hop' hl' hb positive last =>
    have joins := combine_joins hop hop' (.more hop' hl' hb positive last) ha fresh narrow'
    rwa [signed_zero, Pi.single_zero, add_zero] at joins

/-! ## Sums, differences and opposites -/

/-- Combining collected trees adds or subtracts their coefficients. -/
theorem combine_collected (hop : op.level = some .sum) (hl : l.Collected f) (hr : r.Collected g)
    (narrow : ∀ k, Narrow ((f + signed op.isInverted g) k)) :
    ∃ t, combine op l r = .ok t ∧ t.Collected (f + signed op.isInverted g) := by
  simp only [Pi.add_apply, signed_apply] at narrow
  rcases hr with chain | ⟨rfl, a, rfl, ha⟩
  · refine combine_chain chain hop hl (fun k _ _ => narrow k) fun zero k => ?_
    have := narrow k
    rwa [zero, Pi.zero_apply, zero_add, narrow_signed] at this
  · rw [signed_zero, add_zero]
    refine combine_zero hop hl ha ?_
    have := narrow none
    rwa [Pi.zero_apply, signed_zero, add_zero] at this

/-- Negation turns the sign of all coefficients. -/
theorem negate_collected (ht : t.Collected f) : ∃ u, negate t = .ok u ∧ u.Collected (-f) := by
  unfold negate
  rcases ht with chain | ⟨rfl, a, rfl, ha⟩
  · induction chain with
    | @one a k c ha nonzero =>
      obtain ⟨b, neg, hb⟩ := ha.neg
      refine ⟨leaf b, ?_, .inl ?_⟩
      · show leaf <$> a.neg = _
        rw [neg]
        rfl
      · rw [← Pi.single_neg]
        exact .one hb (neg_ne_zero.mpr nonzero)
    | @more op l f a k c hop hl ha positive last ih =>
      cases op with
      | equals | mul | div | pow => cases hop
      | add =>
        obtain ⟨l', neg, hl'⟩ := ih
        have last' : (-f) k = 0 := neg_eq_zero.mpr last
        obtain ⟨u, sub, hu⟩ := combine_term (rfl : Binary.sub.level = some .sum) hl' ha positive.ne'
          fun there => absurd last' there
        refine ⟨u, ?_, ?_⟩
        · show (negateWith combine l >>= fun l' => combine .sub l' (leaf a)) = _
          rw [neg]
          exact sub
        · rw [neg_add, ← Pi.single_neg]
          exact hu
      | sub =>
        -- the sides change, and so the chain is taken from its last term
        have one : (leaf a).Chain (Pi.single k c) := .one ha positive.ne'
        obtain ⟨u, sub, hu⟩ := combine_chain hl (rfl : Binary.sub.level = some .sum) (.inl one)
          (fun k' hk hf => by
            have other : k' ≠ k := by
              rintro rfl
              exact hf last
            exact absurd (by rw [Pi.single_eq_of_ne other]) hk)
          fun zero => absurd zero one.ne_zero
        refine ⟨u, sub, ?_⟩
        have turned : -(f + (Pi.single k (signed Binary.sub.isInverted c) : Kind → ℚ)) =
            Pi.single k c + signed Binary.sub.isInverted f := by
          rw [neg_add, ← Pi.single_neg, add_comm]
          congr 2
          exact neg_neg c
        rwa [turned]
  · obtain ⟨b, neg, hb⟩ := ha.neg
    rw [neg_zero] at hb
    refine ⟨leaf b, ?_, .inr ⟨neg_zero, b, rfl, hb⟩⟩
    show leaf <$> a.neg = _
    rw [neg]
    rfl

end

end Expr

/-! ## Expressions of terms -/

/-- An expression of terms that are added, subtracted and negated, in any order and grouping. -/
inductive TermSum where
  /-- A leaf that is a term. -/
  | term (a : Leaf) (k : Kind) (c : ℚ) (ha : a.IsTerm k c)
  /-- A sum. -/
  | plus (s t : TermSum)
  /-- A difference. -/
  | minus (s t : TermSum)
  /-- An opposite. -/
  | opposite (s : TermSum)

namespace TermSum

/-- The terms with their signs. -/
def terms : TermSum → Multiset (Kind × ℚ)
  | term _ k c _ => {(k, c)}
  | plus s t => s.terms + t.terms
  | minus s t => s.terms + t.terms.map fun p => (p.1, -p.2)
  | opposite s => s.terms.map fun p => (p.1, -p.2)

/-- The signed sum of the coefficients of a kind. -/
def coefficient (s : TermSum) (k : Kind) : ℚ := ((s.terms.filter (·.1 = k)).map (·.2)).sum

/-- All coefficient sums on the way are narrow. -/
def Fits : TermSum → Prop
  | term .. => True
  | plus s t => s.Fits ∧ t.Fits ∧ ∀ k, Narrow ((plus s t).coefficient k)
  | minus s t => s.Fits ∧ t.Fits ∧ ∀ k, Narrow ((minus s t).coefficient k)
  | opposite s => s.Fits

/-- The tree that combining builds. -/
def build [Tolerance] [Exactness] : TermSum → Calc Expr
  | term a .. => pure (.leaf a)
  | plus s t => do Expr.combine .add (← s.build) (← t.build)
  | minus s t => do Expr.combine .sub (← s.build) (← t.build)
  | opposite s => do Expr.negate (← s.build)

variable (s t : TermSum)

/-- The coefficients of opposite terms add up to the opposite. -/
theorem sum_opposite (m : Multiset (Kind × ℚ)) (k : Kind) :
    (((m.map fun p => (p.1, -p.2)).filter (·.1 = k)).map (·.2)).sum =
      -((m.filter (·.1 = k)).map (·.2)).sum := by
  rw [Multiset.filter_map, Multiset.map_map, ← Multiset.sum_map_neg]
  rfl

/-- One term has its own coefficient, of its own kind. -/
theorem coefficient_term {a : Leaf} {k : Kind} {c : ℚ} (ha : a.IsTerm k c) :
    (term a k c ha).coefficient = Pi.single k c := by
  funext k'
  unfold coefficient terms
  rw [Multiset.filter_singleton]
  by_cases same : k = k'
  · subst same
    simp
  · simp [same]

theorem coefficient_plus : (plus s t).coefficient = s.coefficient + t.coefficient := by
  funext k
  simp [coefficient, terms]

theorem coefficient_opposite : (opposite s).coefficient = -s.coefficient :=
  funext fun k => sum_opposite s.terms k

/-- Coefficients of a difference are subtracted. -/
theorem coefficient_minus : (minus s t).coefficient = s.coefficient - t.coefficient := by
  funext k
  rw [Pi.sub_apply, sub_eq_add_neg]
  show _ = s.coefficient k + -((t.terms.filter (·.1 = k)).map (·.2)).sum
  rw [← sum_opposite]
  simp [coefficient, terms]

variable [Tolerance] [Exactness] {s t}

/-- What is built is collected and has the coefficients of the expression. -/
theorem build_collected (h : s.Fits) : ∃ t, s.build = .ok t ∧ t.Collected s.coefficient := by
  induction s with
  | term a k c ha =>
    rw [coefficient_term]
    exact ⟨_, rfl, Expr.collected_of_amounts ha.amounts⟩
  | plus s t ihs iht =>
    obtain ⟨l, hl, collected⟩ := ihs h.1
    obtain ⟨r, hr, collected'⟩ := iht h.2.1
    have narrow := h.2.2
    rw [coefficient_plus] at narrow ⊢
    obtain ⟨u, combined, hu⟩ := Expr.combine_collected (rfl : Binary.add.level = some .sum)
      collected collected' narrow
    refine ⟨u, ?_, hu⟩
    show (s.build >>= fun l => t.build >>= fun r => Expr.combine .add l r) = _
    rw [hl, hr]
    exact combined
  | minus s t ihs iht =>
    obtain ⟨l, hl, collected⟩ := ihs h.1
    obtain ⟨r, hr, collected'⟩ := iht h.2.1
    have narrow := h.2.2
    rw [coefficient_minus, sub_eq_add_neg] at narrow ⊢
    obtain ⟨u, combined, hu⟩ := Expr.combine_collected (rfl : Binary.sub.level = some .sum)
      collected collected' narrow
    refine ⟨u, ?_, hu⟩
    show (s.build >>= fun l => t.build >>= fun r => Expr.combine .sub l r) = _
    rw [hl, hr]
    exact combined
  | opposite s ih =>
    obtain ⟨t, ht, collected⟩ := ih h
    obtain ⟨u, negated, hu⟩ := Expr.negate_collected collected
    rw [coefficient_opposite]
    refine ⟨u, ?_, hu⟩
    show (s.build >>= Expr.negate) = _
    rw [ht]
    exact negated

end TermSum

/-! ## The signed terms of a tree -/

namespace Expr

/-- The tree is zero, with no terms; or another leaf, with one; or a chain that nests to the left,
where each operator has a positive leaf on its right and gives it its sign. -/
inductive SignedTerms : Expr → List (Kind × ℚ) → Prop
  /-- The number zero. -/
  | zero {a : Leaf} (ha : a.IsTerm none 0) : SignedTerms (leaf a) []
  /-- One term. -/
  | one {a : Leaf} {k : Kind} {c : ℚ} (ha : a.IsTerm k c) (nonzero : c ≠ 0) :
    SignedTerms (leaf a) [(k, c)]
  /-- One more term. -/
  | more {op : Binary} {l : Expr} {p : Kind × ℚ} {ps : List (Kind × ℚ)} {a : Leaf} {k : Kind} {c : ℚ}
    (hop : op.level = some .sum) (hl : SignedTerms l (p :: ps)) (ha : a.IsTerm k c)
    (positive : 0 < c) : SignedTerms (binary op l (leaf a)) ((k, signed op.isInverted c) :: p :: ps)

variable {t : Expr} {f : Kind → ℚ}

/-- The signed terms of a chain are its coefficients other than zero, each of them once. -/
theorem Chain.signedTerms (h : t.Chain f) : ∃ p ps, t.SignedTerms (p :: ps) ∧
    ((p :: ps).map Prod.fst).Nodup ∧ ∀ k c, (k, c) ∈ p :: ps ↔ c = f k ∧ c ≠ 0 := by
  induction h with
  | @one a k c ha nonzero =>
    refine ⟨_, _, .one ha nonzero, List.nodup_singleton k, fun k' c' => ?_⟩
    by_cases same : k' = k
    · subst same
      rw [Pi.single_eq_same, List.mem_singleton, Prod.mk.injEq]
      constructor
      · rintro ⟨-, rfl⟩
        exact ⟨rfl, nonzero⟩
      · rintro ⟨rfl, -⟩
        exact ⟨rfl, rfl⟩
    · rw [Pi.single_eq_of_ne same, List.mem_singleton, Prod.mk.injEq]
      simp [same]
  | @more op l f a k c hop hl ha positive last ih =>
    obtain ⟨p, ps, hl', nodup, mem⟩ := ih
    refine ⟨_, _, .more hop hl' ha positive, ?_, fun k' c' => ?_⟩
    · -- the last kind is none of the earlier ones, since those have a coefficient
      rw [List.map_cons, List.nodup_cons]
      refine ⟨fun there => ?_, nodup⟩
      obtain ⟨⟨_, d⟩, hd, rfl⟩ := List.mem_map.mp there
      have := (mem _ d).mp hd
      exact this.2 (this.1.trans last)
    · have nonzero : signed op.isInverted c ≠ 0 := mt signed_eq_zero.mp positive.ne'
      rw [List.mem_cons, mem, Prod.mk.injEq, Pi.add_apply]
      by_cases same : k' = k
      · subst same
        rw [last, Pi.single_eq_same, zero_add]
        constructor
        · rintro (⟨-, rfl⟩ | ⟨zero, nonzero⟩)
          · exact ⟨rfl, nonzero⟩
          · exact absurd zero nonzero
        · rintro ⟨rfl, -⟩
          exact .inl ⟨rfl, rfl⟩
      · rw [Pi.single_eq_of_ne same, add_zero]
        simp [same]

/-- The signed terms of a collected tree are its kinds, each once, with their coefficients. -/
theorem Collected.signedTerms (h : t.Collected f) : ∃ ps, t.SignedTerms ps ∧
    (ps.map Prod.fst).Nodup ∧ ∀ k c, (k, c) ∈ ps ↔ c = f k ∧ c ≠ 0 := by
  rcases h with chain | ⟨rfl, a, rfl, ha⟩
  · obtain ⟨p, ps, ht⟩ := chain.signedTerms
    exact ⟨p :: ps, ht⟩
  · refine ⟨[], .zero ha, List.nodup_nil, fun k c => ?_⟩
    simp

end Expr

section

variable [Tolerance] [Exactness]

/-- **Sums of terms are collected exactly**, in any order and grouping, as long as no coefficient
sum on the way is too wide. The tree that is built is the number zero, a leaf or a chain of leaves
that nests to the left. Each kind occurs in it at most once, and its coefficient, with the sign of
its place, is the signed sum of all coefficients of this kind; it is there unless that is zero. So
every other expression of the same signed terms builds the same signed terms. -/
theorem sums_collect (s : TermSum) (h : s.Fits) : ∃ t ps, s.build = .ok t ∧ t.SignedTerms ps ∧
    (ps.map Prod.fst).Nodup ∧ (∀ k c, (k, c) ∈ ps ↔ c = s.coefficient k ∧ c ≠ 0) ∧
      ∀ s' : TermSum, s'.Fits → s'.terms = s.terms →
        ∃ t' ps', s'.build = .ok t' ∧ t'.SignedTerms ps' ∧ ps'.Perm ps := by
  obtain ⟨t, built, collected⟩ := TermSum.build_collected h
  obtain ⟨ps, ht, nodup, mem⟩ := collected.signedTerms
  refine ⟨t, ps, built, ht, nodup, mem, fun s' h' terms => ?_⟩
  obtain ⟨t', built', collected'⟩ := TermSum.build_collected h'
  obtain ⟨ps', ht', nodup', mem'⟩ := collected'.signedTerms
  refine ⟨t', ps', built', ht', ?_⟩
  rw [List.perm_ext_iff_of_nodup (List.Nodup.of_map _ nodup') (List.Nodup.of_map _ nodup)]
  rintro ⟨k, c⟩
  have same : s'.coefficient = s.coefficient := by
    unfold TermSum.coefficient
    rw [terms]
  rw [mem, mem', same]

end

/-- The sum `3x^2 + 5 - 20 + 4x^2`. -/
def scenario : TermSum :=
  let square (n : ℤ) (h : (n : ℚ) ≠ 0) : TermSum :=
    .term (.monomial "x" (.ofInt n) (.ofInt 2)) (some ("x", (2 : ℤ))) n
      (.monomial (Number.isRat_ofInt n) (Value.isRat_ofInt 2) h (by norm_num))
  let number (n : ℤ) : TermSum :=
    .term (.number (.ofInt n)) none n (.number (Number.isRat_ofInt n))
  .plus (.minus (.plus (square 3 (by norm_num)) (number 5)) (number 20)) (square 4 (by norm_num))

/-- The coefficients fit, whatever is added up first. -/
theorem scenario_fits : scenario.Fits := by
  refine ⟨⟨⟨True.intro, True.intro, fun k => ?_⟩, True.intro, fun k => ?_⟩, True.intro, fun k => ?_⟩
  all_goals
    simp only [TermSum.coefficient_plus, TermSum.coefficient_minus, TermSum.coefficient_term,
      Pi.add_apply, Pi.sub_apply, Pi.single_apply]
    split_ifs <;> norm_num [Narrow]

/-- The sum is `7x^2 - 15`, however its terms are ordered and grouped. -/
theorem sums_collect_scenario :
    letI := Double.standardTolerance
    letI := Exactness.free
    scenario.Fits ∧
      scenario.build =
        .ok (.binary .sub (.leaf (.monomial "x" (.ofInt 7) (.ofInt 2))) (.ofInt 15)) ∧
      ∃ t ps, scenario.build = .ok t ∧ t.SignedTerms ps ∧ (ps.map Prod.fst).Nodup ∧
        (∀ k c, (k, c) ∈ ps ↔ c = scenario.coefficient k ∧ c ≠ 0) ∧
          ∀ s' : TermSum, s'.Fits → s'.terms = scenario.terms →
            ∃ t' ps', s'.build = .ok t' ∧ t'.SignedTerms ps' ∧ ps'.Perm ps := by
  let _ := Double.standardTolerance
  let _ := Exactness.free
  exact ⟨scenario_fits, by decide +kernel, sums_collect scenario scenario_fits⟩

end SymbolicAlgebra
