import SymbolicAlgebra.Proofs.Meaning
import SymbolicAlgebra.Rewrite.Leaves

/-!
# Leaf algebra keeps the meaning

The questions that rewriting asks about operands have answers that their meanings bear out,
and the one leaf that two leaves make means what the operator makes of the two.

`Leaf.mergeInto?` divides one leaf of a chain by another one that may turn out to be zero,
although nothing in the chain is divided by it yet. `mergeInto?_quotient` shows that it then
makes no leaf: two monomials of one variable cannot differ in that way, a number is tested,
and a coefficient that is zero is refused by exact division.
-/

namespace SymbolicAlgebra

variable [Tolerance] {K : Type} [Field K] [Coefficients K] {I : Interpretation K}
  {σ : String → K} {least : ℤ}

/-! ## Questions -/

namespace MeansFrom

variable {t : Expr} {a : K}

/-- A leaf that is zero means zero. -/
theorem isZero_eq (h : MeansFrom least I σ t a) : ∃ c, t.isZero = .ok c ∧ (c = true → a = 0) := by
  cases h with
  | number value =>
    obtain ⟨c, zero, hc⟩ := value.isZero_eq
    exact ⟨c, zero, hc.mp⟩
  | monomial mult =>
    obtain ⟨c, zero, hc⟩ := mult.isZero_eq
    exact ⟨c, zero, fun yes => by rw [hc.mp yes, zero_mul]⟩
  | _ => exact ⟨false, rfl, nofun⟩

/-- A number that is said to be zero means zero. -/
theorem isNumberZero_eq (h : MeansFrom least I σ t a) :
    ∃ c, t.isNumberZero = .ok c ∧ (c = true → a = 0) := by
  cases h with
  | number value =>
    obtain ⟨c, zero, hc⟩ := value.isZero_eq
    exact ⟨c, zero, hc.mp⟩
  | _ => exact ⟨false, rfl, nofun⟩

/-- What is said to be one means one. -/
theorem isOne_eq (h : MeansFrom least I σ t a) : ∃ c, t.isOne = .ok c ∧ (c = true → a = 1) := by
  cases h with
  | number value =>
    obtain ⟨c, same, hc⟩ := value.same_eq Number.standsFor_one
    exact ⟨c, same, hc.mp⟩
  | _ => exact ⟨false, rfl, nofun⟩

/-- What is said to be minus one means minus one. -/
theorem isNegOne_eq (h : MeansFrom least I σ t a) :
    ∃ c, t.isNegOne = .ok c ∧ (c = true → a = -1) := by
  cases h with
  | number value =>
    obtain ⟨c, same, hc⟩ := value.same_eq (Number.standsFor_ofInt (n := -1) (by norm_num))
    exact ⟨c, same, fun yes => by simpa using hc.mp yes⟩
  | _ => exact ⟨false, rfl, nofun⟩

/-- Every expression with a meaning has a sign. -/
theorem sgn_eq (h : MeansFrom least I σ t a) : ∃ n, t.sgn = .ok n := by
  -- the sign of a chain is that of its left operand, and anything else counts as positive
  have node : ∀ {op : Op} {l r : Expr}, (∃ n, l.sgn = .ok n) →
      ∃ n, (Expr.node op l r).sgn = .ok n := by
    intro op l r hl
    unfold Expr.sgn
    split
    · exact hl
    · exact ⟨1, rfl⟩
  induction h with
  | number value => exact value.sgn_eq
  | monomial mult _ _ => exact mult.sgn_eq
  | equals _ _ ih _ => exact node ih
  | add _ _ ih _ => exact node ih
  | sub _ _ ih _ => exact node ih
  | mul _ _ ih _ => exact node ih
  | div _ _ _ ih _ => exact node ih
  | pow _ _ _ ih => exact node ih
  | factorial _ _ ih => exact node ih
  | apply _ _ _ => exact ⟨1, rfl⟩

end MeansFrom

namespace Leaf

variable {a b : Leaf} {u v : K}

/-- If two leaves make one, it has this meaning. -/
def Merges (I : Interpretation K) (σ : String → K) (v : K) (o : Option Leaf) : Prop :=
  ∀ c, o = some c → MeansStrictly I σ (.leaf c) v

omit [Tolerance] in
theorem merges_some (h : MeansStrictly I σ (.leaf a) v) : Merges I σ v (some a) := by
  rintro c ⟨rfl⟩
  exact h

/-- The opposite of a leaf. -/
theorem neg_exactly (h : MeansStrictly I σ (.leaf a) v) :
    Exactly (fun _ => a.neg) fun b => MeansStrictly I σ (.leaf b) (-v) := by
  cases h with
  | number value => exact Exactly.map (value.neg_exactly.mono fun _ hw => .number hw)
  | monomial mult power defined =>
    refine Exactly.bind mult.neg_exactly fun _ hw => Exactly.pure ?_
    rw [neg_mul_eq_neg_mul]
    exact .monomial hw power defined

/-! ## One leaf of two -/

/-- A coefficient and a power make a monomial, or the number that it is. -/
theorem ofMonomial_exactly {x : String} {m : Number} {p : Value} {c : K} {k : ℤ}
    (hm : m.StandsFor c) (hp : p.Is k) (defined : σ x ≠ 0 ∨ 0 ≤ k) :
    Exactly (fun _ => ofMonomial x m p) fun a => MeansStrictly I σ (.leaf a) (c * σ x ^ k) := by
  unfold ofMonomial
  refine Exactly.settled hm.isZero_eq (fun zero => Exactly.pure ?_) fun _ => ?_
  · rw [zero, zero_mul]
    exact .number Number.standsFor_zero
  refine Exactly.decided hp.isZero_eq (fun zero => Exactly.pure ?_) fun nonzero => Exactly.pure ?_
  · rw [Int.cast_eq_zero.mp zero, zpow_zero, mul_one]
    exact .number hm
  · have : k ≠ 0 := mt Int.cast_eq_zero.mpr nonzero
    exact .monomial hm hp (defined.imp_right fun _ => by omega)

/-- Numbers calculate. -/
theorem combineNumbers?_exactly {op : Binary} {z w : Number}
    (h : MeansStrictly I σ (.binary op (.leaf (.number z)) (.leaf (.number w))) v) :
    Exactly (fun _ => combineNumbers? op z w) (Merges I σ v) := by
  have leaf : ∀ {x : Exactness → Calc Number} {v : K}, Exactly x (·.StandsFor v) →
      Exactly (fun e => some <$> number <$> x e) (Merges I σ v) := by
    intro x v hx
    refine Exactly.map (Exactly.map (hx.mono fun z hz => ?_))
    exact merges_some (.number hz)
  cases h with
  | equals => exact Exactly.none
  | add hl hr =>
    cases hl with | number hz =>
    cases hr with | number hw =>
    exact leaf (hz.add_exactly hw)
  | sub hl hr =>
    cases hl with | number hz =>
    cases hr with | number hw =>
    exact leaf (hz.sub_exactly hw)
  | mul hl hr =>
    cases hl with | number hz =>
    cases hr with | number hw =>
    exact leaf (hz.mul_exactly hw)
  | div hl hr hb =>
    cases hl with | number hz =>
    cases hr with | number hw =>
    exact leaf (hz.div_exactly hw hb)
  | pow hl hw defined =>
    cases hl with | number hz =>
    exact leaf (hz.pow_exactly hw defined)

/-- Compatible monomials have one variable and one power. -/
theorem compatible_eq {x y : String} {m n : Number} {p q : Value} {k l : ℤ} (hp : p.Is k)
    (hq : q.Is l) : ∃ c, (monomial x m p).compatible false (monomial y n q) = .ok c ∧
      (c = true → x = y ∧ k = l) := by
  show ∃ c, (if x == y then q.same p else pure false) = .ok c ∧ _
  by_cases name : x = y
  · rw [if_pos (beq_iff_eq.mpr name), hq.same_eq hp]
    refine ⟨_, rfl, fun yes => ⟨name, ?_⟩⟩
    exact (Int.cast_inj.mp (of_decide_eq_true yes)).symm
  · rw [if_neg (by simpa using name)]
    exact ⟨false, rfl, nofun⟩

/-- Monomials of one variable and power add up, by the sum or difference of their
coefficients. -/
theorem sum?_exactly {op : Exactness → Number → Number → Calc Number} {f : K → K → K}
    (hop : ∀ {z w : Number} {c d : K}, z.StandsFor c → w.StandsFor d →
      Exactly (fun e => op e z w) (·.StandsFor (f c d)))
    (distrib : ∀ c d x : K, f (c * x) (d * x) = f c d * x)
    (ha : MeansStrictly I σ (.leaf a) u) (hb : MeansStrictly I σ (.leaf b) v) :
    Exactly (fun e => sum? (op e) a b) (Merges I σ (f u v)) := by
  cases ha with
  | number => exact Exactly.none
  | monomial hm hp defined =>
    cases hb with
    | number => exact Exactly.none
    | monomial hn hq _ =>
      -- of one variable and one exponent, so only the coefficients are combined
      refine Exactly.ask (compatible_eq hp hq) (fun like => ?_) (Exactly.none)
      obtain ⟨rfl, rfl⟩ := like
      rw [distrib]
      refine Exactly.bind (hop hm hn) fun s hs => ?_
      refine Exactly.settled hs.isZero_eq (fun zero => ?zero) fun nonzero => ?nonzero
      case zero =>
        refine Exactly.pure (merges_some ?_)
        rw [zero, zero_mul]
        exact .number Number.standsFor_zero
      case nonzero => exact Exactly.pure (merges_some (.monomial hs hp defined))

/-- The one leaf that a coefficient and a power make. -/
theorem some_ofMonomial_exactly {x : String} {m : Number} {p : Value} {c : K} {k : ℤ}
    (hm : m.StandsFor c) (hp : p.Is k) (defined : σ x ≠ 0 ∨ 0 ≤ k) :
    Exactly (fun _ => some <$> ofMonomial x m p) (Merges I σ (c * σ x ^ k)) :=
  Exactly.map ((ofMonomial_exactly hm hp defined).mono fun _ => merges_some)

/-- A monomial takes in a number, and another one of its variable. -/
theorem product?_exactly (ha : MeansStrictly I σ (.leaf a) u)
    (hb : MeansStrictly I σ (.leaf b) v) :
    Exactly (fun _ => product? a b) (Merges I σ (u * v)) := by
  cases ha with
  | number hz =>
    cases hb with
    | number => exact Exactly.none
    | monomial hm hp defined =>
      refine Exactly.bind (hm.mul_exactly hz) fun s hs => ?_
      rw [mul_left_comm, ← mul_assoc]
      exact some_ofMonomial_exactly hs hp (defined.imp_right fun _ => by omega)
  | monomial hm hp defined =>
    cases hb with
    | number hz =>
      refine Exactly.bind (hm.mul_exactly hz) fun s hs => ?_
      rw [mul_right_comm]
      exact some_ofMonomial_exactly hs hp (defined.imp_right fun _ => by omega)
    | monomial hn hq defined' =>
      -- of one variable, where the exponents add up unless the variable is zero
      refine Exactly.ite (fun name => ?_) fun _ => Exactly.none
      obtain rfl := beq_iff_eq.mp name
      refine Exactly.bind (hm.mul_exactly hn) fun s hs => ?_
      refine Exactly.bind (Value.add_exactly hp hq) fun r hr => ?_
      have joint := or_and_left.mpr ⟨defined, defined'⟩
      rw [mul_mul_mul_comm, ← zpow_add' (joint.imp_right fun h => .inl (by omega))]
      exact some_ofMonomial_exactly hs (by exact_mod_cast hr) (joint.imp_right fun h => by omega)

omit [Tolerance] [Coefficients K] in
/-- A strict monomial is zero wherever its variable is. -/
theorem variable_ne_zero {x : String} {c : K} {k : ℤ} (defined : σ x ≠ 0 ∨ 1 ≤ k)
    (h : c * σ x ^ k ≠ 0) : σ x ≠ 0 := by
  intro zero
  have power : k ≠ 0 := by
    have := defined.resolve_left (not_not.mpr zero)
    omega
  exact h (by rw [zero, zero_zpow k power, mul_zero])

/-- A monomial is divided by a number, and by another one of its variable. -/
theorem quotient?_exactly (ha : MeansStrictly I σ (.leaf a) u)
    (hb : MeansStrictly I σ (.leaf b) v) (hv : v ≠ 0) :
    Exactly (fun _ => quotient? a b) (Merges I σ (u / v)) := by
  cases ha with
  | number => cases hb <;> exact Exactly.none
  | @monomial x _ _ _ _ hm hp defined =>
    cases hb with
    | number hz =>
      refine Exactly.settled hz.isZero_eq (fun _ => Exactly.none) fun _ => ?_
      refine Exactly.bind (hm.div_exactly hz hv) fun s hs => ?_
      rw [mul_div_right_comm]
      exact some_ofMonomial_exactly hs hp (defined.imp_right fun _ => by omega)
    | @monomial _ _ _ _ l hn hq defined' =>
      refine Exactly.ite (fun name => ?_) fun _ => Exactly.none
      obtain rfl := beq_iff_eq.mp name
      -- the divisor is not zero, so neither is the variable
      have nonzero : σ x ≠ 0 := variable_ne_zero defined' hv
      refine Exactly.bind (hm.div_exactly hn (left_ne_zero_of_mul hv)) fun s hs => ?_
      refine Exactly.bind (Value.sub_exactly hp hq) fun r hr => ?_
      rw [mul_div_mul_comm, ← zpow_sub₀ nonzero]
      exact some_ofMonomial_exactly hs (by exact_mod_cast hr) (.inl nonzero)

/-- A monomial takes an integer power. -/
theorem power?_exactly {z : Number} {n : ℤ} (ha : MeansStrictly I σ (.leaf a) u) (hz : z.Is n)
    (defined : u ≠ 0 ∨ 0 ≤ n) :
    Exactly (fun _ => power? a (.number z)) (Merges I σ (u ^ n)) := by
  cases ha with
  | number => exact Exactly.none
  | @monomial x _ _ c k hm hp defined' =>
    -- a negative exponent needs the coefficient and the variable both to be nonzero
    have mult : c ≠ 0 ∨ 0 ≤ n := defined.imp_left left_ne_zero_of_mul
    refine Exactly.decided hz.isReal_eq (fun _ => ?_) fun _ => Exactly.none
    refine Exactly.bind (hm.pow_exactly hz mult) fun s hs => ?_
    refine Exactly.bind (Value.mul_exactly hp hz.1) fun r hr => ?_
    have power : r.Is ((k * n : ℤ) : ℚ) := by
      rw [Int.cast_mul]
      exact hr
    rw [mul_zpow, ← zpow_mul]
    refine some_ofMonomial_exactly hs power ?_
    rcases defined with nonzero | positive
    · exact .inl (variable_ne_zero defined' nonzero)
    · exact defined'.imp_right fun h => mul_nonneg (by omega) positive

/-- If an operator makes one leaf of two, the leaf means what the operator makes of them. -/
theorem combine?_exactly {op : Binary} (h : MeansStrictly I σ (.binary op (.leaf a) (.leaf b)) v) :
    Exactly (fun _ => combine? op a b) (Merges I σ v) := by
  by_cases numbers : ∃ z w, a = .number z ∧ b = .number w
  · obtain ⟨z, w, rfl, rfl⟩ := numbers
    exact combineNumbers?_exactly h
  · -- apart from two numbers, each operator has a table of its own
    have table : ∀ [Exactness], combine? op a b = match op with
        | .add => sum? Number.add a b
        | .sub => sum? Number.sub a b
        | .mul => product? a b
        | .div => quotient? a b
        | .pow => power? a b
        | .equals => pure none := by
      intro e
      cases a <;> cases b <;> cases op <;>
        first | rfl | exact absurd ⟨_, _, rfl, rfl⟩ numbers
    simp only [table]
    cases h with
    | equals => exact Exactly.none
    | add hl hr =>
      exact sum?_exactly (fun hz hw => hz.add_exactly hw) (fun c d x => (add_mul c d x).symm) hl hr
    | sub hl hr =>
      exact sum?_exactly (fun hz hw => hz.sub_exactly hw) (fun c d x => (sub_mul c d x).symm) hl hr
    | mul hl hr => exact product?_exactly hl hr
    | div hl hr hb => exact quotient?_exactly hl hr hb
    | pow hl hz defined => exact power?_exactly hl hz defined

/-! ## A new leaf in a chain -/

/-- A leaf added to another one, or subtracted from it. -/
theorem mergeInto?_sum (inverted : Bool) (ha : MeansStrictly I σ (.leaf a) u)
    (hb : MeansStrictly I σ (.leaf b) v) :
    Exactly (fun _ => mergeInto? .sum inverted a b)
      (Merges I σ (if inverted then u - v else u + v)) := by
  cases inverted with
  | false => exact combine?_exactly (.add ha hb)
  | true => exact combine?_exactly (.sub ha hb)

theorem mergeInto?_product (ha : MeansStrictly I σ (.leaf a) u)
    (hb : MeansStrictly I σ (.leaf b) v) :
    Exactly (fun _ => mergeInto? .product false a b) (Merges I σ (u * v)) :=
  combine?_exactly (.mul ha hb)

/-- One leaf divided by another one, where one of the two is not zero: if that makes a leaf,
then the divisor is not zero. -/
theorem mergeInto?_quotient (ha : MeansStrictly I σ (.leaf a) u)
    (hb : MeansStrictly I σ (.leaf b) v) (defined : u ≠ 0 ∨ v ≠ 0) :
    Exactly (fun _ => mergeInto? .product true a b)
      fun o => ∀ c, o = some c → v ≠ 0 ∧ MeansStrictly I σ (.leaf c) (u / v) := by
  have divided : v ≠ 0 → Exactly (fun _ => combine? .div a b)
      fun o => ∀ c, o = some c → v ≠ 0 ∧ MeansStrictly I σ (.leaf c) (u / v) := by
    intro hv
    refine (combine?_exactly (.div ha hb hv)).mono fun o merges c hc => ?_
    exact ⟨hv, merges c hc⟩
  cases hb with
  | number hz =>
    -- the divisor must not be zero, and only of a number is that asked here
    refine Exactly.settled hz.isZero_eq (fun _ => Exactly.none) fun nonzero => ?_
    cases a with
    | number => exact divided nonzero
    | monomial => exact divided nonzero
  | @monomial y n q d l hn hq defined' =>
    cases ha with
    | number => exact Exactly.none
    | @monomial x m p c k hm hp defined'' =>
      by_cases hv : d * σ y ^ l = 0
      · -- of one variable, which is not zero then, so the coefficient of the divisor is
        refine Exactly.ite (fun name => ?_) fun _ => Exactly.none
        obtain rfl := beq_iff_eq.mp name
        have hu := defined.resolve_right (not_not.mpr hv)
        have nonzero := variable_ne_zero defined'' hu
        have zero := (mul_eq_zero_iff_right (zpow_ne_zero l nonzero)).mp hv
        rw [zero] at hn
        exact Exactly.bind (P := fun _ => False)
          (hm.div_zero_exactly (left_ne_zero_of_mul hu) hn) fun _ h => h.elim
      · exact divided hv

end Leaf

end SymbolicAlgebra
