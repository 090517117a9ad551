import SymbolicAlgebra.Expr.Basic
import SymbolicAlgebra.Proofs.Exact.Number

/-!
# The meaning of an expression

What an expression means where its variables have values in a field: sums, products and
quotients are those of the field, an equation means its left side minus its right one, and
named functions and the factorial are given from outside (`Interpretation`). A meaning may
be missing: a denominator must not be zero, nor the base of a negative power, and a number
must be exact.

The field is a parameter. `Coefficients` says which Gaussian rationals have a place in it:
all of them in the Gaussian rationals themselves, the real ones among the reals.

`MeansFrom` is indexed by the least power that a monomial may have where its variable is
zero. The usual meaning, `Means`, takes `0` for it, as zero to the power zero is one. From
`1` on is what rewriting keeps: it cancels powers of one variable against each other, and
`x^0` must not hide that `x` is zero.
-/

namespace SymbolicAlgebra

/-! ## Coefficients and functions -/

/-- A field in which some Gaussian rationals have a place. -/
class Coefficients (K : Type) [Field K] where
  /-- The Gaussian rational has this place. -/
  Stands : GaussianRat → K → Prop
  one : Stands 1 1
  neg {g : GaussianRat} {a : K} : Stands g a → Stands (-g) (-a)
  add {g h : GaussianRat} {a b : K} : Stands g a → Stands h b → Stands (g + h) (a + b)
  mul {g h : GaussianRat} {a b : K} : Stands g a → Stands h b → Stands (g * h) (a * b)
  inv {g : GaussianRat} {a : K} : Stands g a → Stands g⁻¹ a⁻¹
  eq_zero_iff {g : GaussianRat} {a : K} : Stands g a → (g = 0 ↔ a = 0)

export Coefficients (Stands)

instance : Coefficients GaussianRat where
  Stands g a := g = a
  one := rfl
  neg h := by rw [h]
  add h h' := by rw [h, h']
  mul h h' := by rw [h, h']
  inv h := by rw [h]
  eq_zero_iff h := by rw [h]

/-- What the functions without arithmetic mean. They may be partial. -/
structure Interpretation (K : Type) where
  /-- The named functions. -/
  function : Func → K → Option K
  /-- The factorial. -/
  factorial : K → Option K

/-- No function has a value, so only expressions of `+ - * / ^ =` have a meaning. -/
def Interpretation.none {K : Type} : Interpretation K := ⟨fun _ _ => .none, fun _ => .none⟩

namespace Coefficients

variable {K : Type} [Field K] [Coefficients K] {g h : GaussianRat} {a b : K}

theorem zero : Stands 0 (0 : K) := by
  simpa using add one (neg (one (K := K)))

theorem sub (hg : Stands g a) (hh : Stands h b) : Stands (g - h) (a - b) := by
  rw [sub_eq_add_neg, sub_eq_add_neg]
  exact add hg (neg hh)

theorem div (hg : Stands g a) (hh : Stands h b) : Stands (g / h) (a / b) := by
  rw [div_eq_mul_inv, div_eq_mul_inv]
  exact mul hg (inv hh)

/-- A natural power has the power of the place. -/
theorem pow (hg : Stands g a) (n : ℕ) : Stands (g ^ n) (a ^ n) := by
  induction n with
  | zero => simpa using one
  | succ n ih =>
    rw [pow_succ, pow_succ]
    exact mul ih hg

/-- An integer power has the power of the place. -/
theorem zpow (hg : Stands g a) (n : ℤ) : Stands (g ^ n) (a ^ n) := by
  rcases Int.eq_nat_or_neg n with ⟨k, rfl | rfl⟩
  · rw [zpow_natCast, zpow_natCast]
    exact pow hg k
  · rw [zpow_neg, zpow_neg, zpow_natCast, zpow_natCast]
    exact inv (pow hg k)

/-- Natural numbers have their places. -/
theorem natCast (n : ℕ) : Stands (n : GaussianRat) (n : K) := by
  induction n with
  | zero => simpa using zero
  | succ n ih =>
    rw [Nat.cast_succ, Nat.cast_succ]
    exact add ih one

theorem intCast (n : ℤ) : Stands (n : GaussianRat) (n : K) := by
  rcases Int.eq_nat_or_neg n with ⟨k, rfl | rfl⟩
  · simpa using natCast k
  · simpa using neg (natCast k)

/-- Places are equal exactly if what stands there is. -/
theorem eq_iff (hg : Stands g a) (hh : Stands h b) : g = h ↔ a = b := by
  rw [← sub_eq_zero, eq_zero_iff (sub hg hh), sub_eq_zero]

end Coefficients

namespace Number

variable {K : Type} [Field K] [Coefficients K]

/-- The number is exact, and what it stands for has this place in the field. -/
def StandsFor (z : Number) (a : K) : Prop := ∃ g, z.Is g ∧ Stands g a

theorem standsFor_ofInt {n : ℤ} (h : n.natAbs ≤ 2 ^ 53) : (ofInt n).StandsFor (n : K) :=
  ⟨_, is_ofInt h, Coefficients.intCast n⟩

theorem standsFor_zero : zero.StandsFor (0 : K) := ⟨_, is_zero, Coefficients.zero⟩

theorem standsFor_one : one.StandsFor (1 : K) := ⟨_, is_one, Coefficients.one⟩

/-- A number stands for one thing at most. -/
theorem StandsFor.unique {z : Number} {a b : K} (h : z.StandsFor a) (h' : z.StandsFor b) :
    a = b := by
  obtain ⟨g, hz, place⟩ := h
  obtain ⟨g', hz', place'⟩ := h'
  exact (Coefficients.eq_iff place place').mp (hz.unique hz')

variable [Tolerance] {z w : Number} {a b : K}

theorem StandsFor.isZero_eq (hz : z.StandsFor a) : ∃ c, z.isZero = .ok c ∧ (c = true ↔ a = 0) := by
  obtain ⟨g, hz, place⟩ := hz
  exact ⟨_, hz.isZero_eq, decide_eq_true_iff.trans (Coefficients.eq_zero_iff place)⟩

/-- Numbers are the same if they stand for the same. -/
theorem StandsFor.same_eq (hz : z.StandsFor a) (hw : w.StandsFor b) :
    ∃ c, z.same w = .ok c ∧ (c = true ↔ a = b) := by
  obtain ⟨g, hz, place⟩ := hz
  obtain ⟨h, hw, place'⟩ := hw
  exact ⟨_, hz.same_eq hw, decide_eq_true_iff.trans (Coefficients.eq_iff place place')⟩

theorem StandsFor.sgn_eq (hz : z.StandsFor a) : ∃ n, z.sgn = .ok n := by
  obtain ⟨g, hz, -⟩ := hz
  exact hz.sgn_eq

theorem StandsFor.neg_exactly (hz : z.StandsFor a) :
    Exactly (fun _ => z.neg) (·.StandsFor (-a)) := by
  obtain ⟨g, hz, place⟩ := hz
  exact (Number.neg_exactly hz).mono fun _ h => ⟨_, h, Coefficients.neg place⟩

/-- The sum of numbers stands for the sum. -/
theorem StandsFor.add_exactly (hz : z.StandsFor a) (hw : w.StandsFor b) :
    Exactly (fun _ => z.add w) (·.StandsFor (a + b)) := by
  obtain ⟨g, hz, place⟩ := hz
  obtain ⟨h, hw, place'⟩ := hw
  exact (Number.add_exactly hz hw).mono fun _ h => ⟨_, h, Coefficients.add place place'⟩

/-- The difference stands for the difference. -/
theorem StandsFor.sub_exactly (hz : z.StandsFor a) (hw : w.StandsFor b) :
    Exactly (fun _ => z.sub w) (·.StandsFor (a - b)) := by
  obtain ⟨g, hz, place⟩ := hz
  obtain ⟨h, hw, place'⟩ := hw
  exact (Number.sub_exactly hz hw).mono fun _ h => ⟨_, h, Coefficients.sub place place'⟩

/-- The product stands for the product. -/
theorem StandsFor.mul_exactly (hz : z.StandsFor a) (hw : w.StandsFor b) :
    Exactly (fun _ => z.mul w) (·.StandsFor (a * b)) := by
  obtain ⟨g, hz, place⟩ := hz
  obtain ⟨h, hw, place'⟩ := hw
  exact (Number.mul_exactly hz hw).mono fun _ h => ⟨_, h, Coefficients.mul place place'⟩

/-- The quotient stands for the quotient, where the divisor is not zero. -/
theorem StandsFor.div_exactly (hz : z.StandsFor a) (hw : w.StandsFor b) (hb : b ≠ 0) :
    Exactly (fun _ => z.div w) (·.StandsFor (a / b)) := by
  obtain ⟨g, hz, place⟩ := hz
  obtain ⟨h, hw, place'⟩ := hw
  have nonzero : h ≠ 0 := mt (Coefficients.eq_zero_iff place').mp hb
  exact (Number.div_exactly hz hw nonzero).mono fun _ h => ⟨_, h, Coefficients.div place place'⟩

/-- An exact quotient by zero is refused. -/
theorem StandsFor.div_zero_exactly {P : Number → Prop} (hz : z.StandsFor a) (ha : a ≠ 0)
    (hw : w.StandsFor (0 : K)) : Exactly (fun _ => z.div w) P := by
  obtain ⟨g, hz, place⟩ := hz
  obtain ⟨h, hw, place'⟩ := hw
  rw [(Coefficients.eq_zero_iff place').mpr rfl] at hw
  exact Number.div_zero_exactly hz (mt (Coefficients.eq_zero_iff place).mp ha) hw

/-- An integer power stands for the power, where it has a value. -/
theorem StandsFor.pow_exactly {n : ℤ} (hz : z.StandsFor a) (hw : w.Is n) (h : a ≠ 0 ∨ 0 ≤ n) :
    Exactly (fun _ => z.pow w) (·.StandsFor (a ^ n)) := by
  obtain ⟨g, hz, place⟩ := hz
  have nonzero : g ≠ 0 ∨ 0 ≤ n := h.imp_left (mt (Coefficients.eq_zero_iff place).mp)
  exact (Number.pow_exactly hz hw nonzero).mono fun _ h => ⟨_, h, Coefficients.zpow place n⟩

end Number

/-! ## Meaning -/

section

variable {K : Type} [Field K] [Coefficients K]

/-- The expression means this element of the field, where a monomial has a value at zero
from the power `least` on. -/
inductive MeansFrom (least : ℤ) (I : Interpretation K) (σ : String → K) : Expr → K → Prop
  | number {z : Number} {a : K} (value : z.StandsFor a) :
    MeansFrom least I σ (.leaf (.number z)) a
  | monomial {x : String} {m : Number} {p : Value} {c : K} {k : ℤ} (mult : m.StandsFor c)
    (power : p.Is k) (defined : σ x ≠ 0 ∨ least ≤ k) :
    MeansFrom least I σ (.leaf (.monomial x m p)) (c * σ x ^ k)
  | equals {l r : Expr} {a b : K} (left : MeansFrom least I σ l a)
    (right : MeansFrom least I σ r b) : MeansFrom least I σ (.binary .equals l r) (a - b)
  | add {l r : Expr} {a b : K} (left : MeansFrom least I σ l a)
    (right : MeansFrom least I σ r b) : MeansFrom least I σ (.binary .add l r) (a + b)
  | sub {l r : Expr} {a b : K} (left : MeansFrom least I σ l a)
    (right : MeansFrom least I σ r b) : MeansFrom least I σ (.binary .sub l r) (a - b)
  | mul {l r : Expr} {a b : K} (left : MeansFrom least I σ l a)
    (right : MeansFrom least I σ r b) : MeansFrom least I σ (.binary .mul l r) (a * b)
  | div {l r : Expr} {a b : K} (left : MeansFrom least I σ l a)
    (right : MeansFrom least I σ r b) (divisor : b ≠ 0) :
    MeansFrom least I σ (.binary .div l r) (a / b)
  | pow {l : Expr} {z : Number} {a : K} {n : ℤ} (base : MeansFrom least I σ l a)
    (exponent : z.Is n) (defined : a ≠ 0 ∨ 0 ≤ n) :
    MeansFrom least I σ (.binary .pow l (.leaf (.number z))) (a ^ n)
  | factorial {t : Expr} {a b : K} (argument : MeansFrom least I σ t a)
    (value : I.factorial a = some b) : MeansFrom least I σ (.factorial t) b
  | apply {f : Func} {t : Expr} {a b : K} (argument : MeansFrom least I σ t a)
    (value : I.function f a = some b) : MeansFrom least I σ (.apply f t) b

/-- The expression means this element of the field. -/
abbrev Means (I : Interpretation K) (σ : String → K) : Expr → K → Prop := MeansFrom 0 I σ

/-- The expression means this element of the field, and no monomial in it has power zero
where its variable is zero. -/
abbrev MeansStrictly (I : Interpretation K) (σ : String → K) : Expr → K → Prop :=
  MeansFrom 1 I σ

/-- What an operator makes of its operands, a power apart. -/
def Binary.value : Binary → K → K → K
  | .add, a, b => a + b
  | .sub, a, b | .equals, a, b => a - b
  | .mul, a, b => a * b
  | .div, a, b => a / b
  | .pow, _, _ => 0

theorem Binary.ne_pow_of_level {op : Binary} {level : Level} (h : op.level = some level) :
    op ≠ .pow := by
  rintro rfl
  cases h

namespace MeansFrom

variable {least least' : ℤ} {I : Interpretation K} {σ : String → K} {l r t : Expr} {a b v : K}
  {op : Binary}

/-- The operators by their values: only a quotient may be undefined where its operands are
not. -/
theorem binary_iff (h : op ≠ .pow) : MeansFrom least I σ (.binary op l r) v ↔
    ∃ a b, MeansFrom least I σ l a ∧ MeansFrom least I σ r b ∧ (op = .div → b ≠ 0) ∧
      v = op.value a b := by
  constructor
  · intro hv
    cases hv with
    | equals hl hr => exact ⟨_, _, hl, hr, nofun, rfl⟩
    | add hl hr => exact ⟨_, _, hl, hr, nofun, rfl⟩
    | sub hl hr => exact ⟨_, _, hl, hr, nofun, rfl⟩
    | mul hl hr => exact ⟨_, _, hl, hr, nofun, rfl⟩
    | div hl hr hb => exact ⟨_, _, hl, hr, fun _ => hb, rfl⟩
    | pow => exact absurd rfl h
  · rintro ⟨a, b, hl, hr, hb, rfl⟩
    cases op with
    | equals => exact equals hl hr
    | add => exact add hl hr
    | sub => exact sub hl hr
    | mul => exact mul hl hr
    | div => exact div hl hr (hb rfl)
    | pow => exact absurd rfl h

/-- What has a meaning with monomials from a power on has the same one with more of them. -/
theorem mono (h : MeansFrom least I σ t v) (hl : least' ≤ least) : MeansFrom least' I σ t v := by
  induction h with
  | number value => exact number value
  | monomial mult power defined => exact monomial mult power (defined.imp_right hl.trans)
  | equals _ _ ihl ihr => exact equals ihl ihr
  | add _ _ ihl ihr => exact add ihl ihr
  | sub _ _ ihl ihr => exact sub ihl ihr
  | mul _ _ ihl ihr => exact mul ihl ihr
  | div _ _ hb ihl ihr => exact div ihl ihr hb
  | pow _ exponent defined ih => exact pow ih exponent defined
  | factorial _ value ih => exact factorial ih value
  | apply _ value ih => exact apply ih value

/-- An expression means one thing at most. -/
theorem unique (h : MeansFrom least I σ t a) (h' : MeansFrom least I σ t b) : a = b := by
  induction h generalizing b with
  | number value =>
    cases h' with
    | number value' => exact value.unique value'
  | monomial mult power _ =>
    cases h' with
    | monomial mult' power' _ =>
      rw [mult.unique mult', Int.cast_inj.mp (power.unique power')]
  | equals _ _ ihl ihr =>
    cases h' with
    | equals hl hr => rw [ihl hl, ihr hr]
  | add _ _ ihl ihr =>
    cases h' with
    | add hl hr => rw [ihl hl, ihr hr]
  | sub _ _ ihl ihr =>
    cases h' with
    | sub hl hr => rw [ihl hl, ihr hr]
  | mul _ _ ihl ihr =>
    cases h' with
    | mul hl hr => rw [ihl hl, ihr hr]
  | div _ _ _ ihl ihr =>
    cases h' with
    | div hl hr _ => rw [ihl hl, ihr hr]
  | pow _ exponent _ ih =>
    cases h' with
    | pow hl exponent' _ => rw [ih hl, Int.cast_inj.mp (exponent.unique exponent')]
  | factorial _ value ih =>
    cases h' with
    | factorial ht value' =>
      rw [ih ht] at value
      exact Option.some_inj.mp (value.symm.trans value')
  | apply _ value ih =>
    cases h' with
    | apply ht value' =>
      rw [ih ht] at value
      exact Option.some_inj.mp (value.symm.trans value')

/-! ### Equality -/

variable [Tolerance]

/-- Nodes of one operator are the same if their operands are. -/
theorem same_node {op : Op} {l r l' r' : Expr} {P Q R : Prop}
    (hl : ∃ c, l.same l' = .ok c ∧ (c = true → P)) (hr : ∃ c, r.same r' = .ok c ∧ (c = true → Q))
    (h : P → Q → R) : ∃ c, (Expr.node op l r).same (.node op l' r') = .ok c ∧ (c = true → R) := by
  obtain ⟨c, same, hc⟩ := Calc.both_answer hl hr
  refine ⟨c, ?_, fun yes => h (hc yes).1 (hc yes).2⟩
  unfold Expr.same
  rw [if_pos rfl, same]

/-- Two trees that are the same have the same meaning. -/
theorem same_eq (hl : MeansFrom least I σ l a) (hr : MeansFrom least I σ r b) :
    ∃ c, l.same r = .ok c ∧ (c = true → a = b) := by
  induction hl generalizing r b with
  | number value =>
    cases hr with
    | number value' =>
      obtain ⟨c, same, hc⟩ := value.same_eq value'
      exact ⟨c, same, hc.mp⟩
    | _ => exact ⟨false, rfl, nofun⟩
  | @monomial x m p _ _ mult power _ =>
    cases hr with
    | @monomial y n q _ _ mult' power' _ =>
      show ∃ c, (if x == y then Calc.both (m.same n) (p.same q) else pure false) = .ok c ∧ _
      by_cases name : x = y
      · subst name
        obtain ⟨c, same, hc⟩ := mult.same_eq mult'
        rw [if_pos (beq_self_eq_true x), Calc.both_eq_ok same (power.same_eq power')]
        refine ⟨_, rfl, fun both => ?_⟩
        rw [Bool.and_eq_true, decide_eq_true_iff, hc, Int.cast_inj] at both
        rw [both.1, both.2]
      · rw [if_neg (by simpa using name)]
        exact ⟨false, rfl, nofun⟩
    | _ => exact ⟨false, rfl, nofun⟩
  | equals _ _ ihl ihr =>
    cases hr with
    | equals hl' hr' => exact same_node (ihl hl') (ihr hr') fun h h' => by rw [h, h']
    | _ => exact ⟨false, rfl, nofun⟩
  | add _ _ ihl ihr =>
    cases hr with
    | add hl' hr' => exact same_node (ihl hl') (ihr hr') fun h h' => by rw [h, h']
    | _ => exact ⟨false, rfl, nofun⟩
  | sub _ _ ihl ihr =>
    cases hr with
    | sub hl' hr' => exact same_node (ihl hl') (ihr hr') fun h h' => by rw [h, h']
    | _ => exact ⟨false, rfl, nofun⟩
  | mul _ _ ihl ihr =>
    cases hr with
    | mul hl' hr' => exact same_node (ihl hl') (ihr hr') fun h h' => by rw [h, h']
    | _ => exact ⟨false, rfl, nofun⟩
  | div _ _ _ ihl ihr =>
    cases hr with
    | div hl' hr' _ => exact same_node (ihl hl') (ihr hr') fun h h' => by rw [h, h']
    | _ => exact ⟨false, rfl, nofun⟩
  | pow _ exponent _ ih =>
    cases hr with
    | pow hl' exponent' _ =>
      refine same_node (ih hl') ⟨_, exponent.same_eq exponent', of_decide_eq_true⟩ fun h h' => ?_
      rw [h, Int.cast_inj.mp h']
    | _ => exact ⟨false, rfl, nofun⟩
  | factorial _ value ih =>
    cases hr with
    | factorial ht' value' =>
      refine same_node (ih ht') ⟨true, rfl, fun _ => True.intro⟩ fun h _ => ?_
      rw [h] at value
      exact Option.some_inj.mp (value.symm.trans value')
    | _ => exact ⟨false, rfl, nofun⟩
  | @apply f _ _ _ _ value ih =>
    cases hr with
    | @apply g _ _ _ ht' value' =>
      by_cases name : f = g
      · subst name
        refine same_node ⟨true, rfl, fun _ => True.intro⟩ (ih ht') fun _ h => ?_
        rw [h] at value
        exact Option.some_inj.mp (value.symm.trans value')
      · refine ⟨false, ?_, nofun⟩
        unfold Expr.same
        rw [if_neg (by simpa using name)]
        rfl
    | _ => exact ⟨false, rfl, nofun⟩

end MeansFrom

end

end SymbolicAlgebra
