import SymbolicAlgebra.Expr.Read
import SymbolicAlgebra.Proofs.Combine.Calls
import SymbolicAlgebra.Proofs.Combine.Formed

/-!
# Equal operands

The identities ask whether the operands are equal, and a difference of equal trees is zero then and
their quotient one (`combine_sub_self`, `combine_div_self`). They are asked last. A chain on the
right is taken apart before, and what is left of it never meets the whole again. So the two laws are
of trees that are no chain themselves, and of a chain only as far as its parts cancel one by one.

Leaves do, they join into the chain. But functions, powers and factorials are *solid*: they stay at
the end of the chain that they come to (`combine_solid`). So a chain of two of them stays whole
beside itself, twice as long (`chain_self`).

A tree is equal to itself if there is no NaN in it (`same_self`).
-/

namespace SymbolicAlgebra

/-! ## A tree and itself -/

/-- Whether a scalar is not NaN. -/
def Scalar.noNaN : Scalar → Bool
  | exact _ => true
  | approx v => !v.isNaN

/-- Whether no number of a constant is NaN. -/
def Constant.noNaN : Constant → Bool
  | power a b => !a.isNaN && !b.isNaN
  | log a => !a.isNaN
  | exp a => !a.isNaN

/-- Whether no part of a value is NaN. -/
def Value.noNaN : Value → Bool
  | plain s => s.noNaN
  | symbolic m c => m.noNaN && c.noNaN

/-- Whether no part of a number is NaN. -/
def Number.noNaN (z : Number) : Bool := z.re.noNaN && z.im.noNaN

/-- Whether there is no NaN in a leaf. -/
def Leaf.noNaN : Leaf → Bool
  | number z => z.noNaN
  | monomial _ m p => m.noNaN && p.noNaN

section

variable [Tolerance]

theorem Double.approxEq_self {v : Double} (h : (!v.isNaN) = true) : approxEq v v = true := by
  have equal : v.equals v = true := by simp [equals, h]
  unfold approxEq
  rw [if_pos equal]

theorem Scalar.same_self {a : Scalar} (h : a.noNaN = true) : a.same a = .ok true := by
  cases a with
  | exact p => exact congrArg Except.ok (beq_self_eq_true _)
  | approx v => exact congrArg Except.ok (Double.approxEq_self h)

/-- A constant is the same as itself. -/
theorem Constant.same_self {c : Constant} (h : c.noNaN = true) : c.same c = true := by
  cases c with
  | power a b =>
    have h := Bool.and_eq_true_iff.mp h
    exact Bool.and_eq_true_iff.mpr ⟨Double.approxEq_self h.1, Double.approxEq_self h.2⟩
  | log a => exact Double.approxEq_self h
  | exp a => exact Double.approxEq_self h

/-- A value is the same as itself. -/
theorem Value.same_self {v : Value} (h : v.noNaN = true) : v.same v = .ok true := by
  cases v with
  | plain s => exact Scalar.same_self h
  | symbolic m c =>
    have h := Bool.and_eq_true_iff.mp h
    exact (if_pos (Constant.same_self h.2)).trans (Scalar.same_self h.1)

theorem Number.same_self {z : Number} (h : z.noNaN = true) : z.same z = .ok true := by
  have h := Bool.and_eq_true_iff.mp h
  exact Calc.both_eq_ok (Value.same_self h.1) (Value.same_self h.2)

/-- A leaf is the same as itself. -/
theorem Leaf.same_self {a : Leaf} (h : a.noNaN = true) : a.same a = .ok true := by
  cases a with
  | number z => exact Number.same_self h
  | monomial x m p =>
    have h := Bool.and_eq_true_iff.mp h
    exact (if_pos (beq_self_eq_true x)).trans
      (Calc.both_eq_ok (Number.same_self h.1) (Value.same_self h.2))

/-- A tree in which no leaf is NaN equals itself. -/
theorem Expr.same_self {t : Expr} (h : t.Formed (·.noNaN = true)) : t.same t = .ok true := by
  induction t with
  | absent => cases h
  | leaf a => exact Leaf.same_self h
  | node op l r ihl ihr =>
    unfold same
    rw [if_pos rfl]
    cases op with
    | binary op => exact Calc.both_eq_ok (ihl h.1) (ihr h.2)
    | factorial =>
      obtain ⟨hl, rfl⟩ := h
      exact Calc.both_eq_ok (ihl hl) rfl
    | function f =>
      obtain ⟨rfl, hr⟩ := h
      exact Calc.both_eq_ok rfl (ihr hr)
    | opening => cases h
    | closing => cases h

end

namespace Expr

variable [Tolerance] [Exactness] {op inner : Binary} {level : Level} {l r t a b : Expr}

/-! ## Operands that are no chains -/

/-- What is no chain is not taken apart. -/
theorem reassociate_apart {rec : Combiner} (apart : r.inChain level = false) :
    reassociate rec level op l r = atomicWith rec op l r := by
  unfold reassociate
  split
  next inner a b =>
    refine if_neg fun chain => ?_
    rw [inChain, Op.continues, chain, beq_self_eq_true] at apart
    cases apart
  next => rfl

theorem atomicWith_sum (rec : Combiner) (hop : op.level = some .sum) :
    atomicWith rec op l r = atomicSum rec op l r := by
  cases op <;> cases hop <;> rfl

/-- Zero on the right of a sum or difference vanishes. -/
theorem atomicSum_zero {rec : Combiner} (zero : r.isNumberZero = .ok true) :
    atomicSum rec op l r = .ok l := by
  unfold atomicSum
  rw [zero]
  rfl

/-- The operator of a chain looks for a leaf to join before it asks for any identity, unless both of
its operands are leaves. -/
theorem combine_eq_chain (hop : op.level = some level) (hl : l.present = .ok l)
    (hr : r.present = .ok r) : combine op l r = if l.isLeaf && r.isLeaf then
      atomicWith combine op l r else chainWith combine level op l r := by
  rw [combine_eq_step, combineStep, if_neg (ne_equals_of_level hop), hl, hr]
  show combineOperands combine op l r = _
  unfold combineOperands
  rw [hop]

/-- Between two operators there is no leaf to join. -/
theorem combine_node (hop : op.level = some level) (o o' : Op) (a b c d : Expr) :
    combine op (node o a b) (node o' c d) =
      reassociate combine level op (node o a b) (node o' c d) :=
  combine_eq_chain hop rfl rfl

/-- An operator on the right is combined as a chain. -/
theorem combine_binary (hop : op.level = some level) (hl : l.present = .ok l) :
    combine op l (binary inner a b) = chainWith combine level op l (binary inner a b) := by
  refine (combine_eq_chain hop hl rfl).trans (if_neg ?_)
  show ¬(l.isLeaf && false) = true
  rw [Bool.and_false]
  exact Bool.false_ne_true

/-- A leaf on the left may join the chain on the right. -/
theorem combine_of_joined (hop : op.level = some level) (hl : l.present = .ok l)
    (joined : joinLeft combine level op l (binary inner a b) = .ok (some t)) :
    combine op l (binary inner a b) = .ok t := by
  rw [combine_binary hop hl]
  show (joinLeft combine level op l _ >>= _) = _
  rw [joined]
  rfl

/-- Else the chain is taken apart. -/
theorem combine_of_not_joined (hop : op.level = some level) (hinner : inner.level = some level)
    (hl : l.present = .ok l)
    (apart : joinLeft combine level op l (binary inner a b) = .ok none) :
    combine op l (binary inner a b) = combine op l a >>= fun t =>
      combine (if op.isInverted then inner.flip else inner) t b := by
  rw [combine_binary hop hl]
  show (joinLeft combine level op l _ >>= _) = _
  rw [apart]
  exact if_pos hinner

/-- A tree that is no chain meets the identities beside itself. -/
theorem combine_self (hop : op.level = some level) (present : t ≠ absent)
    (apart : t.inChain level = false) : combine op t t = atomicWith combine op t t := by
  cases t with
  | absent => exact absurd rfl present
  | leaf a => exact combine_eq_chain hop rfl rfl
  | node o a b => rw [combine_node hop, reassociate_apart apart]

/-- **A difference of equal trees is zero**, if they are no sum. -/
theorem combine_sub_self (ht : t.Formed (·.noNaN = true)) (apart : t.inChain .sum = false)
    (nonzero : t.isNumberZero = .ok false) : combine .sub t t = .ok zero := by
  rw [combine_self (rfl : Binary.sub.level = some .sum) (by rintro rfl; cases nonzero) apart]
  show atomicSum combine .sub t t = _
  unfold atomicSum
  rw [nonzero, same_self ht]
  rfl

/-- **A quotient of equal trees is one**, if they are no product. -/
theorem combine_div_self (ht : t.Formed (·.noNaN = true)) (apart : t.inChain .product = false)
    (nonzero : t.isZero = .ok false) (nonone : t.isOne = .ok false)
    (nonneg : t.isNegOne = .ok false) : combine .div t t = .ok one := by
  rw [combine_self (rfl : Binary.div.level = some .product) (by rintro rfl; cases nonzero) apart]
  show atomicQuotient combine t t = _
  unfold atomicQuotient
  rw [nonzero, nonone, nonneg, same_self ht]
  rfl

/-! ## Chains -/

/-- A tree that takes part in chains only as a whole: a function, a factorial or a power, or any
other operator outside of the chains. -/
def Solid : Expr → Prop
  | node op _ _ => ∀ level, op.continues level = false
  | _ => False

/-- A solid operand stays at the end of a chain. -/
theorem combine_solid (hop : op.level = some level) (hinner : inner.level = some level)
    (hr : r.Solid) : combine op (binary inner a b) r = .ok (binary op (binary inner a b) r) := by
  cases r with
  | absent => cases hr
  | leaf => cases hr
  | node o c d =>
    have apart : (node o c d).inChain level = false := hr level
    rw [combine_node hop, reassociate_apart apart]
    have differ : (node o c d).same (binary inner a b) = .ok false := by
      refine if_neg ?_
      rintro rfl
      have := hr level
      rw [Op.continues, hinner, beq_self_eq_true] at this
      cases this
    have sign : (node o c d).sgn = .ok 1 := by
      unfold sgn
      rw [hr .product, hr .sum]
      rfl
    cases op with
    | add | sub =>
      show atomicSum combine _ _ _ = _
      unfold atomicSum
      rw [differ, sign]
      rfl
    | mul =>
      show atomicProduct combine _ _ = _
      unfold atomicProduct
      rw [differ]
      rfl
    | div =>
      show atomicQuotient combine _ _ = _
      unfold atomicQuotient
      rw [differ]
      rfl
    | equals | pow => cases hop

/-- A chain of two solid operands does not cancel with itself: the parts of the right one go to the
end of the left one. -/
theorem chain_self (hop : op.level = some level) (inverted : op.isInverted = true)
    (hinner : inner.level = some level) (ha : a.Solid) (hb : b.Solid) :
    combine op (binary inner a b) (binary inner a b) =
      .ok (binary inner.flip (binary op (binary inner a b) a) b) := by
  have hflip : inner.flip.level = some level := by cases inner <;> exact hinner
  calc combine op (binary inner a b) (binary inner a b)
    _ = reassociate combine level op (binary inner a b) (binary inner a b) := combine_node hop ..
    _ = combine op (binary inner a b) a >>= fun t => combine inner.flip t b := by
      unfold reassociate
      exact (if_pos hinner).trans (by rw [if_pos inverted])
    _ = combine inner.flip (binary op (binary inner a b) a) b := by
      rw [combine_solid hop hinner ha]
      rfl
    _ = _ := combine_solid hflip hop hb

omit [Tolerance] [Exactness] in
example :
    letI := Double.standardTolerance
    letI := Exactness.free
    let a := apply .sin (ofName "x")
    let b := apply .cos (ofName "x")
    parse .standard none "(sin x+cos x)-(sin x+cos x)" =
      .ok (binary .sub (binary .sub (binary .add a b) a) b) := by
  decide +kernel

end Expr

end SymbolicAlgebra
