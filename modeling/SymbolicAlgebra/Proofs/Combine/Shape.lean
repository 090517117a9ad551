import SymbolicAlgebra.Proofs.Combine.Depth

/-!
# The shape of combined trees

No tree that `Expr.combine` builds divides by a product or quotient: chains nest to the left
only, so a divisor is taken in factor by factor. This is an invariant that the rewriting of
products rests on. A leaf that is multiplied into a chain may be zero, and a chain below a
fraction bar would let it reach the divisor of a divisor.

Nor does it raise to the power zero: that power is one, although the derivative of a power
would ask for its base to the power minus one.

`Expr.Shaped A` states both together with a condition `A` on the leaves that the algebra of
leaves keeps (`Leaf.Closed`). It is an invariant of combination (`invariant_shaped`), and so it
holds of every result, exact or not, whatever the operands mean.
-/

namespace SymbolicAlgebra

namespace Leaf

/-- A monomial has a power other than zero. -/
def HasPower [Tolerance] : Leaf → Prop
  | number _ => True
  | monomial _ _ p => p.isZero = .ok false

/-- Leaf algebra keeps the powers of monomials away from zero. -/
theorem closed_hasPower [Tolerance] [Exactness] : Closed HasPower := by
  refine Inherited.closed ⟨fun _ => True.intro, id, fun {x m n p q} _ => ?_⟩
  refine Returns.ask (Returns.pure True.intro) ?_
  refine Returns.bind (P := fun zero => q.isZero = .ok zero) (fun _ h => h) fun zero hzero => ?_
  cases zero with
  | true => exact Returns.pure True.intro
  | false => exact Returns.pure hzero

end Leaf

namespace Expr

variable [Tolerance]

/-- What an operator may have on its right: a divisor is no product or quotient, and an
exponent is not zero. -/
def Fits (op : Op) (r : Expr) : Prop :=
  (op = .binary .div → r.isProduct = false) ∧ (op = .binary .pow → r.isNumberZero = .ok false)

/-- All leaves meet the condition, and all right operands fit. -/
def Shaped (A : Leaf → Prop) : Expr → Prop
  | absent => True
  | leaf a => A a
  | node op l r => l.Shaped A ∧ r.Shaped A ∧ Fits op r

variable {A B : Leaf → Prop} {op : Binary} {l r t : Expr}

/-- Less may be asked of the leaves. -/
theorem Shaped.mono (h : t.Shaped A) (hAB : ∀ a, A a → B a) : t.Shaped B := by
  induction t with
  | absent => exact True.intro
  | leaf a => exact hAB a h
  | node op l r ihl ihr => exact ⟨ihl h.1, ihr h.2.1, h.2.2⟩

/-- If the names of all leaves are of some kind, then so are those of the tree. -/
theorem Shaped.names {N : String → Prop} (h : t.Shaped fun a => ∀ x ∈ a.names, N x) :
    ∀ x ∈ t.names, N x := by
  induction t with
  | absent => nofun
  | leaf a => exact h
  | node op l r ihl ihr => exact List.forall_mem_append.mpr ⟨ihl h.1, ihr h.2.1⟩

/-- A shaped tree whose names are of some kind has leaves with names of this kind. -/
theorem Shaped.of_names {N : String → Prop} (h : t.Shaped A) (hN : ∀ x ∈ t.names, N x) :
    t.Shaped fun a => ∀ x ∈ a.names, N x := by
  induction t with
  | absent => exact True.intro
  | leaf a => exact hN
  | node op l r ihl ihr =>
    have both := List.forall_mem_append.mp hN
    exact ⟨ihl h.1 both.1, ihr h.2.1 both.2, h.2.2⟩

variable [Exactness] {rec : Combiner}

/-- A combination that builds shaped trees from shaped trees, if the exponent of a power is
not zero. -/
def KeepsShape (A : Leaf → Prop) (rec : Combiner) : Prop :=
  ∀ {op : Binary} {l r : Expr}, l.Shaped A → r.Shaped A →
    (op = .pow → r.isNumberZero = .ok false) → Returns (rec op l r) (Shaped A)

theorem shaped_ofInt (hA : Leaf.Closed A) (n : Int) : (ofInt n).Shaped A := hA.number _

omit [Tolerance] [Exactness] in
theorem isProduct_binary (h : op.level ≠ some .product) : (binary op l r).isProduct = false :=
  beq_eq_false_iff_ne.mpr h

omit [Tolerance] [Exactness] in
/-- A divisor stays no chain of factors where the rules put another one. -/
theorem placement_divisor : Placement fun op _ r => op = .div → r.isProduct = false where
  apart h hdiv := by
    subst hdiv
    exact h .product rfl
  front _ := nofun
  left h _ := h
  right hop h isLeaf hdiv := by
    subst hdiv
    cases hop
    exact inChain_of_isLeaf (isLeaf (h rfl))

/-- The identities of powers leave no exponent zero, so only the divisors have to be watched. -/
theorem invariant_shaped (hA : Leaf.Closed A) : Invariant (fun _ => True) A
    (fun op _ r => op = .div → r.isProduct = false) (Shaped A) where
  arithmetic _ _ := True.intro
  absent _ := True.intro
  leaves := hA
  places := placement_divisor
  leaf := Iff.rfl
  operands ht _ := ⟨ht.1, ht.2.1, fun hdiv => ht.2.2.1 (congrArg Op.binary hdiv)⟩
  node _ hl hr hn reduced := by
    refine ⟨hl, hr, fun hdiv => hn (Op.binary.inj hdiv), fun hpow => ?_⟩
    obtain rfl := Op.binary.inj hpow
    exact reduced.zero

omit [Exactness] in
/-- A combination that keeps the shape preserves it as an invariant. -/
theorem KeepsShape.preserves (hrec : KeepsShape A rec) :
    Preserves (fun _ => True) (Shaped A) rec :=
  fun _ hl hr hpow => .of_returns (hrec hl hr hpow)

/-! ## Rules -/

theorem negateWith_shaped (hA : Leaf.Closed A) (hrec : KeepsShape A rec) (ht : t.Shaped A) :
    Returns (negateWith rec t) (Shaped A) :=
  ((invariant_shaped hA).negateWith_ends hrec.preserves ht).returns

theorem raise_shaped (hA : Leaf.Closed A) (hl : l.Shaped A) (hr : r.Shaped A) :
    Returns (raise l r) (Shaped A) :=
  ((invariant_shaped hA).raise_ends hl hr).returns

/-- A leaf joins into a chain of shaped trees. -/
theorem spliceWith_shaped (hA : Leaf.Closed A) (hrec : KeepsShape A rec) {level : Level}
    {new : Leaf} {inverted : Bool} (hnew : A new) (ht : t.Shaped A) :
    Returns (spliceWith rec level new inverted t) fun o => ∀ t', o = some t' → t'.Shaped A :=
  ((invariant_shaped hA).spliceWith_ends hrec.preserves hnew ht).returns

/-- A round keeps the shape if the combination below it does. -/
theorem combineStep_shaped (hA : Leaf.Closed A) (hrec : KeepsShape A rec) (hl : l.Shaped A)
    (hr : r.Shaped A) : Returns (combineStep rec op l r) (Shaped A) := by
  by_cases hop : op = .equals
  · subst hop
    exact Returns.pure ⟨hl, hr, nofun, nofun⟩
  · exact ((invariant_shaped hA).combineStep_ends hrec.preserves hop hl hr).returns

/-! ## Rounds -/

omit [Exactness] in
/-- A node that only nests its chains to the left divides by no product. -/
theorem leftNested_shaped (hl : l.Shaped A) (hr : r.Shaped A)
    (hpow : op = .pow → r.isNumberZero = .ok false) : (leftNested op l r).Shaped A := by
  fun_induction leftNested op l r with
  | case1 op l inner a b h ih ih' =>
    have first : op ≠ .pow := by
      rintro rfl
      cases h
    have second : (if op.isInverted then inner.flip else inner) ≠ .pow := by
      cases op <;> cases inner <;> cases h <;> nofun
    exact ih' (ih hl hr.1 fun h => absurd h first) hr.2.1 fun h => absurd h second
  | case2 op l inner a b h =>
    refine ⟨hl, hr, fun hdiv => isProduct_binary fun product => h ?_, fun h => hpow ?_⟩
    · rw [Op.binary.inj hdiv, product]
      rfl
    · exact Op.binary.inj h
  | case3 op l r h =>
    exact ⟨hl, hr, fun _ => inChain_of_not_binary h, fun h => hpow (Op.binary.inj h)⟩

omit [Exactness] in
theorem nested_shaped : KeepsShape A nested :=
  fun hl hr hpow => Returns.pure (leftNested_shaped hl hr hpow)

/-- Leaves are combined in the first round, whatever the rounds below it do. -/
theorem combine_leaves (op : Binary) (hop : op ≠ .equals) (a b : Leaf) :
    ∃ rec, combine op (leaf a) (leaf b) = atomicWith rec op (leaf a) (leaf b) := by
  obtain ⟨n, depth⟩ := combineDepth_eq_succ (leaf a) (leaf b)
  refine ⟨combineFrom nested n, ?_⟩
  unfold combine
  rw [depth]
  cases op with
  | equals => exact absurd rfl hop
  | _ => rfl

/-- Combining keeps the shape. -/
theorem combine_shaped (hA : Leaf.Closed A) (hl : l.Shaped A) (hr : r.Shaped A) :
    Returns (combine op l r) (Shaped A) :=
  ((invariant_shaped hA).combine_ends (by rintro rfl; exact ⟨hl, hr, nofun, nofun⟩) hl hr).returns

theorem negate_shaped (hA : Leaf.Closed A) (ht : t.Shaped A) : Returns (negate t) (Shaped A) :=
  ((invariant_shaped hA).negate_ends ht).returns

end Expr

end SymbolicAlgebra
