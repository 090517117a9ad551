import SymbolicAlgebra.Proofs.Combine.Rounds

/-!
# Sizes of combined trees

A combination is no larger than the node of its operands, whatever is at the bottom of the rounds,
as long as that is no larger either (`combineFrom_size`). Most rules make a tree smaller. To negate
one adds up to two to its size, a minus one and the product with it, unless there is a leaf in front
that takes the sign: the *lead* of the tree (`negateWith_size`). But a rule that negates saves as
much elsewhere, and signs only move from operands that have a lead.
-/

namespace SymbolicAlgebra

namespace Expr

/-- The leaf at the front of chains in chains. It carries the sign of the tree. -/
def lead : Expr → Option Leaf
  | leaf a => some a
  | binary op l _ => if op.level.isSome then l.lead else none
  | _ => none

theorem lead_binary {op : Binary} {level : Level} (h : op.level = some level) (l r : Expr) :
    (binary op l r).lead = l.lead := by
  rw [lead, h]
  rfl

/-- Anything but a leaf or one of the four chains has no lead. -/
theorem lead_eq_none {t : Expr} (leaf : ∀ a, t = leaf a → False)
    (mul : ∀ l r, t = binary .mul l r → False) (div : ∀ l r, t = binary .div l r → False)
    (add : ∀ l r, t = binary .add l r → False) (sub : ∀ l r, t = binary .sub l r → False) :
    t.lead = none := by
  cases t with
  | absent => rfl
  | leaf a => exact (leaf a rfl).elim
  | node op l r =>
    cases op with
    | binary op =>
      cases op with
      | mul => exact (mul l r rfl).elim
      | div => exact (div l r rfl).elim
      | add => exact (add l r rfl).elim
      | sub => exact (sub l r rfl).elim
      | equals | pow => rfl
    | _ => rfl

theorem size_node (op : Op) (l r : Expr) : (node op l r).size = 1 + l.size + r.size := rfl

/-- Only a tree that is not there has no leaves and operators. -/
theorem size_pos {t : Expr} (h : t ≠ absent) : 0 < t.size := by
  cases t with
  | absent => exact absurd rfl h
  | leaf a => exact Nat.one_pos
  | node op l r => exact Nat.lt_add_right _ (Nat.lt_add_right _ Nat.one_pos)

theorem size_pos_of_isSome {t : Expr} (h : t.lead.isSome = true) : 0 < t.size := by
  refine size_pos ?_
  rintro rfl
  cases h

theorem size_pos_of_present {t u : Expr} (h : t.present = .ok u) : 0 < t.size := by
  refine size_pos ?_
  rintro rfl
  cases h

variable [Tolerance]

theorem size_pos_of_isZero {t : Expr} {b : Bool} (h : t.isZero = .ok b) : 0 < t.size := by
  refine size_pos ?_
  rintro rfl
  cases h

/-- A tree that could be asked whether it is a number zero is there. -/
theorem size_pos_of_isNumberZero {t : Expr} {b : Bool} (h : t.isNumberZero = .ok b) :
    0 < t.size := by
  refine size_pos ?_
  rintro rfl
  cases h

theorem size_pos_of_isNegOne {t : Expr} {b : Bool} (h : t.isNegOne = .ok b) : 0 < t.size := by
  refine size_pos ?_
  rintro rfl
  cases h

/-- What is negative has a lead. -/
theorem lead_of_sgn {t : Expr} {n : ℤ} (h : t.sgn = .ok n) (negative : n < 0) :
    ∃ a, t.lead = some a ∧ a.sgn = .ok n := by
  induction t with
  | absent => cases h
  | leaf a => exact ⟨a, rfl, h⟩
  -- only sums and products pass the sign of their left operand on
  | node op l r ihl ihr =>
    unfold sgn at h
    split at h
    next chain =>
      obtain ⟨a, hl, ha⟩ := ihl h
      refine ⟨a, ?_, ha⟩
      cases op with
      | binary op =>
        cases op with
        | add | sub | mul | div => exact hl
        | equals | pow => cases chain
      | _ => cases chain
    next =>
      cases h
      omega

variable [Exactness] {rec : Combiner} {op : Binary} {level : Level} {new : Leaf} {inverted : Bool}
  {l r t : Expr}

/-- A combination that is no larger than the node of its operands. -/
def Shrinks (rec : Combiner) : Prop :=
  ∀ op l r, Returns (rec op l r) (·.size ≤ 1 + l.size + r.size)

/-! ## Negation -/

/-- Negation may add a factor of minus one, but only to a tree without a lead. -/
theorem negateWith_size (h : Shrinks rec) :
    Returns (negateWith rec t) fun u =>
      u.size ≤ t.size + 2 ∧ (t.lead.isSome = true → u.size ≤ t.size) := by
  -- on the rules of negation; the one that multiplies by minus one has no lead to keep
  fun_induction negateWith rec t with
  | case1 => exact Returns.throw _
  | case2 a => exact Returns.map fun b _ => ⟨Nat.le_add_right 1 2, fun _ => Nat.le_refl 1⟩
  | case3 l r ih | case4 l r ih | case5 l r ih =>
    rw [size_node]
    refine ih.bind fun l' hl => (h _ _ _).mono fun u hu => ⟨?_, fun lead => ?_⟩
    · omega
    · have := hl.2 lead
      omega
  | case6 l r =>
    rw [size_node]
    exact (h _ _ _).mono fun u hu => ⟨by omega, fun _ => by omega⟩
  | case7 t absent leaf mul div add sub =>
    refine (h _ _ _).mono fun u hu => ⟨?_, fun lead => ?_⟩
    · have one : negOne.size = 1 := rfl
      omega
    · rw [lead_eq_none leaf mul div add sub] at lead
      cases lead

/-! ## Identities -/

/-- One leaf takes the place of two, or there is a node. -/
theorem mergeLeaves_size : Returns (mergeLeaves op l r) (·.size ≤ 1 + l.size + r.size) := by
  have node : (binary op l r).size ≤ 1 + l.size + r.size := Nat.le_refl _
  unfold mergeLeaves
  split
  next a b =>
    refine Returns.after fun o => ?_
    cases o with
    | some c => exact Returns.pure (Nat.le_trans (Nat.le_add_right 1 _) (Nat.le_add_right _ _))
    | none => exact Returns.pure node
  next => exact Returns.pure node

omit [Tolerance] [Exactness] in
theorem number_size (z : Number) : Returns (pure (number z)) (·.size ≤ 1 + l.size + r.size) := by
  refine .pure ?_
  have one : (number z).size = 1 := rfl
  omega

omit [Tolerance] [Exactness] in
theorem left_size : Returns (pure l) (·.size ≤ 1 + l.size + r.size) :=
  .pure (by omega)

omit [Tolerance] [Exactness] in
theorem right_size : Returns (pure r) (·.size ≤ 1 + l.size + r.size) :=
  .pure (by omega)

/-- What is negated has a lead, as it is negative, or the operand beside it makes room for a minus
one. -/
theorem atomicSum_size (h : Shrinks rec) :
    Returns (atomicSum rec op l r) (·.size ≤ 1 + l.size + r.size) := by
  unfold atomicSum
  refine .answered (fun _ => left_size) fun right => ?_
  refine .answered (fun left => ?leftZero) fun _ => ?_
  case leftZero =>
    have room := size_pos_of_isNumberZero left
    split
    next => exact right_size
    next => exact (negateWith_size h).mono fun u hu => by omega
  -- the identities are narrower by a node; what is negated and combined again has a lead
  refine .ask ?same (.bind (P := (r.sgn = .ok ·)) (fun _ => id) fun sign hsign => ?differ)
  case same =>
    have room := size_pos_of_isNumberZero right
    split
    next =>
      refine (h _ _ _).mono fun u hu => ?_
      have two : two.size = 1 := rfl
      omega
    next => exact number_size _
  case differ =>
    split
    next move =>
      rw [Bool.and_eq_true, decide_eq_true_iff] at move
      obtain ⟨a, lead, -⟩ := lead_of_sgn hsign move.1
      refine .bind (negateWith_size h) fun r' hr' => (h _ _ _).mono fun u hu => ?_
      have opposite := hr'.2 (by rw [lead]; rfl)
      omega
    next => exact mergeLeaves_size

/-- A square takes the place of a product, and its exponent is one leaf. -/
theorem atomicProduct_size (h : Shrinks rec) :
    Returns (atomicProduct rec l r) (·.size ≤ 1 + l.size + r.size) := by
  unfold atomicProduct
  refine .ask (number_size _) (.answered (fun _ => number_size _) fun right => ?_)
  refine .ask right_size (.ask left_size (.ask ?same ?differ))
  case same =>
    split
    next => exact mergeLeaves_size
    next =>
      refine (h _ _ _).mono fun u hu => ?_
      have two : two.size = 1 := rfl
      have room := size_pos_of_isZero right
      omega
  case differ =>
    split
    next swap =>
      rw [Nat.add_right_comm]
      exact .pure (Nat.le_refl _)
    next => exact mergeLeaves_size

/-- A quotient by zero is a leaf. -/
theorem overZero_size : Returns (overZero t) (·.size = 1) := by
  unfold overZero
  split
  next => exact .after fun _ => .pure rfl
  next => exact .after fun _ => .pure rfl

/-- Where the divisor is minus one, it makes room for a factor of minus one. -/
theorem atomicQuotient_size (h : Shrinks rec) :
    Returns (atomicQuotient rec l r) (·.size ≤ 1 + l.size + r.size) := by
  unfold atomicQuotient
  refine .ask (.ask (.throw _) ?overZero) (.ask (number_size _) (.ask left_size ?_))
  case overZero => exact overZero_size.mono fun u hu => by omega
  refine .answered (fun minus => ?opposite) fun _ => .ask (number_size _) mergeLeaves_size
  case opposite =>
    refine (negateWith_size h).mono fun u hu => ?_
    have room := size_pos_of_isNegOne minus
    omega

theorem raise_size : Returns (raise l r) (·.size ≤ 1 + l.size + r.size) := by
  unfold raise
  refine .ask (number_size _) (.ask left_size (.ask left_size ?_))
  exact .ask (number_size _) mergeLeaves_size

/-- No identity makes a tree larger than the node. -/
theorem atomicWith_size (h : Shrinks rec) :
    Returns (atomicWith rec op l r) (·.size ≤ 1 + l.size + r.size) := by
  cases op with
  | add => exact atomicSum_size h
  | sub => exact atomicSum_size h
  | mul => exact atomicProduct_size h
  | div => exact atomicQuotient_size h
  | pow => exact raise_size
  | equals => exact .pure (Nat.le_refl _)

/-! ## Chains -/

/-- A leaf that joins into a chain leaves no trace in its size. -/
theorem spliceWith_size (h : Shrinks rec) :
    Returns (spliceWith rec level new inverted t) fun o => ∀ u, o = some u → u.size ≤ t.size := by
  fun_induction spliceWith rec level new inverted t with
  | case1 => exact .throw _
  | case2 inverted old =>
    refine .after fun o => .pure fun u hu => ?_
    obtain ⟨c, -, rfl⟩ := Option.map_eq_some_iff.mp hu
    exact Nat.le_refl 1
  -- the root is built again over an operand that is no larger than the one before
  | case3 inverted op l r hop ihl ihr =>
    have rebuilt {l' r' : Expr} (hl : l'.size ≤ l.size) (hr : r'.size ≤ r.size) :
        Returns (some <$> atomicWith rec op l' r') fun o =>
          ∀ u, o = some u → u.size ≤ (binary op l r).size := by
      refine .map ((atomicWith_size h).mono ?_)
      rintro u hu _ ⟨rfl⟩
      rw [size_node]
      omega
    refine .bind ihl fun o ho => ?_
    cases o with
    | some l' => exact rebuilt (ho l' rfl) (Nat.le_refl _)
    | none =>
      refine .bind ihr fun o ho => ?_
      cases o with
      | some r' => exact rebuilt (Nat.le_refl _) (ho r' rfl)
      | none => exact .none
  | case4 => exact .none
  | case5 => exact .none

/-- Taking a chain on the right apart makes two nodes of two. -/
theorem reassociate_size (h : Shrinks rec) :
    Returns (reassociate rec level op l r) (·.size ≤ 1 + l.size + r.size) := by
  unfold reassociate
  split
  next inner a b =>
    split
    next =>
      refine .bind (h _ _ _) fun t ht => (h _ _ _).mono fun u hu => ?_
      rw [size_node]
      omega
    next => exact atomicWith_size h
  next => exact atomicWith_size h

/-- A chain is no larger than before, however an operand joins it. -/
theorem chainWith_size (h : Shrinks rec) :
    Returns (chainWith rec level op l r) (·.size ≤ 1 + l.size + r.size) := by
  have smaller {t : Expr} (ht : t.size ≤ l.size + r.size) {new : Leaf} {inverted : Bool} :
      Returns (spliceWith rec level new inverted t) fun o =>
        ∀ u, o = some u → u.size ≤ 1 + l.size + r.size := by
    refine (spliceWith_size h).mono fun o ho u hu => ?_
    have joined := ho u hu
    omega
  refine chainWith_returns ?right ?left fun _ => reassociate_size h
  case right => exact fun _ _ => smaller (Nat.le_add_right _ _)
  case left => exact fun _ _ => smaller (Nat.le_add_left _ _)

/-! ## Rounds -/

/-- A round shrinks if the combination below it does. -/
theorem combineStep_size (h : Shrinks rec) : Shrinks (combineStep rec) := by
  intro op l r
  refine combineStep_returns (fun _ => Nat.le_refl _) fun _ _ => ?_
  unfold combineOperands
  split
  next level chain =>
    split
    next leaves => exact atomicWith_size h
    next => exact chainWith_size h
  next none => exact atomicWith_size h

/-- Combining does not make larger trees than the node of the operands. -/
theorem combineFrom_size {bottom : Combiner} (h : Shrinks bottom) (n : ℕ) :
    Shrinks (combineFrom bottom n) := by
  induction n with
  | zero => exact h
  | succ n ih => exact combineStep_size ih

omit [Tolerance] [Exactness] in
theorem giveUp_size : Shrinks giveUp := fun _ _ _ => .throw _

end Expr

end SymbolicAlgebra
