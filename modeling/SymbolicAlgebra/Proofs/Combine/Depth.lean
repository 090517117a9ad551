import SymbolicAlgebra.Proofs.Combine.Kept

/-!
# The depth of combination

A rule calls combinations of lower `rank` only, so `combineDepth` rounds are enough, and what is at
the bottom of them does not matter (`combine_eq`). The rank compares, in this order:

1. the width, which is the size of the node: most calls are on smaller ones;
2. whether the left operand lacks a lead: to divide by minus one puts a minus one in front of it, and
   combinations of full size leave it there;
3. the size of the right operand: a chain on the right is taken apart from the left;
4. the motion that is left at the node: for sums, the sway of the right operand, which is less after
   a sign has moved.

This holds of all trees, however they are nested, and not only of those that combining makes.
-/

namespace SymbolicAlgebra

variable [Tolerance] [Exactness]

namespace Expr

variable {op op' : Binary} {l l' r r' t : Expr}

/-! ## Ranks -/

/-- The size of the node for two operands. -/
def width (l r : Expr) : ℕ := 1 + l.size + r.size

/-- One for a tree without a lead, and zero for one with a lead. -/
def lack (t : Expr) : ℕ := if t.lead.isSome then 0 else 1

/-- What may still move at the node. -/
def motion (op : Binary) (r : Expr) : ℕ :=
  match op with
  | .add | .sub => 2 + r.sway
  | .mul | .div => 1
  | .pow | .equals => 0

/-- The rank of a combination. -/
def rank (op : Binary) (l r : Expr) : ℕ :=
  ((2 * width l r + l.lack) * width l r + r.size) * (3 * width l r) + motion op r

omit [Tolerance] [Exactness] in
theorem lack_le_one (t : Expr) : t.lack ≤ 1 := by
  unfold lack
  split <;> omega

omit [Tolerance] [Exactness] in
theorem lack_eq_zero (h : t.lead.isSome = true) : t.lack = 0 := if_pos h

omit [Tolerance] [Exactness] in
theorem lack_eq_one (h : t.lead = none) : t.lack = 1 := by
  unfold lack
  rw [h]
  rfl

omit [Tolerance] [Exactness] in
/-- Nothing is lacking that was not lacking before, if a lead stays one. -/
theorem lack_le (h : l.lead.isSome = true → t.lead.isSome = true) : t.lack ≤ l.lack := by
  cases hl : l.lead with
  | none =>
    rw [lack_eq_one hl]
    exact lack_le_one t
  | some a => rw [lack_eq_zero (h (by rw [hl]; rfl))]; exact Nat.zero_le _

/-- A loose node has a right operand. -/
theorem size_pos_of_loose {op : Op} (h : loose op l r = true) : 0 < r.size := by
  have product (h : r.isProduct = true) : 0 < r.size := by
    refine size_pos ?_
    rintro rfl
    cases h
  -- each rule on the right side reads something that an empty tree does not have
  unfold loose at h
  split at h
  · exact size_pos_of_isSome (isSome_lead_of_turns (of_decide_eq_true h))
  · exact size_pos_of_isSome (isSome_lead_of_turns (of_decide_eq_true h))
  · rw [Bool.or_eq_true, Bool.and_eq_true] at h
    rcases h with number | chain
    · cases r with
      | leaf a => exact Nat.one_pos
      | _ => cases number
    · exact product chain.1
  · rw [Bool.or_eq_true, Bool.and_eq_true, decide_eq_true_iff] at h
    rcases h with minus | chain
    · exact size_pos_of_isNegOne minus
    · exact product chain.1
  · cases h

/-- There are fewer loose nodes than leaves and operators. -/
theorem slack_le (t : Expr) : t.slack ≤ t.size - 1 := by
  induction t with
  | absent => exact Nat.le_refl 0
  | leaf a => exact Nat.le_refl 0
  | node op l r ihl ihr =>
    rw [slack_node, size_node]
    cases h : loose op l r with
    | true =>
      -- the right operand pays for its node
      have := size_pos_of_loose h
      rw [Bool.toNat_true]
      omega
    | false =>
      rw [Bool.toNat_false]
      omega

/-- What may turn in a tree is bounded by its size. -/
theorem sway_le (t : Expr) : t.sway ≤ 3 * t.size := by
  cases t with
  | absent => exact Nat.le_refl 0
  | leaf a =>
    have := turns_le_two (leaf a)
    show 3 * 0 + turns (leaf a) ≤ 3 * 1
    omega
  | node op l r =>
    have := slack_le (node op l r)
    have := turns_le_two (node op l r)
    unfold sway
    rw [size_node] at *
    omega

/-- What may move at a node is bounded by its width. -/
theorem motion_lt (op : Binary) (l r : Expr) : motion op r < 3 * width l r := by
  have := r.sway_le
  unfold width
  cases op with
  | add | sub =>
    show 2 + r.sway < _
    omega
  | mul | div =>
    show 1 < _
    omega
  | pow | equals =>
    show 0 < _
    omega

/-- The rank is bounded by a polynomial in the width. -/
theorem rank_lt (op : Binary) (l r : Expr) :
    rank op l r < (2 * width l r + 2) * width l r * (3 * width l r) := by
  have := l.lack_le_one
  have := motion_lt op l r
  have right : r.size < width l r := by
    unfold width
    omega
  have digits : (2 * width l r + l.lack) * width l r + (r.size + 1) ≤
      -- the digits of the rank in base `3 * width`, the last of them smaller than the base
      (2 * width l r + 2) * width l r :=
    calc (2 * width l r + l.lack) * width l r + (r.size + 1)
      _ ≤ (2 * width l r + 1) * width l r + width l r :=
        Nat.add_le_add (Nat.mul_le_mul_right _ (by omega)) right
      _ = (2 * width l r + 2) * width l r := by ring
  calc rank op l r
    _ < ((2 * width l r + l.lack) * width l r + r.size) * (3 * width l r) + 3 * width l r :=
      Nat.add_lt_add_left this _
    _ = ((2 * width l r + l.lack) * width l r + (r.size + 1)) * (3 * width l r) := by ring
    _ ≤ _ := Nat.mul_le_mul_right _ digits

/-- Depth enough for the rank. -/
theorem rank_lt_combineDepth (op : Binary) (l r : Expr) : rank op l r < combineDepth l r := by
  refine Nat.lt_of_lt_of_le (rank_lt op l r) ?_
  have depth : combineDepth l r = (width l r + 1) ^ 4 := by
    unfold combineDepth width
    rw [Nat.pow_eq]
    congr 1
    omega
  rw [depth]
  obtain one | ⟨n, hn⟩ : width l r = 1 ∨ ∃ n, width l r = n + 2 := by
    have : 1 ≤ width l r := by
      unfold width
      omega
    exact (Nat.eq_or_lt_of_le this).imp Eq.symm fun h => ⟨width l r - 2, by omega⟩
  · rw [one]
    decide
  · -- the bound on the rank is a polynomial of degree three, and the depth one of degree four
    rw [hn]
    have rest : (n + 2 + 1) ^ 4 = (2 * (n + 2) + 2) * (n + 2) * (3 * (n + 2)) +
        (n ^ 4 + 6 * n ^ 3 + 12 * n ^ 2 + 12 * n + 9) := by ring
    omega

/-! ## Lower ranks -/

/-- Narrower operands have a lower rank, whatever else they do. -/
theorem rank_lt_of_width (h : width l' r' < width l r) : rank op' l' r' < rank op l r :=
  calc rank op' l' r'
    _ < (2 * width l' r' + 2) * width l' r' * (3 * width l' r') := rank_lt op' l' r'
    _ ≤ (2 * width l r + l.lack) * width l r * (3 * width l r) :=
      Nat.mul_le_mul (Nat.mul_le_mul (by omega) (by omega)) (by omega)
    _ ≤ rank op l r := Nat.le_trans (Nat.mul_le_mul_right _ (Nat.le_add_right _ _))
      (Nat.le_add_right _ _)

/-- Of two nodes of one width the first part of the rank decides. -/
theorem rank_lt_of_first (width : width l' r' = width l r)
    (h : (2 * Expr.width l r + l'.lack) * Expr.width l r + r'.size <
      (2 * Expr.width l r + l.lack) * Expr.width l r + r.size) : rank op' l' r' < rank op l r := by
  have motion := motion_lt op' l' r'
  unfold rank
  rw [width] at motion ⊢
  have next := Nat.mul_le_mul_right (3 * Expr.width l r) h
  rw [Nat.succ_eq_add_one, Nat.add_mul, Nat.one_mul] at next
  omega

/-- A left operand that gets a lead lowers the rank. -/
theorem rank_lt_of_lack (width : width l' r' = width l r) (h : l'.lack < l.lack) :
    rank op' l' r' < rank op l r := by
  refine rank_lt_of_first width ?_
  have right : r'.size < Expr.width l r := by
    rw [← width, Expr.width]
    omega
  have next := Nat.mul_le_mul_right (Expr.width l r) (Nat.add_lt_add_left h (2 * Expr.width l r))
  rw [Nat.succ_eq_add_one, Nat.add_mul, Nat.one_mul] at next
  omega

/-- A smaller right operand lowers the rank, if the left one keeps its lead. -/
theorem rank_lt_of_right (width : width l' r' = width l r) (lack : l'.lack ≤ l.lack)
    (h : r'.size < r.size) : rank op' l' r' < rank op l r := by
  refine rank_lt_of_first width ?_
  have := Nat.mul_le_mul_right (Expr.width l r) (Nat.add_le_add_left lack (2 * Expr.width l r))
  omega

/-- If all else stays, the rank is lower as less may move. -/
theorem rank_lt_of_motion (width : width l' r' = width l r) (lack : l'.lack ≤ l.lack)
    (right : r'.size = r.size) (h : motion op' r' < motion op r) :
    rank op' l' r' < rank op l r := by
  unfold rank
  rw [width, right]
  have := Nat.mul_le_mul_right (Expr.width l r) (Nat.add_le_add_left lack (2 * Expr.width l r))
  exact Nat.add_lt_add_of_le_of_lt (Nat.mul_le_mul_right _ (Nat.add_le_add_right this _)) h

/-! ## Calls -/

/-- The calculation does not give up. -/
abbrev Finishes {α : Type} (x : Calc α) : Prop := x.FailsAs (· ≠ .noOperation)

omit [Tolerance] in
/-- To give up is no failure of arithmetic. -/
theorem finishes_of_numeric {α : Type} {x : Calc α} (h : x.FailsAs Failure.IsNumeric) :
    Finishes x := by
  refine h.mono fun e he giveUp => ?_
  subst giveUp
  exact he

omit [Tolerance] in
theorem finishes_of_tooWide {α : Type} {x : Calc α} (h : x.FailsAs (· = .tooWide)) : Finishes x :=
  finishes_of_numeric h.numeric

omit [Tolerance] [Exactness] in
theorem finishes_noOperand {α : Type} : Finishes (throw .noOperand : Calc α) := .throw nofun

omit [Tolerance] [Exactness] in
/-- A question does not give up. -/
theorem finishes_of_unanswered {α : Type} {x : Calc α} (h : x.FailsAs t.Unanswered) :
    Finishes x := by
  refine h.mono ?_
  rintro e (rfl | ⟨-, rfl⟩)
  · nofun
  · nofun

omit [Exactness] in
/-- Whether a tree is zero can be asked, and so it is with the questions below. -/
theorem isZero_finishes (t : Expr) : Finishes t.isZero := finishes_of_unanswered isZero_failsAs

omit [Exactness] in
theorem isOne_finishes (t : Expr) : Finishes t.isOne := finishes_of_unanswered isOne_failsAs

omit [Exactness] in
theorem isNegOne_finishes (t : Expr) : Finishes t.isNegOne :=
  finishes_of_unanswered isNegOne_failsAs

omit [Exactness] in
theorem isNumberZero_finishes (t : Expr) : Finishes t.isNumberZero :=
  finishes_of_unanswered isNumberZero_failsAs

omit [Exactness] in
/-- The sign is asked along the left operands. -/
theorem sgn_finishes (t : Expr) : Finishes t.sgn := by
  induction t with
  | absent => exact finishes_noOperand
  | leaf a => exact finishes_of_tooWide Leaf.sgn_failsAs
  | node op l r ihl ihr =>
    unfold sgn
    split
    next chain => exact ihl
    next => exact .pure _

omit [Exactness] in
theorem same_finishes (t u : Expr) : Finishes (t.same u) := finishes_of_tooWide same_failsAs

/-- Leaf algebra does not give up. -/
theorem mergeLeaves_finishes : Finishes (mergeLeaves op l r) := by
  unfold mergeLeaves
  split
  next a b =>
    refine .bind (finishes_of_numeric Leaf.combine?_failsAs) fun o => ?_
    cases o with
    | some c => exact .pure _
    | none => exact .pure _
  next => exact .pure _

/-- A quotient by zero asks for a number or for a sign. -/
theorem overZero_finishes (t : Expr) : Finishes (overZero t) := by
  unfold overZero
  split
  next => exact .bind (finishes_of_numeric Number.div_failsAs) fun _ => .pure _
  next => exact .bind (sgn_finishes t) fun _ => .pure _

/-- The identities of powers call no other rule. -/
theorem raise_finishes : Finishes (raise l r) := by
  have positive : Finishes (Calc.both l.isNumberZero r.isPositiveNumber) :=
    .both (isNumberZero_finishes l) (finishes_of_tooWide isPositiveNumber_failsAs)
  unfold raise
  refine .ask (isNumberZero_finishes r) (.pure _) ?_
  refine .ask (isOne_finishes r) (.pure _) ?_
  refine .ask (isOne_finishes l) (.pure _) ?_
  exact .ask positive (.pure _) mergeLeaves_finishes

variable {rec : Combiner} {level : Level} {new : Leaf} {inverted : Bool}

/-- The combinations that the negation of a tree calls are no wider than the tree. If it has no lead
they may be wider, by two at most, and then a minus one stands in front. -/
def Negating (t : Expr) (op : Binary) (l r : Expr) : Prop :=
  width l r ≤ t.size ∨ t.lead = none ∧ (width l r ≤ t.size + 1 ∨
    width l r = t.size + 2 ∧ l.lead.isSome = true ∧
      (r.size < t.size ∨ r.size = t.size ∧ op = .mul))

/-- Negation finishes if the calls on what is negated do. -/
theorem negateWith_finishes (hs : Shrinks rec) (hk : Keeps rec)
    (h : ∀ op l r, Negating t op l r → Finishes (rec op l r)) : Finishes (negateWith rec t) := by
  -- what a part of a chain calls is called by the chain, and then comes the node itself
  have part {op : Binary} {l r : Expr} (lead : (binary op l r).lead = l.lead) {op' : Binary}
      {l' r' : Expr} (call : Negating l op' l' r') : Negating (binary op l r) op' l' r' := by
    unfold Negating at *
    rw [size_node, lead]
    rcases call with small | ⟨none, wide⟩
    · exact .inl (by omega)
    · exact .inr ⟨none, .inl (by omega)⟩
  have root {op op' : Binary} {l l' r : Expr} (lead : (binary op l r).lead = l.lead)
      (hl : negateWith rec l = .ok l') : Negating (binary op l r) op' l' r := by
    have size := negateWith_size hs l' hl
    have turned := negateWith_turned hs hk l' hl
    unfold Negating width
    rw [size_node, lead]
    cases hlead : l.lead with
    | some a =>
      have := size.2 (by rw [hlead]; rfl)
      exact .inl (by omega)
    | none =>
      by_cases grown : l'.size = l.size + 2
      · exact .inr ⟨rfl, .inr ⟨by omega, (turned.grown grown).1, .inl (by omega)⟩⟩
      · exact .inr ⟨rfl, .inl (by omega)⟩
  fun_induction negateWith rec t with
  | case1 => exact finishes_noOperand
  | case2 a => exact .map (finishes_of_numeric Leaf.neg_failsAs)
  | case3 l r ih | case4 l r ih | case5 l r ih =>
    refine .bind_ok (ih fun _ _ _ call => ?_) fun l' hl => ?_
    · exact h _ _ _ (part rfl call)
    · exact h _ _ _ (root rfl hl)
  | case6 l r =>
    refine h _ _ _ (.inl ?_)
    unfold width
    rw [size_node]
    omega
  | case7 t absent leaf mul div add sub =>
    refine h _ _ _ (.inr ⟨lead_eq_none leaf mul div add sub, .inr ⟨?_, rfl, .inr ⟨rfl, rfl⟩⟩⟩)
    have one : negOne.size = 1 := rfl
    unfold width
    omega

/-- All combinations of lower rank than the one that is given do not give up. -/
def FinishesBelow (rec : Combiner) (op : Binary) (l r : Expr) : Prop :=
  ∀ op' l' r', rank op' l' r' < rank op l r → Finishes (rec op' l' r')

theorem motion_sum (hop : op.level = some .sum) : motion op r = 2 + r.sway := by
  cases op <;> first | rfl | cases hop

/-- Zero minus a tree is its opposite, and the calls for that are smaller, or a minus one takes the
place of the zero. -/
theorem subtractFromZero_finishes (hs : Shrinks rec) (hk : Keeps rec) (hop : op.level = some .sum)
    (zero : l.isNumberZero = .ok true) (h : FinishesBelow rec op l r) :
    Finishes (negateWith rec r) := by
  have size := size_of_isNumberZero zero
  have lack : l.lack = 0 := by
    cases l with
    | leaf a => rfl
    | _ => cases zero
  have wide : width l r = r.size + 2 := by
    unfold width
    omega
  refine negateWith_finishes hs hk fun op' l' r' call => h _ _ _ ?_
  -- every call below is narrower, or as wide with less on the right
  rcases call with small | ⟨-, small | ⟨full, lead, right⟩⟩
  · exact rank_lt_of_width (by omega)
  · exact rank_lt_of_width (by omega)
  · -- a minus one takes the place of the zero
    have lower : l'.lack ≤ l.lack := by rw [lack_eq_zero lead]; exact Nat.zero_le _
    rcases right with right | ⟨right, rfl⟩
    · exact rank_lt_of_right (full.trans wide.symm) lower right
    · refine rank_lt_of_motion (full.trans wide.symm) lower right ?_
      rw [motion_sum hop]
      show 1 < 2 + r.sway
      omega

/-- Twice a tree is smaller than the sum with itself, unless the tree is a leaf. -/
theorem double_finishes (same : r.same l = .ok true) (right : 0 < r.size)
    (h : FinishesBelow rec .add l r) : Finishes (rec .mul two l) := by
  refine h _ _ _ ?_
  have size := size_of_same same
  have one : two.size = 1 := rfl
  by_cases leaf : r.size = 1
  · -- twice a leaf is as large as the sum, but no sign moves in a product
    refine rank_lt_of_motion ?_ (Nat.zero_le _) size.symm ?_
    · unfold width
      omega
    · show 1 < 2 + r.sway
      omega
  · refine rank_lt_of_width ?_
    unfold width
    omega

/-- After a sign has moved out of the right operand, there is less that can move. -/
theorem moveSign_finishes (hs : Shrinks rec) (hk : Keeps rec) (hop : op.level = some .sum)
    (turn : 0 < r.turns) (h : FinishesBelow rec op l r) :
    Finishes (negateWith rec r >>= fun r' => rec op.flip l r') := by
  have flip : op.flip.level = some .sum := by cases op <;> cases hop <;> rfl
  have lead := isSome_lead_of_turns turn
  refine .bind_ok (negateWith_finishes hs hk fun op' l' r' call => h _ _ _ ?inside)
    fun r' hr' => h _ _ _ ?outside
  case inside =>
    -- the sign moves inside the right operand, which is narrower than the whole
    rcases call with small | ⟨none, -⟩
    · refine rank_lt_of_width (Nat.lt_of_le_of_lt small ?_)
      unfold width
      omega
    · rw [none] at lead
      cases lead
  case outside =>
    have size := (negateWith_size hs r' hr').2 lead
    by_cases full : r'.size = r.size
    · -- the sign has moved, and there is less that can move on
      have turned := (negateWith_turned hs hk r' hr').turned turn full
      refine rank_lt_of_motion ?_ (Nat.le_refl _) full ?_
      · unfold width
        omega
      · rw [motion_sum hop, motion_sum flip]
        omega
    · refine rank_lt_of_width ?_
      unfold width
      omega

/-- The identities of sums call for an opposite, a double, or a sum where a sign has moved. -/
theorem atomicSum_finishes (hs : Shrinks rec) (hk : Keeps rec) (hop : op = .add ∨ op = .sub)
    (h : FinishesBelow rec op l r) : Finishes (atomicSum rec op l r) := by
  have hlevel : op.level = some .sum := by rcases hop with rfl | rfl <;> rfl
  unfold atomicSum
  -- every branch is over at once or calls `rec` below the rank
  refine .answered (isNumberZero_finishes r) (fun _ => .pure _) fun right => ?_
  refine .answered (isNumberZero_finishes l) (fun zero => ?leftZero) fun _ => ?_
  case leftZero =>
    split
    next add => exact .pure _
    next sub => exact subtractFromZero_finishes hs hk hlevel zero h
  refine .answered (same_finishes r l) (fun same => ?same) fun _ => ?_
  case same =>
    split
    next add =>
      subst add
      exact double_finishes same (size_pos_of_isNumberZero right) h
    next sub => exact .pure _
  refine .bind_ok (sgn_finishes r) fun sign hsign => ?_
  split
  next move =>
    rw [Bool.and_eq_true, decide_eq_true_iff] at move
    exact moveSign_finishes hs hk hlevel ((turns_pos_iff hsign).mpr move.1) h
  next => exact mergeLeaves_finishes

/-- The square of a tree is smaller than the product with itself, unless the tree is a leaf. -/
theorem square_finishes (right : 0 < r.size) (h : FinishesBelow rec .mul l r) :
    Finishes (rec .pow l two) := by
  refine h _ _ _ ?_
  have one : two.size = 1 := rfl
  by_cases size : r.size = 1
  · -- the square of a leaf is as large as the product, but a power calls no other rule
    refine rank_lt_of_motion ?_ (Nat.le_refl _) size.symm Nat.one_pos
    unfold width
    omega
  · refine rank_lt_of_width ?_
    unfold width
    omega

/-- The identities of products call for a square only. -/
theorem atomicProduct_finishes (h : FinishesBelow rec .mul l r) :
    Finishes (atomicProduct rec l r) := by
  unfold atomicProduct
  refine .ask (isZero_finishes l) (.pure _) ?_
  refine .answered (isZero_finishes r) (fun _ => .pure _) fun right => ?_
  refine .ask (isOne_finishes l) (.pure _) (.ask (isOne_finishes r) (.pure _) ?_)
  refine .ask (same_finishes r l) ?same ?differ
  case same =>
    split
    next => exact mergeLeaves_finishes
    next => exact square_finishes (size_pos_of_isZero right) h
  case differ =>
    split
    next swap => exact .pure _
    next => exact mergeLeaves_finishes

/-- A divisor of minus one leaves room for the factor of minus one, or it makes a lead. -/
theorem divideByNegOne_finishes (hs : Shrinks rec) (hk : Keeps rec) (minus : r.isNegOne = .ok true)
    (h : FinishesBelow rec .div l r) : Finishes (negateWith rec l) := by
  refine negateWith_finishes hs hk fun op' l' r' call => h _ _ _ ?_
  have pos := size_pos_of_isNegOne minus
  -- every call is narrower than the quotient, unless a minus one is put in front
  rcases call with small | ⟨none, small | ⟨full, lead, -⟩⟩
  · refine rank_lt_of_width (Nat.lt_of_le_of_lt small ?_)
    unfold width
    omega
  · refine rank_lt_of_width (Nat.lt_of_le_of_lt small ?_)
    unfold width
    omega
  · -- a minus one stands in front now
    by_cases one : r.size = 1
    · refine rank_lt_of_lack ?_ ?_
      · rw [full]
        unfold width
        omega
      · rw [lack_eq_zero lead, lack_eq_one none]
        exact Nat.one_pos
    · refine rank_lt_of_width ?_
      rw [full]
      unfold width
      omega

/-- The identities of quotients only negate. -/
theorem atomicQuotient_finishes (hs : Shrinks rec) (hk : Keeps rec)
    (h : FinishesBelow rec .div l r) : Finishes (atomicQuotient rec l r) := by
  unfold atomicQuotient
  refine .ask (isZero_finishes r) ?overZero ?_
  case overZero =>
    refine .ask (isZero_finishes l) ?zero (overZero_finishes l)
    exact finishes_of_numeric (.undefined _)
  refine .ask (isZero_finishes l) (.pure _) (.ask (isOne_finishes r) (.pure _) ?_)
  refine .answered (isNegOne_finishes r) (fun minus => ?opposite) fun _ => ?_
  case opposite => exact divideByNegOne_finishes hs hk minus h
  exact .ask (same_finishes r l) (.pure _) mergeLeaves_finishes

/-- The identities at the root finish if the combinations of lower rank do. -/
theorem atomicWith_finishes (hs : Shrinks rec) (hk : Keeps rec) (h : FinishesBelow rec op l r) :
    Finishes (atomicWith rec op l r) := by
  cases op with
  | add => exact atomicSum_finishes hs hk (.inl rfl) h
  | sub => exact atomicSum_finishes hs hk (.inr rfl) h
  | mul => exact atomicProduct_finishes h
  | div => exact atomicQuotient_finishes hs hk h
  | pow => exact raise_finishes
  | equals => exact .pure _

/-- The nodes on the path to a leaf are no larger than the chain, whatever the leaf becomes. -/
theorem spliceWith_finishes (hs : Shrinks rec) (hk : Keeps rec)
    (h : ∀ op l r, width l r ≤ t.size → FinishesBelow rec op l r) :
    Finishes (spliceWith rec level new inverted t) := by
  -- the root is built again over what came out, which is no wider than the term was
  fun_induction spliceWith rec level new inverted t with
  | case1 => exact finishes_noOperand
  | case2 inverted old => exact .bind (finishes_of_numeric Leaf.mergeInto?_failsAs) fun _ => .pure _
  | case3 inverted op l r hop ihl ihr =>
    rw [size_node] at h
    refine .bind_ok (ihl fun op' l' r' small => h _ _ _ (by omega)) fun o ho => ?_
    cases o with
    | some l' =>
      refine .map (atomicWith_finishes hs hk (h _ _ _ ?_))
      have := spliceWith_size hs _ ho l' rfl
      unfold width
      omega
    | none =>
      refine .bind_ok (ihr fun op' l' r' small => h _ _ _ (by omega)) fun o ho => ?_
      cases o with
      | some r' =>
        refine .map (atomicWith_finishes hs hk (h _ _ _ ?_))
        have := spliceWith_size hs _ ho r' rfl
        unfold width
        omega
      | none => exact .pure _
  | case4 => exact .pure _
  | case5 => exact .pure _

/-- In a chain on the right either the node gets smaller, or its right operand does. -/
theorem reassociate_finishes (hs : Shrinks rec) (hk : Keeps rec) (hop : op.level = some level)
    (h : FinishesBelow rec op l r) : Finishes (reassociate rec level op l r) := by
  unfold reassociate
  split
  next inner a b =>
    split
    next =>
      refine .bind_ok (h _ _ _ (rank_lt_of_width ?first)) fun t ht => h _ _ _ ?second
      case first =>
        unfold width
        rw [size_node]
        omega
      case second =>
        -- what the first part makes is the left operand of the second one
        have size := hs op l a t ht
        by_cases full : t.size = 1 + l.size + a.size
        · refine rank_lt_of_right ?_ (lack_le ((hk op l a t ht full).lead (by rw [hop]; rfl))) ?_
          · unfold width
            rw [size_node]
            omega
          · rw [size_node]
            omega
        · refine rank_lt_of_width ?_
          unfold width
          rw [size_node]
          omega
    next => exact atomicWith_finishes hs hk h
  next => exact atomicWith_finishes hs hk h

/-- No operand of a chain is as large as the node, and so splicing finishes. -/
theorem chainWith_finishes (hs : Shrinks rec) (hk : Keeps rec) (hop : op.level = some level)
    (h : FinishesBelow rec op l r) : Finishes (chainWith rec level op l r) := by
  have operand (t : Expr) (small : t.size ≤ l.size + r.size) (op' : Binary) (l' r' : Expr)
      (part : width l' r' ≤ t.size) : FinishesBelow rec op' l' r' := by
    intro op'' l'' r'' lower
    refine h _ _ _ (Nat.lt_trans lower (rank_lt_of_width (Nat.lt_of_le_of_lt part ?_)))
    unfold width
    omega
  have chain (t : Expr) (small : t.size ≤ l.size + r.size) {new : Leaf} {inverted : Bool} :
      Ends (spliceWith rec level new inverted t) (· ≠ .noOperation)
        fun o => ∀ u, o = some u → True :=
    ⟨spliceWith_finishes hs hk (operand t small), fun _ _ _ _ => True.intro⟩
  refine (chainWith_ends (Q := fun _ => True) ?right ?left ?apart).fails
  case right => exact fun _ _ => chain l (Nat.le_add_right _ _)
  case left => exact fun _ _ => chain r (Nat.le_add_left _ _)
  case apart => exact fun _ => .of_failsAs (reassociate_finishes hs hk hop h)

/-- A round does not give up if the combinations of lower rank that it calls do not. -/
theorem combineStep_finishes (hs : Shrinks rec) (hk : Keeps rec) (h : FinishesBelow rec op l r) :
    Finishes (combineStep rec op l r) := by
  have operand (t : Expr) : Finishes t.present := by
    cases t with
    | absent => exact finishes_noOperand
    | leaf => exact .pure _
    | node => exact .pure _
  unfold combineStep
  split
  next equation => exact .pure _
  next =>
    refine .bind_ok (operand l) fun l' hl => .bind_ok (operand r) fun r' hr => ?_
    rw [eq_of_present hl, eq_of_present hr]
    unfold combineOperands
    split
    -- two leaves meet at once, while a chain is first spliced and taken apart
    next level hop =>
      split
      next leaves => exact atomicWith_finishes hs hk h
      next => exact chainWith_finishes hs hk hop h
    next none => exact atomicWith_finishes hs hk h

/-! ## Rounds -/

/-- As many rounds as the rank do not give up. -/
theorem combineFrom_finishes {n : ℕ} (h : rank op l r < n) :
    Finishes (combineFrom giveUp n op l r) := by
  induction n generalizing op l r with
  | zero => exact absurd h (Nat.not_lt_zero _)
  | succ n ih =>
    have shrinks : Shrinks (combineFrom giveUp n) := combineFrom_size giveUp_size n
    refine combineStep_finishes shrinks (combineFrom_keeps n) fun op' l' r' lower => ?_
    exact ih (Nat.lt_of_lt_of_le lower (Nat.le_of_lt_succ h))

/-- What is at the bottom of the rounds is not reached. -/
theorem combine_eq (op : Binary) (l r : Expr) :
    combine op l r = combineFrom giveUp (combineDepth l r) op l r :=
  ((combineFrom_follows nested (combineDepth l r) op l r).eq
    (combineFrom_finishes (rank_lt_combineDepth op l r))).symm

/-- Combining does not make larger trees than the node of the operands. -/
theorem combine_size : Shrinks combine := by
  intro op l r
  rw [combine_eq]
  exact combineFrom_size giveUp_size _ op l r

/-- Where combining keeps all leaves and operators, it keeps the lead. -/
theorem combine_keeps : Keeps combine := by
  intro op l r
  rw [combine_eq]
  exact combineFrom_keeps _ op l r

/-- Combining does not give up. -/
theorem combine_finishes (op : Binary) (l r : Expr) : Finishes (combine op l r) := by
  rw [combine_eq]
  exact combineFrom_finishes (rank_lt_combineDepth op l r)

/-! ## Invariants -/

namespace Invariant

variable {F : Failure → Prop} {A : Leaf → Prop} {N : Binary → Expr → Expr → Prop}
  {P : Expr → Prop}

/-- Combining keeps every invariant. The rounds that give up have nothing at the bottom that the
property would have to hold of, and they do not give up. -/
theorem combine_ends (h : Invariant F A N P) (equation : op = .equals → P (binary op l r))
    (hl : P l) (hr : P r) : Ends (combine op l r) F P := by
  by_cases hop : op = .equals
  · subst hop
    exact combine_equals l r ▸ .pure (equation rfl)
  · have wider : Invariant (fun e => F e ∨ e = .noOperation) A N P :=
      { h with
        arithmetic := fun e numeric => .inl (h.arithmetic e numeric)
        absent := fun ht => .inl (h.absent ht) }
    have bottom : Preserves (fun e => F e ∨ e = .noOperation) P giveUp :=
      fun _ _ _ _ => .throw (.inr rfl)
    have ends := wider.combineFrom_ends bottom hop hl hr
    rw [← combine_eq] at ends
    exact ⟨fun e he => (ends.fails e he).resolve_right (combine_finishes op l r e he),
      ends.returns⟩

theorem negate_ends (h : Invariant F A N P) (ht : P t) : Ends (negate t) F P :=
  h.negateWith_ends (fun hop hl hr _ => h.combine_ends (fun equation => absurd equation hop) hl hr)
    ht

end Invariant

end Expr

end SymbolicAlgebra
