import SymbolicAlgebra.Proofs.Combine.Size
import SymbolicAlgebra.Proofs.Signs.Number

/-!
# Combinations of full size

Combining that does not make a tree smaller than the node of the operands can do little: it nests
chains to the left, moves signs, and moves a number to the front. This file says what such a
combination keeps (`Kept`), as a measure for the calls that the rules make of each other.

Signs are what needs care. To negate a tree whose lead is negative may give a tree whose lead is
negative again, as in the difference of two negative operands, and then the sign moves once more.
What decreases is the *sway* of the tree. It counts the nodes that combining would not leave as
they are (`loose`), since such a node can change what stands in front when it is combined again,
and how often the sign of the lead can turn (`Leaf.turns`). Combining never makes a loose node, so
each time that a sign moves either a loose node is used up or the lead has turned for good
(`negateWith_turned`).
-/

namespace SymbolicAlgebra

variable [Tolerance]

namespace Leaf

/-- Whether the sign is negative. -/
def isNegative (a : Leaf) : Bool :=
  match a.sgn with
  | .ok n => n < 0
  | .error _ => false

theorem isNegative_of_sgn {a : Leaf} {n : ℤ} (h : a.sgn = .ok n) (negative : n < 0) :
    a.isNegative = true := by
  rw [isNegative, h]
  exact decide_eq_true negative

/-- A negative leaf has a negative sign. -/
theorem sgn_of_isNegative {a : Leaf} (h : a.isNegative = true) : ∃ n, a.sgn = .ok n ∧ n < 0 := by
  unfold isNegative at h
  split at h
  next n hn => exact ⟨n, hn, of_decide_eq_true h⟩
  next => cases h

variable [Exactness]

/-- How often the sign can turn before it stays: twice if the opposite of a negative leaf is
negative or the number zero, as it may be of a leaf that is given. -/
def turns (a : Leaf) : ℕ :=
  if a.isNegative then
    match a.neg with
    | .ok b => if b.isNegative || b.isNumberZero = .ok true then 2 else 1
    | .error _ => 1
  else 0

/-- A leaf turns twice at most. -/
theorem turns_le_two (a : Leaf) : a.turns ≤ 2 := by
  unfold turns
  split
  · split
    · split <;> omega
    · omega
  · omega

theorem turns_eq_zero {a : Leaf} (h : a.isNegative = false) : a.turns = 0 :=
  if_neg (Bool.eq_false_iff.mp h)

/-- A leaf turns just if it is negative. -/
theorem turns_pos {a : Leaf} : 0 < a.turns ↔ a.isNegative = true := by
  unfold turns
  split
  next h =>
    refine ⟨fun _ => h, fun _ => ?_⟩
    split
    · split <;> omega
    · omega
  next h => exact ⟨fun pos => absurd pos (Nat.lt_irrefl 0), fun pos => absurd pos h⟩

/-- The opposite of a negative leaf can turn less often. It is zero only if the leaf can turn
twice. -/
theorem neg_turns {a : Leaf} (h : 0 < a.turns) :
    Returns a.neg fun b => b.turns < a.turns ∧ (b.isNumberZero = .ok true → a.turns = 2) := by
  -- negating gives a settled leaf, so at most one more turn is left
  intro b hb
  have negative := turns_pos.mp h
  have turns : a.turns = if b.isNegative || b.isNumberZero = .ok true then 2 else 1 := by
    rw [Leaf.turns, if_pos negative, hb]
  by_cases again : b.isNegative = true
  · -- what is negative though it has been negated is settled
    have two : a.turns = 2 := by rw [turns, again]; rfl
    obtain ⟨n, hn, hneg⟩ := sgn_of_isNegative again
    have settled := neg_of_sgn (a.neg_isSettled b hb) hn hneg
    have once : b.turns = 1 := by
      rw [Leaf.turns, if_pos again]
      split
      next c hc =>
        obtain ⟨positive, nonzero⟩ := settled c hc
        have notNegative : c.isNegative = false := by
          by_contra h
          obtain ⟨m, hm, hneg⟩ := sgn_of_isNegative (Bool.eq_true_of_not_eq_false h)
          exact positive m hm hneg
        rw [notNegative, nonzero]
        rfl
      next => rfl
    exact ⟨by omega, fun _ => two⟩
  · rw [turns_eq_zero (Bool.eq_false_iff.mpr again)]
    refine ⟨h, fun zero => ?_⟩
    rw [turns, zero, decide_eq_true rfl, Bool.or_true, if_pos rfl]

end Leaf

namespace Expr

/-- The leaf at the front of chains of products. -/
def front : Expr → Option Leaf
  | leaf a => some a
  | binary op l _ => if op.level = some .product then l.front else none
  | _ => none

omit [Tolerance] in
theorem front_binary {op : Binary} (h : op.level = some .product) (l r : Expr) :
    (binary op l r).front = l.front := by
  rw [front, if_pos h]

omit [Tolerance] in
/-- The leaf in front leads. -/
theorem lead_of_front {t : Expr} {a : Leaf} (h : t.front = some a) : t.lead = some a := by
  induction t with
  | absent => cases h
  | leaf b => exact h
  | node op l r ihl ihr =>
    cases op with
    | binary op =>
      unfold front at h
      split at h
      next hop =>
        rw [lead_binary hop]
        exact ihl h
      next => cases h
    | _ => cases h

variable [Exactness]

/-- How often the sign of the lead can turn. -/
def turns (t : Expr) : ℕ :=
  match t.lead with
  | some a => a.turns
  | none => 0

theorem turns_of_lead {t u : Expr} (h : t.lead = u.lead) : t.turns = u.turns := by
  unfold turns
  rw [h]

/-- A tree turns twice at most. -/
theorem turns_le_two (t : Expr) : t.turns ≤ 2 := by
  unfold turns
  split
  · exact Leaf.turns_le_two _
  · exact Nat.zero_le 2

/-- A tree that turns has a lead. -/
theorem isSome_lead_of_turns {t : Expr} (h : 0 < t.turns) : t.lead.isSome = true := by
  unfold turns at h
  split at h
  next a ha => rw [ha]; rfl
  next => exact absurd h (Nat.lt_irrefl 0)

omit [Exactness] in
/-- The sign of a tree with a lead is that of the lead. -/
theorem sgn_of_lead {t : Expr} {a : Leaf} (h : t.lead = some a) : t.sgn = a.sgn := by
  induction t with
  | absent => cases h
  | leaf b =>
    cases h
    rfl
  | node op l r ihl ihr =>
    cases op with
    | binary op =>
      -- the sign of a sum or a product is the one of its leftmost operand
      have left : l.isAbsent = false := by
        cases l with
        | absent => cases op <;> cases h
        | leaf => rfl
        | node => rfl
      have sum : (binary op l r).sgn =
          if op.level == some .product || (op.level == some .sum && !l.isAbsent) then l.sgn
          else pure 1 := rfl
      rw [sum, left]
      cases op with
      | add | sub | mul | div => exact ihl h
      | equals | pow => cases h
    | _ => cases h

/-- What is negative can turn, and what can turn is negative. -/
theorem turns_pos_iff {t : Expr} {n : ℤ} (h : t.sgn = .ok n) : 0 < t.turns ↔ n < 0 := by
  constructor
  · intro turn
    obtain ⟨a, lead⟩ := Option.isSome_iff_exists.mp (isSome_lead_of_turns turn)
    rw [turns, lead] at turn
    obtain ⟨m, hm, negative⟩ := Leaf.sgn_of_isNegative (Leaf.turns_pos.mp turn)
    rw [sgn_of_lead lead, hm] at h
    cases h
    exact negative
  · intro negative
    obtain ⟨a, lead, ha⟩ := lead_of_sgn h negative
    rw [turns, lead]
    exact Leaf.turns_pos.mpr (Leaf.isNegative_of_sgn ha negative)

omit [Tolerance] [Exactness] in
/-- Only chains and leaves have a lead. -/
theorem inChain_of_lead {t : Expr} (h : t.lead.isSome = true) :
    t.isLeaf = true ∨ t.isProduct = true ∨ t.inChain .sum = true := by
  cases t with
  | absent => cases h
  | leaf a => exact .inl rfl
  | node op l r =>
    cases op with
    | binary op =>
      cases op with
      | add | sub => exact .inr (.inr rfl)
      | mul | div => exact .inr (.inl rfl)
      | equals | pow => cases h
    | _ => cases h

/-- Whether combining the node again may change what stands in front of it: a sign in the right
operand of a sum, a number or a chain in that of a product. -/
def loose : Op → Expr → Expr → Bool
  | .binary .add, _, r | .binary .sub, _, r => 0 < r.turns
  | .binary .mul, l, r => r.isNumber || (r.isProduct && l.front.isNone)
  | .binary .div, l, r => r.isNegOne = .ok true || (r.isProduct && l.front.isNone)
  | _, _, _ => false

/-- In front of the same divisor or factor a node is loose if it is so behind another front. -/
theorem loose_of_front {op : Binary} {l l' r : Expr} (hop : op.level = some .product)
    (front : l.front.isSome = true → l'.front.isSome = true)
    (h : loose (.binary op) l' r = true) : loose (.binary op) l r = true := by
  -- without a front in the new operand there was none in the old one
  have none : l'.front.isNone = true → l.front.isNone = true := by
    intro h'
    rw [Option.isNone_iff_eq_none] at h' ⊢
    rw [h'] at front
    cases hl : l.front with
    | none => rfl
    | some a => rw [hl] at front; cases front rfl
  cases op with
  | mul =>
    rw [loose, Bool.or_eq_true, Bool.and_eq_true] at h ⊢
    exact h.imp_right (And.imp_right none)
  | div =>
    rw [loose, Bool.or_eq_true, Bool.and_eq_true] at h ⊢
    exact h.imp_right (And.imp_right none)
  | _ => cases hop

/-- The number of loose nodes. -/
def slack : Expr → ℕ
  | node op l r => l.slack + r.slack + (loose op l r).toNat
  | _ => 0

/-- A node has the slack of its operands, and one more if it is loose. -/
theorem slack_node (op : Op) (l r : Expr) :
    (node op l r).slack = l.slack + r.slack + (loose op l r).toNat := rfl

/-- A bound on how often a sign can move out of the tree. -/
def sway (t : Expr) : ℕ := 3 * t.slack + t.turns

omit [Exactness] in
/-- Only a leaf is the number zero. -/
theorem size_of_isNumberZero {t : Expr} (h : t.isNumberZero = .ok true) : t.size = 1 := by
  cases t with
  | absent => cases h
  | leaf a => rfl
  | node op l r => cases h

/-! ## What is kept -/

/-- What a combination of full size keeps of its operands. -/
structure Kept (op : Binary) (l r t : Expr) : Prop where
  /-- A lead stays in front. -/
  lead : op.level.isSome = true → l.lead.isSome = true → t.lead.isSome = true
  /-- The node is not loose. -/
  slack : t.slack ≤ l.slack + r.slack
  /-- The front of a product is that of its left operand. -/
  front : op.level = some .product → ∀ a, l.front = some a → t.front = some a
  /-- The sign of a sum is that of its left operand. -/
  sum : op.level = some .sum → l.isNumberZero ≠ .ok true → t.turns ≤ l.turns
  /-- The sign of a product is that of its left operand, unless the node was loose. -/
  product : op.level = some .product → loose (.binary op) l r = false → t.turns ≤ l.turns
  /-- What is subtracted from zero has no lead, and gets a minus one for it. -/
  zero : op = .sub → l.isNumberZero = .ok true → r.lead = none ∧ t.sway ≤ 3 * r.slack + 1
  /-- A power is positive. -/
  power : op = .pow → t.turns = 0

/-- If the result has full size, it keeps all that. -/
def Full (op : Binary) (l r t : Expr) : Prop := t.size = 1 + l.size + r.size → Kept op l r t

/-- A combination that keeps all that when its result has full size. -/
def Keeps (rec : Combiner) : Prop := ∀ op l r, Returns (rec op l r) (Full op l r)

variable {rec : Combiner} {op : Binary} {level : Level} {l r t : Expr}

/-- Of a sum or difference nothing is to be shown about fronts and powers. -/
theorem Kept.ofSum (hop : op.level = some .sum)
    (lead : l.lead.isSome = true → t.lead.isSome = true) (slack : t.slack ≤ l.slack + r.slack)
    (sum : l.isNumberZero ≠ .ok true → t.turns ≤ l.turns)
    (zero : op = .sub → l.isNumberZero = .ok true → r.lead = none ∧ t.sway ≤ 3 * r.slack + 1) :
    Kept op l r t where
  lead _ := lead
  slack := slack
  front product := by rw [hop] at product; cases product
  sum _ := sum
  product product := by rw [hop] at product; cases product
  zero := zero
  power power := by rw [power] at hop; cases hop

/-- Of a product or quotient nothing is to be shown about zeros and powers. -/
theorem Kept.ofProduct (hop : op.level = some .product)
    (lead : l.lead.isSome = true → t.lead.isSome = true) (slack : t.slack ≤ l.slack + r.slack)
    (front : ∀ a, l.front = some a → t.front = some a)
    (product : loose (.binary op) l r = false → t.turns ≤ l.turns) : Kept op l r t where
  lead _ := lead
  slack := slack
  front _ := front
  sum sum := by rw [hop] at sum; cases sum
  product _ := product
  zero sub := by rw [sub] at hop; cases hop
  power power := by rw [power] at hop; cases hop

/-- A node that is not loose keeps all that. -/
theorem Kept.plain (tight : loose (.binary op) l r = false)
    (zero : op = .sub → l.isNumberZero ≠ .ok true) : Kept op l r (binary op l r) where
  lead hop hl := by
    obtain ⟨level, hop⟩ := Option.isSome_iff_exists.mp hop
    rw [lead_binary hop]
    exact hl
  slack := by rw [slack_node, tight]; exact Nat.le_refl _
  front hop a ha := by rw [front_binary hop]; exact ha
  sum hop _ := Nat.le_of_eq (turns_of_lead (lead_binary hop l r))
  product hop _ := Nat.le_of_eq (turns_of_lead (lead_binary hop l r))
  zero hop hl := absurd hl (zero hop)
  power hop := by subst hop; rfl

/-! ## Negation -/

/-- What negation does to signs. -/
structure Turned (t u : Expr) : Prop where
  /-- If the tree grows, it has got a minus one in front. -/
  grown : u.size = t.size + 2 →
    u.lead.isSome = true ∧ u.slack ≤ t.slack ∧ u.sway ≤ 3 * t.slack + 1
  /-- If the sign of a lead turns and the tree stays as large, it can turn less often. -/
  turned : 0 < t.turns → u.size = t.size →
    u.slack ≤ t.slack ∧ u.sway < t.sway ∧ (t.front.isSome = true → u.front.isSome = true)
  /-- It is zero only if it could turn twice. -/
  zero : 0 < t.turns → u.size = t.size → u.isNumberZero = .ok true → t.turns = 2

/-- What negation does to a leaf: it stays a leaf, and a negative one turns less often. -/
theorem turned_leaf (a : Leaf) : Returns a.neg fun b => Turned (leaf a) (leaf b) := by
  intro b hb
  constructor
  · intro grown
    cases grown
  · intro turn _
    have less := (Leaf.neg_turns turn b hb).1
    refine ⟨Nat.le_refl 0, ?_, fun _ => rfl⟩
    show 3 * 0 + b.turns < 3 * 0 + a.turns
    omega
  · exact fun turn _ => (Leaf.neg_turns turn b hb).2

/-- A product with another left operand uses up a loose node, or has the sign of that operand. -/
theorem Kept.bound {l' u : Expr} (kept : Kept op l' r u) (hop : op.level = some .product)
    (slack : l'.slack ≤ l.slack) {n : ℕ} (sway : l'.sway ≤ 3 * l.slack + n)
    (front : l.front.isSome = true → l'.front.isSome = true) :
    u.slack ≤ (binary op l r).slack ∧ u.sway ≤ 3 * (binary op l r).slack + n := by
  have keeps := kept.slack
  have two := u.turns_le_two
  unfold Expr.sway at sway ⊢
  rw [slack_node]
  -- a loose node has one more slack, which makes up for two turns; otherwise no turn is gained
  cases tight : loose (.binary op) l r with
  | true =>
    rw [Bool.toNat_true]
    omega
  | false =>
    have tight' : loose (.binary op) l' r = false := by
      by_contra h
      rw [loose_of_front hop front (Bool.eq_true_of_not_eq_false h)] at tight
      cases tight
    have := kept.product hop tight'
    rw [Bool.toNat_false]
    omega

omit [Exactness] in
/-- What has the size of a node with a lead is not zero. -/
theorem not_isNumberZero_of_size {u : Expr} (same : u.size = (binary op l r).size)
    (lead : l.lead.isSome = true) : u.isNumberZero ≠ .ok true := by
  intro zero
  have one := size_of_isNumberZero zero
  have pos := size_pos_of_isSome lead
  rw [same, size_node] at one
  omega

/-- What negation does to a product, of whose first factor it is known. -/
theorem turned_product {l' u : Expr} (hop : op.level = some .product) (h : Turned l l')
    (size : l'.size ≤ l.size + 2 ∧ (l.lead.isSome = true → l'.size ≤ l.size))
    (hu : u.size ≤ 1 + l'.size + r.size) (full : Full op l' r u) :
    Turned (binary op l r) u := by
  have turns : (binary op l r).turns = l.turns := turns_of_lead (lead_binary hop l r)
  constructor
  · intro grown
    rw [size_node] at grown
    obtain ⟨lead', slack', sway'⟩ := h.grown (by omega)
    have kept := full (by omega)
    -- behind a front nothing grows
    have front : l.front.isSome = true → l'.front.isSome = true := by
      intro hl
      obtain ⟨a, ha⟩ := Option.isSome_iff_exists.mp hl
      have := size.2 (by rw [lead_of_front ha]; rfl)
      omega
    exact ⟨kept.lead (by rw [hop]; rfl) lead', kept.bound hop slack' sway' front⟩
  · intro turn same
    rw [size_node] at same
    rw [turns] at turn
    have := size.2 (isSome_lead_of_turns turn)
    obtain ⟨slack', sway', front'⟩ := h.turned turn (by omega)
    have kept := full (by omega)
    obtain ⟨hslack, hsway⟩ := kept.bound hop slack' (n := l.turns - 1)
      (by unfold sway at sway' ⊢; omega) front'
    refine ⟨hslack, ?_, fun hl => ?_⟩
    · rw [sway.eq_def (binary op l r), turns]
      omega
    · rw [front_binary hop] at hl
      obtain ⟨a, ha⟩ := Option.isSome_iff_exists.mp (front' hl)
      rw [kept.front hop a ha]
      rfl
  · intro turn same zero
    rw [turns] at turn
    exact absurd zero (not_isNumberZero_of_size same (isSome_lead_of_turns turn))

/-- What negation does to a sum, which becomes a difference. -/
theorem turned_add {l' u : Expr} (h : Turned l l')
    (size : l'.size ≤ l.size + 2 ∧ (l.lead.isSome = true → l'.size ≤ l.size))
    (hu : u.size ≤ 1 + l'.size + r.size) (full : Full .sub l' r u) :
    Turned (binary .add l r) u := by
  have turns : (binary .add l r).turns = l.turns := rfl
  constructor
  · -- the tree grows only with its left operand, which has a minus one in front then
    intro grown
    rw [size_node] at grown
    obtain ⟨lead', slack', sway'⟩ := h.grown (by omega)
    have kept := full (by omega)
    have nonzero : l'.isNumberZero ≠ .ok true := fun zero => by
      have := size_of_isNumberZero zero
      have := size_pos_of_isSome lead'
      omega
    have := kept.sum rfl nonzero
    have := kept.slack
    refine ⟨kept.lead rfl lead', ?_⟩
    unfold sway at sway' ⊢
    rw [slack_node]
    omega
  · -- nor has the left operand changed its size, so it can turn less often
    intro turn same
    rw [size_node] at same
    rw [turns] at turn
    have := size.2 (isSome_lead_of_turns turn)
    obtain ⟨slack', sway', -⟩ := h.turned turn (by omega)
    have kept := full (by omega)
    have := kept.slack
    refine ⟨by rw [slack_node]; omega, ?_, nofun⟩
    by_cases zero : l'.isNumberZero = .ok true
    · -- a minus one takes the place of what could turn twice
      have two := h.zero turn (by omega) zero
      have := (kept.zero rfl zero).2
      rw [sway.eq_def (binary .add l r), turns, slack_node]
      omega
    · have := kept.sum rfl zero
      unfold sway at sway' ⊢
      rw [turns, slack_node]
      omega
  · intro turn same zero
    exact absurd zero (not_isNumberZero_of_size same (isSome_lead_of_turns turn))

/-- The operands of a difference change places. -/
theorem turned_sub {u : Expr} (hu : u.size ≤ 1 + r.size + l.size) (full : Full .sub r l u) :
    Turned (binary .sub l r) u := by
  have turns : (binary .sub l r).turns = l.turns := rfl
  constructor
  · intro grown
    rw [size_node] at grown
    omega
  · intro turn same
    rw [size_node] at same
    rw [turns] at turn
    have kept := full (by omega)
    have := kept.slack
    refine ⟨by rw [slack_node]; omega, ?_, nofun⟩
    by_cases zero : r.isNumberZero = .ok true
    · have lead := isSome_lead_of_turns turn
      rw [(kept.zero rfl zero).1] at lead
      cases lead
    · have right := kept.sum rfl zero
      have two := u.turns_le_two
      unfold sway
      rw [turns, slack_node]
      -- if the right operand is negative too, the node was loose
      cases negative : loose (.binary .sub) l r with
      | true =>
        rw [Bool.toNat_true]
        omega
      | false =>
        have := of_decide_eq_false negative
        rw [Bool.toNat_false]
        omega
  · intro turn same zero
    exact absurd zero (not_isNumberZero_of_size same (isSome_lead_of_turns turn))

/-- What has no lead gets a minus one in front. -/
theorem turned_of_lead_eq_none {u : Expr} (none : t.lead = none) (full : Full .mul negOne t u) :
    Turned t u := by
  have still : ¬0 < t.turns := fun turn => by
    have lead := isSome_lead_of_turns turn
    rw [none] at lead
    cases lead
  constructor
  · -- no leaf is in front, so the minus one of the new factor is
    intro grown
    have one : negOne.size = 1 := rfl
    have kept := full (by omega)
    have front := kept.front rfl _ rfl
    have lead := lead_of_front front
    have turns : u.turns = (Leaf.ofInt (-1)).turns := by rw [turns, lead]
    have once : (Leaf.ofInt (-1)).turns = 1 := rfl
    have slack : negOne.slack = 0 := rfl
    have := kept.slack
    refine ⟨by rw [lead]; rfl, by omega, ?_⟩
    unfold sway
    omega
  · exact fun turn => absurd turn still
  · exact fun turn => absurd turn still

/-- Negation turns signs, or puts a minus one in front. -/
theorem negateWith_turned (hs : Shrinks rec) (h : Keeps rec) :
    Returns (negateWith rec t) (Turned t) := by
  -- along the negation: all but a leaf end in a call of `rec`, which is shrinking and `Full`
  have both (op : Binary) (l r : Expr) := Returns.and (hs op l r) (h op l r)
  fun_induction negateWith rec t with
  | case1 => exact Returns.throw _
  | case2 a => exact Returns.map (turned_leaf a)
  | case3 l r ih =>
    exact Returns.bind (Returns.and ih (negateWith_size hs)) fun l' hl =>
      (both _ _ _).mono fun u hu => turned_product rfl hl.1 hl.2 hu.1 hu.2
  | case4 l r ih =>
    exact Returns.bind (Returns.and ih (negateWith_size hs)) fun l' hl =>
      (both _ _ _).mono fun u hu => turned_product rfl hl.1 hl.2 hu.1 hu.2
  | case5 l r ih =>
    exact Returns.bind (Returns.and ih (negateWith_size hs)) fun l' hl =>
      (both _ _ _).mono fun u hu => turned_add hl.1 hl.2 hu.1 hu.2
  | case6 l r => exact (both _ _ _).mono fun u hu => turned_sub hu.1 hu.2
  | case7 t absent leaf mul div add sub =>
    exact (h _ _ _).mono fun u hu =>
      turned_of_lead_eq_none (lead_eq_none leaf mul div add sub) hu

end Expr

end SymbolicAlgebra
