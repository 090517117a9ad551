import SymbolicAlgebra.Proofs.Combine.Closed
import SymbolicAlgebra.Proofs.Equality

/-!
# What combining keeps

The rules of combination are many, but they treat a property of trees in one way. They take operands
out of nodes and put nodes together again, and a node is put together only after all identities have
been asked about it, so that none of them applies (`ReducedAt`). Thus a property is kept by all of
them if it passes from a node to its operands, and from operands to a node that no identity applies
to; if leaf algebra keeps it (`Leaf.Closed`); and if what it says about the place of an operand
stays true where the rules put another one there (`Placement`).

`Invariant` lists these obligations, and which failures there may be. There is one lemma for each rule
(`Invariant.negateWith_ends` and so on), over a combination that keeps the property for the calls
of the rule (`Preserves`), and then the rounds follow by induction.
-/

namespace SymbolicAlgebra

namespace Expr

variable {op : Binary} {level : Level} {l l' r r' t : Expr}

/-! ## Nodes that no identity applies to -/

section

variable [Tolerance] [Exactness]

/-- The operands are no two leaves that the operator makes one leaf of. -/
def Apart (op : Binary) (l r : Expr) : Prop :=
  ∀ a b, l = leaf a → r = leaf b → Leaf.combine? op a b = .ok none

/-- What no identity of sums and differences applies to. -/
structure SumReduced (op : Binary) (l r : Expr) : Prop where
  /-- The left operand is not the number zero. -/
  left : l.isNumberZero = .ok false
  /-- The right operand is not the number zero. -/
  right : r.isNumberZero = .ok false
  /-- The operands differ. -/
  differ : l.same r = .ok false
  /-- No sign can move out of the right operand. -/
  sign : r.isLeaf = true ∨ r.isProduct = true → ∃ n, r.sgn = .ok n ∧ 0 ≤ n
  /-- The operands do not make one leaf. -/
  apart : Apart op l r

/-- What no identity of products applies to. -/
structure ProductReduced (l r : Expr) : Prop where
  /-- The left operand is not zero. -/
  left : l.isZero = .ok false
  /-- The right operand is not zero. -/
  right : r.isZero = .ok false
  /-- The left operand is not the number one. -/
  leftOne : l.isOne = .ok false
  /-- The right operand is not the number one. -/
  rightOne : r.isOne = .ok false
  /-- The operands differ, unless they are leaves. -/
  differ : l.isLeaf = false ∨ r.isLeaf = false → l.same r = .ok false
  /-- The operands do not make one leaf. -/
  apart : Apart .mul l r

/-- What no identity of quotients applies to. -/
structure QuotientReduced (l r : Expr) : Prop where
  /-- The dividend is not zero. -/
  left : l.isZero = .ok false
  /-- The divisor is not zero. -/
  right : r.isZero = .ok false
  /-- The divisor is not the number one. -/
  one : r.isOne = .ok false
  /-- The divisor is not the number minus one. -/
  negOne : r.isNegOne = .ok false
  /-- The operands differ. -/
  differ : l.same r = .ok false
  /-- The operands do not make one leaf. -/
  apart : Apart .div l r

/-- What no identity of powers applies to. -/
structure PowerReduced (l r : Expr) : Prop where
  /-- The exponent is not the number zero. -/
  zero : r.isNumberZero = .ok false
  /-- The exponent is not the number one. -/
  one : r.isOne = .ok false
  /-- The base is not the number one. -/
  base : l.isOne = .ok false
  /-- The operands do not make one leaf. -/
  apart : Apart .pow l r

/-- No identity applies to the operands. An equation has none. -/
def ReducedAt (op : Binary) (l r : Expr) : Prop :=
  match op with
  | .add | .sub => SumReduced op l r
  | .mul => ProductReduced l r
  | .div => QuotientReduced l r
  | .pow => PowerReduced l r
  | .equals => True

end

/-! ## Places of operands -/

/-- A condition on where operands stand that the rules keep. It holds of a right operand that
continues no chain, and of a number in front of a factor. A leaf on the left may become another
one, and so may a right operand that continues no chain. -/
structure Placement (N : Binary → Expr → Expr → Prop) : Prop where
  apart {op : Binary} {l r : Expr} :
    (∀ level, op.level = some level → r.inChain level = false) → N op l r
  front {l r : Expr} : l.isLeaf = true → N .mul l r
  left {op : Binary} {l l' r : Expr} :
    N op l r → (l.isLeaf = true → l'.isLeaf = true) → N op l' r
  right {op : Binary} {level : Level} {l r r' : Expr} : op.level = some level → N op l r →
    (r.inChain level = false → r'.isLeaf = true) → N op l r'

/-- No condition at all. -/
theorem placement_true : Placement fun _ _ _ => True where
  apart _ := True.intro
  front _ := True.intro
  left _ _ := True.intro
  right _ _ _ := True.intro

theorem inChain_of_isLeaf (h : t.isLeaf = true) : t.inChain level = false := by
  cases t with
  | leaf => rfl
  | _ => cases h

/-- Only an operator between two operands continues a chain. -/
theorem inChain_of_not_binary (h : ∀ op l r, t = binary op l r → False) :
    t.inChain level = false := by
  cases t with
  | node op l r =>
    cases op with
    | binary op => exact (h op l r rfl).elim
    | _ => rfl
  | _ => rfl

theorem ne_equals_of_level (hop : op.level = some level) : op ≠ .equals := by
  rintro rfl
  cases hop

variable [Tolerance] [Exactness]

/-! ## Invariants -/

/-- A property `P` of trees that the rules of combination keep, where they fail only in the ways
`F`: leaves have it that meet the condition `A`, and operands stand in nodes as `N` says. -/
structure Invariant (F : Failure → Prop) (A : Leaf → Prop) (N : Binary → Expr → Expr → Prop)
    (P : Expr → Prop) : Prop where
  arithmetic (e : Failure) : e.IsNumeric → F e
  absent : P absent → F .noOperand
  leaves : Leaf.Closed A
  places : Placement N
  leaf {a : Leaf} : P (leaf a) ↔ A a
  operands {op : Binary} {l r : Expr} : P (binary op l r) → op ≠ .equals → P l ∧ P r ∧ N op l r
  node {op : Binary} {l r : Expr} : op ≠ .equals → P l → P r → N op l r → ReducedAt op l r →
    P (binary op l r)

/-- A combination that keeps a property of trees, if the exponent of a power is not zero. -/
def Preserves (F : Failure → Prop) (P : Expr → Prop) (rec : Combiner) : Prop :=
  ∀ {op : Binary} {l r : Expr}, op ≠ .equals → P l → P r →
    (op = .pow → r.isNumberZero = .ok false) → Ends (rec op l r) F P

variable {F : Failure → Prop} {A : Leaf → Prop} {N : Binary → Expr → Expr → Prop}
  {P : Expr → Prop} {rec : Combiner}

namespace Invariant

/-! ### Questions -/

theorem numeric {α : Type} {x : Calc α} (h : Invariant F A N P) (hx : x.FailsAs Failure.IsNumeric) :
    x.FailsAs F :=
  hx.mono h.arithmetic

/-- A question about a tree with the property fails in an allowed way. -/
theorem asked {α : Type} {x : Calc α} (h : Invariant F A N P) (ht : P t)
    (hx : x.FailsAs t.Unanswered) : x.FailsAs F := by
  refine hx.mono ?_
  rintro e (rfl | ⟨rfl, rfl⟩)
  · exact h.arithmetic _ True.intro
  · exact h.absent ht

/-- The sign is asked along the first operands, which have the property too. -/
theorem sgn_failsAs (h : Invariant F A N P) (ht : P t) : t.sgn.FailsAs F := by
  induction t with
  | absent => exact .throw (h.absent ht)
  | leaf => exact h.numeric Leaf.sgn_failsAs.numeric
  | node op l r ihl _ =>
    unfold sgn
    split
    next chain =>
      cases op with
      | binary op =>
        have hop : op ≠ .equals := by
          rintro rfl
          cases chain
        exact ihl (h.operands ht hop).1
      | _ => cases chain
    next => exact .pure _

theorem number (h : Invariant F A N P) (z : Number) : P (number z) :=
  h.leaf.mpr (h.leaves.number z)

/-! ### Identities -/

/-- Negation takes operands out of nodes, and no call of it makes a power. -/
theorem negateWith_ends (h : Invariant F A N P) (hrec : Preserves F P rec) (ht : P t) :
    Ends (negateWith rec t) F P := by
  fun_induction negateWith rec t with
  | case1 => exact .throw (h.absent ht)
  | case2 a =>
    have opposite : Returns a.neg A := h.leaves.neg (h.leaf.mp ht)
    exact .map ⟨h.numeric Leaf.neg_failsAs, opposite.mono fun _ => h.leaf.mpr⟩
  | case3 l r ih | case4 l r ih | case5 l r ih =>
    obtain ⟨hl, hr, -⟩ := h.operands ht nofun
    exact .bind (ih hl) fun _ hl' => hrec nofun hl' hr nofun
  | case6 l r =>
    obtain ⟨hl, hr, -⟩ := h.operands ht nofun
    exact hrec nofun hr hl nofun
  | case7 t => exact hrec nofun (h.number _) ht nofun

/-- A quotient by zero is a number. -/
theorem overZero_ends (h : Invariant F A N P) (ht : P t) : Ends (overZero t) F P := by
  unfold overZero
  split
  next => exact .after (h.numeric Number.div_failsAs) fun _ => .pure (h.number _)
  next => exact .after (h.sgn_failsAs ht) fun _ => .pure (h.number _)

/-- Where a node is left, its operands do not make one leaf. -/
theorem mergeLeaves_ends (h : Invariant F A N P) (hop : op ≠ .equals) (hl : P l) (hr : P r)
    (hn : N op l r) (reduced : Apart op l r → ReducedAt op l r) :
    Ends (mergeLeaves op l r) F P := by
  unfold mergeLeaves
  split
  next a b =>
    have merged : Ends (Leaf.combine? op a b) F fun o => ∀ c, o = some c → A c :=
      ⟨h.numeric Leaf.combine?_failsAs, h.leaves.combine (h.leaf.mp hl) (h.leaf.mp hr)⟩
    -- where the leaves did not merge, that they did not is what the node needs to be reduced
    refine .bind merged.known fun o ho => ?_
    obtain ⟨answer, result⟩ := ho
    cases o with
    | some c => exact .pure (h.leaf.mpr (result c rfl))
    | none =>
      refine .pure (h.node hop hl hr hn (reduced ?_))
      rintro _ _ ⟨rfl⟩ ⟨rfl⟩
      exact answer
  next operator =>
    refine .pure (h.node hop hl hr hn (reduced fun a b ha hb => ?_))
    exact (operator a b ha hb).elim

/-- A node is left after all five questions, and their answers are what makes it reduced. -/
theorem atomicSum_ends (h : Invariant F A N P) (hrec : Preserves F P rec)
    (hop : op.level = some .sum) (hl : P l) (hr : P r) (hn : N op l r) :
    Ends (atomicSum rec op l r) F P := by
  have flipped : op.flip ≠ .equals ∧ op.flip ≠ .pow := by
    cases op <;> cases hop <;> exact ⟨nofun, nofun⟩
  have sum : SumReduced op l r → ReducedAt op l r := by
    cases op <;> cases hop <;> exact id
  unfold atomicSum
  refine .answered (h.asked hr isNumberZero_failsAs) (fun _ => .pure hl) fun right => ?_
  refine .answered (h.asked hl isNumberZero_failsAs) (fun _ => ?leftZero) fun left => ?_
  case leftZero =>
    split
    next => exact .pure hr
    next => exact h.negateWith_ends hrec hr
  refine .answered (h.numeric same_failsAs.numeric) (fun _ => ?same) fun differ => ?_
  case same =>
    split
    next => exact hrec nofun (h.number _) hl nofun
    next => exact .pure (h.number _)
  refine .bind (Ends.of_failsAs (h.sgn_failsAs hr)).known fun n sign => ?_
  split
  next moves =>
    refine .bind (h.negateWith_ends hrec hr) fun r' hr' => ?_
    exact hrec flipped.1 hl hr' fun hpow => absurd hpow flipped.2
  -- what is kept as it is has been asked everything a reduced sum promises
  next stay =>
    refine h.mergeLeaves_ends (ne_equals_of_level hop) hl hr hn fun apart => sum ?_
    rw [same_comm] at differ
    refine ⟨left, right, differ, fun place => ⟨n, sign.1, ?_⟩, apart⟩
    by_contra negative
    refine stay ?_
    rw [Bool.and_eq_true, decide_eq_true_iff, Bool.or_eq_true]
    exact ⟨by omega, place⟩

/-- A node is left with the operands as they are, or with a number that moves in front. -/
theorem atomicProduct_ends (h : Invariant F A N P) (hrec : Preserves F P rec) (hl : P l)
    (hr : P r) (hn : N .mul l r) : Ends (atomicProduct rec l r) F P := by
  unfold atomicProduct
  refine .answered (h.asked hl isZero_failsAs) (fun _ => .pure (h.number _)) fun left => ?_
  refine .answered (h.asked hr isZero_failsAs) (fun _ => .pure (h.number _)) fun right => ?_
  refine .answered (h.asked hl isOne_failsAs) (fun _ => .pure hr) fun leftOne => ?_
  refine .answered (h.asked hr isOne_failsAs) (fun _ => .pure hl) fun rightOne => ?_
  refine .answered (h.numeric same_failsAs.numeric) (fun same => ?same) fun differ => ?differ
  case same =>
    split
    next isLeaf =>
      refine h.mergeLeaves_ends nofun hl hr hn fun apart =>
        ⟨left, right, leftOne, rightOne, ?_, apart⟩
      -- what is the same as a leaf is a leaf
      intro operator
      cases r with
      | leaf b =>
        cases l with
        | leaf a => simp [Expr.isLeaf] at operator
        | absent => cases same
        | node => cases same
      | absent => cases isLeaf
      | node => cases isLeaf
    next => exact hrec nofun hl (h.number _) fun _ => rfl
  case differ =>
    split
    next swap =>
      rw [Bool.and_eq_true, Bool.not_eq_true'] at swap
      -- the number and the operator change places
      have isLeaf : r.isLeaf = true := by
        cases r with
        | leaf => rfl
        | _ => cases swap.1
      refine .pure (h.node nofun hr hl (h.places.front isLeaf)
        ⟨right, left, rightOne, leftOne, fun _ => differ, fun a b _ hb => ?_⟩)
      rw [hb] at swap
      cases swap.2
    next stay =>
      rw [same_comm] at differ
      refine h.mergeLeaves_ends nofun hl hr hn fun apart => ?_
      exact ⟨left, right, leftOne, rightOne, fun _ => differ, apart⟩

/-- A node is left after all five questions. Zero over zero fails, as arithmetic may. -/
theorem atomicQuotient_ends (h : Invariant F A N P) (hrec : Preserves F P rec) (hl : P l)
    (hr : P r) (hn : N .div l r) : Ends (atomicQuotient rec l r) F P := by
  unfold atomicQuotient
  refine .answered (h.asked hr isZero_failsAs) (fun _ => ?rightZero) fun right => ?_
  case rightZero =>
    refine .ask (h.asked hl isZero_failsAs) ?zero (h.overZero_ends hl)
    exact .throw (h.arithmetic _ True.intro)
  refine .answered (h.asked hl isZero_failsAs) (fun _ => .pure (h.number _)) fun left => ?_
  refine .answered (h.asked hr isOne_failsAs) (fun _ => .pure hl) fun one => ?_
  refine .answered (h.asked hr isNegOne_failsAs) (fun _ => ?opposite) fun negOne => ?_
  case opposite => exact h.negateWith_ends hrec hl
  refine .answered (h.numeric same_failsAs.numeric) (fun _ => .pure (h.number _)) fun differ => ?_
  rw [same_comm] at differ
  refine h.mergeLeaves_ends nofun hl hr hn fun apart => ?_
  exact ⟨left, right, one, negOne, differ, apart⟩

/-- A power stands apart from its operands, so nothing is asked about their places. -/
theorem raise_ends (h : Invariant F A N P) (hl : P l) (hr : P r) : Ends (raise l r) F P := by
  have positive : (Calc.both l.isNumberZero r.isPositiveNumber).FailsAs F :=
    .both (h.asked hl isNumberZero_failsAs) (h.numeric isPositiveNumber_failsAs.numeric)
  unfold raise
  refine .answered (h.asked hr isNumberZero_failsAs) (fun _ => .pure (h.number _)) fun zero => ?_
  refine .answered (h.asked hr isOne_failsAs) (fun _ => .pure hl) fun one => ?_
  refine .answered (h.asked hl isOne_failsAs) (fun _ => .pure hl) fun base => ?_
  refine .ask positive (.pure (h.number _)) ?_
  refine h.mergeLeaves_ends nofun hl hr (h.places.apart nofun) fun apart => ?_
  exact ⟨zero, one, base, apart⟩

/-- The identities at the root. -/
theorem atomicWith_ends (h : Invariant F A N P) (hrec : Preserves F P rec) (hop : op ≠ .equals)
    (hl : P l) (hr : P r) (hn : N op l r) : Ends (atomicWith rec op l r) F P := by
  cases op with
  | add => exact h.atomicSum_ends hrec rfl hl hr hn
  | sub => exact h.atomicSum_ends hrec rfl hl hr hn
  | mul => exact h.atomicProduct_ends hrec hl hr hn
  | div => exact h.atomicQuotient_ends hrec hl hr hn
  | pow => exact h.raise_ends hl hr
  | equals => exact absurd rfl hop

end Invariant

/-! ## Chains -/

section

/-- Outside a chain a leaf joins into nothing but a leaf. -/
theorem spliceWith_isLeaf {level : Level} {new : Leaf} {inverted : Bool}
    (h : t.inChain level = false) :
    Returns (spliceWith rec level new inverted t) fun o => ∀ t', o = some t' → t'.isLeaf = true := by
  fun_cases spliceWith rec level new inverted t with
  | case1 => exact Returns.throw _
  | case2 _ old =>
    refine Returns.after fun o => Returns.pure fun t' ht' => ?_
    obtain ⟨c, -, rfl⟩ := Option.map_eq_some_iff.mp ht'
    rfl
  | case3 _ op l r hop => simp [inChain, Op.continues, hop] at h
  | case4 => exact Returns.none
  | case5 => exact Returns.none

/-- A leaf joins into a chain, or what is left of a chain on the right is combined part by part. -/
theorem chainWith_ends {P : Failure → Prop} {Q : Expr → Prop} {level : Level}
    (right : ∀ new, r = leaf new → Ends (spliceWith rec level new op.isInverted l) P
      fun o => ∀ t, o = some t → Q t)
    (left : ∀ new, l = leaf new → Ends (spliceWith rec level new false r) P
      fun o => ∀ t, o = some t → Q t)
    (apart : joinRight rec level op l r = .ok none → Ends (reassociate rec level op l r) P Q) :
    Ends (chainWith rec level op l r) P Q := by
  -- a splice is tried into the left chain, then into the right one
  have intoLeft : Ends (joinRight rec level op l r) P fun o => ∀ t, o = some t → Q t := by
    unfold joinRight
    split
    next new =>
      split
      next => exact right new rfl
      next => exact .none
    next => exact .none
  have intoRight : Ends (joinLeft rec level op l r) P fun o => ∀ t, o = some t → Q t := by
    unfold joinLeft
    split
    next new =>
      split
      next => exact left new rfl
      next => exact .none
    next => exact .none
  unfold chainWith
  refine .bind intoLeft.known fun o ho => ?_
  cases o with
  | some t => exact .pure (ho.2 t rfl)
  | none =>
    refine .bind intoRight fun o ho' => ?_
    cases o with
    | some t => exact .pure (ho' t rfl)
    | none => exact apart ho.1

/-- The same for the results alone. -/
theorem chainWith_returns {Q : Expr → Prop} {level : Level}
    (right : ∀ new, r = leaf new → Returns (spliceWith rec level new op.isInverted l)
      fun o => ∀ t, o = some t → Q t)
    (left : ∀ new, l = leaf new → Returns (spliceWith rec level new false r)
      fun o => ∀ t, o = some t → Q t)
    (apart : joinRight rec level op l r = .ok none → Returns (reassociate rec level op l r) Q) :
    Returns (chainWith rec level op l r) Q := by
  refine (chainWith_ends (P := fun _ => True) ?right ?left ?apart).returns
  case right => exact fun new h => .of_returns (right new h)
  case left => exact fun new h => .of_returns (left new h)
  case apart => exact fun h => .of_returns (apart h)

end

namespace Invariant

variable {new : Leaf} {inverted : Bool}

/-- The nodes on the path to a leaf are made anew. A leaf on this path stays a leaf, so operands
stand in them as before. -/
theorem spliceWith_ends (h : Invariant F A N P) (hrec : Preserves F P rec) (hnew : A new)
    (ht : P t) :
    Ends (spliceWith rec level new inverted t) F fun o => ∀ u, o = some u → P u := by
  have rebuilt {op : Binary} {l r : Expr} (hop : op ≠ .equals) (hl : P l) (hr : P r)
      (hn : N op l r) :
      Ends (some <$> atomicWith rec op l r) F fun o => ∀ u, o = some u → P u := by
    refine .map ((h.atomicWith_ends hrec hop hl hr hn).mono (fun _ => id) ?_)
    rintro u hu _ ⟨rfl⟩
    exact hu
  -- the chain is searched from the left, and built again around the term that has joined
  fun_induction spliceWith rec level new inverted t with
  | case1 => exact .throw (h.absent ht)
  | case2 inverted old =>
    have merged : Ends (Leaf.mergeInto? level inverted old new) F fun o => ∀ c, o = some c → A c :=
      (h.leaves.mergeInto? (h.leaf.mp ht) hnew).mono h.arithmetic fun _ => id
    refine .bind merged fun o ho => .pure fun u hu => ?_
    obtain ⟨c, hc, rfl⟩ := Option.map_eq_some_iff.mp hu
    exact h.leaf.mpr (ho c hc)
  | case3 inverted op l r hop ihl ihr =>
    have quantity := ne_equals_of_level hop
    obtain ⟨hl, hr, hn⟩ := h.operands ht quantity
    have left : Returns (spliceWith rec level new inverted l)
        fun o => ∀ u, o = some u → l.isLeaf = true → u.isLeaf = true :=
      fun o ho u hu isLeaf => spliceWith_isLeaf (inChain_of_isLeaf isLeaf) o ho u hu
    refine .bind ⟨(ihl hl).fails, (ihl hl).returns.and left⟩ fun o ho => ?_
    cases o with
    | some l' => exact rebuilt quantity (ho.1 l' rfl) hr (h.places.left hn (ho.2 l' rfl))
    | none =>
      have right : Returns (spliceWith rec level new (inverted != op.isInverted) r)
          fun o => ∀ u, o = some u → r.inChain level = false → u.isLeaf = true :=
        fun o ho u hu apart => spliceWith_isLeaf apart o ho u hu
      refine .bind ⟨(ihr hr).fails, (ihr hr).returns.and right⟩ fun o ho => ?_
      cases o with
      | some r' => exact rebuilt quantity hl (ho.1 r' rfl) (h.places.right hop hn (ho.2 r' rfl))
      | none => exact .none
  | case4 => exact .none
  | case5 => exact .none

/-- A right operand outside of the chain stands in its place as it is. -/
theorem atomicWith_apart (h : Invariant F A N P) (hrec : Preserves F P rec)
    (hop : op.level = some level) (hl : P l) (hr : P r) (apart : r.inChain level = false) :
    Ends (atomicWith rec op l r) F P :=
  h.atomicWith_ends hrec (ne_equals_of_level hop) hl hr
    (h.places.apart fun _ hop' => Option.some_inj.mp (hop.symm.trans hop') ▸ apart)

/-- A chain on the right is combined part by part, and no part of it makes a power. -/
theorem reassociate_ends (h : Invariant F A N P) (hrec : Preserves F P rec)
    (hop : op.level = some level) (hl : P l) (hr : P r) :
    Ends (reassociate rec level op l r) F P := by
  unfold reassociate
  split
  next inner a b =>
    split
    -- the two calls take the chain apart, and neither makes an equation or a power
    next chain =>
      have first : op ≠ .pow := by
        rintro rfl
        cases hop
      have second : (if op.isInverted then inner.flip else inner) ≠ .equals ∧
          (if op.isInverted then inner.flip else inner) ≠ .pow := by
        cases op <;> cases inner <;> cases chain <;> exact ⟨nofun, nofun⟩
      obtain ⟨ha, hb, -⟩ := h.operands hr (ne_equals_of_level chain)
      have left : Ends (rec op l a) F P :=
        hrec (ne_equals_of_level hop) hl ha fun hpow => absurd hpow first
      refine .bind left fun t ht => ?_
      exact hrec second.1 ht hb fun hpow => absurd hpow second.2
    next other => exact h.atomicWith_apart hrec hop hl hr (beq_eq_false_iff_ne.mpr other)
  next other => exact h.atomicWith_apart hrec hop hl hr (inChain_of_not_binary other)

/-- Two leaves and the operands of a power go through the identities as they stand, and all else
through the chains. -/
theorem combineOperands_ends (h : Invariant F A N P) (hrec : Preserves F P rec)
    (hop : op ≠ .equals) (hl : P l) (hr : P r) : Ends (combineOperands rec op l r) F P := by
  unfold combineOperands
  split
  next level chain =>
    split
    next leaves =>
      rw [Bool.and_eq_true] at leaves
      exact h.atomicWith_apart hrec chain hl hr (inChain_of_isLeaf leaves.2)
    next =>
      refine chainWith_ends ?right ?left fun _ => h.reassociate_ends hrec chain hl hr
      case right =>
        -- the single leaf goes into the chain on the other side
        rintro new rfl
        exact h.spliceWith_ends hrec (h.leaf.mp hr) hl
      case left =>
        rintro new rfl
        exact h.spliceWith_ends hrec (h.leaf.mp hl) hr
  next none =>
    refine h.atomicWith_ends hrec hop hl hr (h.places.apart fun level chain => ?_)
    rw [none] at chain
    cases chain

end Invariant

/-! ## Rounds -/

omit [Tolerance] [Exactness] in
/-- A tree that is there is itself. -/
theorem present_ends (h : t = absent → F .noOperand) :
    Ends t.present F fun u => u = t ∧ t.present = .ok t := by
  cases t with
  | absent => exact .throw (h rfl)
  | leaf => exact .pure ⟨rfl, rfl⟩
  | node => exact .pure ⟨rfl, rfl⟩

/-- An equation is left as it is, and operands that are there are combined. -/
theorem combineStep_ends (equation : op = .equals → P (binary op l r))
    (left : l = absent → F .noOperand) (right : r = absent → F .noOperand)
    (operands : l.present = .ok l → r.present = .ok r → Ends (combineOperands rec op l r) F P) :
    Ends (combineStep rec op l r) F P := by
  unfold combineStep
  split
  next h => exact .pure (equation h)
  next =>
    refine .bind (present_ends left) ?_
    rintro _ ⟨rfl, left⟩
    refine .bind (present_ends right) ?_
    rintro _ ⟨rfl, right⟩
    exact operands left right

/-- The same for the results alone, which only operands that are there have. -/
theorem combineStep_returns (equation : op = .equals → P (binary op l r))
    (operands : l.present = .ok l → r.present = .ok r → Returns (combineOperands rec op l r) P) :
    Returns (combineStep rec op l r) P := by
  refine (combineStep_ends (F := fun _ => True) equation ?left ?right ?_).returns
  case left => exact fun _ => True.intro
  case right => exact fun _ => True.intro
  exact fun left right => .of_returns (operands left right)

omit [Tolerance] [Exactness] in
/-- There is a first round. -/
theorem combineDepth_eq_succ (l r : Expr) : ∃ n, combineDepth l r = n + 1 :=
  Nat.exists_eq_succ_of_ne_zero (Nat.ne_of_gt (Nat.pow_pos (Nat.succ_pos _)))

/-- An equation is built as it is. -/
theorem combine_equals (l r : Expr) : combine .equals l r = .ok (binary .equals l r) := by
  obtain ⟨n, rounds⟩ := combineDepth_eq_succ l r
  unfold combine
  rw [rounds]
  rfl

namespace Invariant

/-- A round keeps the property, whatever is raised to a power. -/
theorem combineStep_ends (h : Invariant F A N P) (hrec : Preserves F P rec) (hop : op ≠ .equals)
    (hl : P l) (hr : P r) : Ends (combineStep rec op l r) F P := by
  refine Expr.combineStep_ends (fun equation => absurd equation hop) ?left ?right fun _ _ =>
    h.combineOperands_ends hrec hop hl hr
  case left =>
    rintro rfl
    exact h.absent hl
  case right =>
    rintro rfl
    exact h.absent hr

/-- Rounds keep the property if what they stand on does. -/
theorem combineFrom_preserves (h : Invariant F A N P) {bottom : Combiner}
    (hb : Preserves F P bottom) (n : ℕ) : Preserves F P (combineFrom bottom n) := by
  induction n with
  | zero => exact hb
  | succ n ih => exact fun hop hl hr _ => h.combineStep_ends ih hop hl hr

/-- The first round turns a power of zero into one, so it does not matter here. -/
theorem combineFrom_ends (h : Invariant F A N P) {bottom : Combiner} (hb : Preserves F P bottom)
    (hop : op ≠ .equals) (hl : P l) (hr : P r) :
    Ends (combineFrom bottom (combineDepth l r) op l r) F P := by
  obtain ⟨n, rounds⟩ := combineDepth_eq_succ l r
  rw [rounds]
  exact h.combineStep_ends (h.combineFrom_preserves hb n) hop hl hr

end Invariant

end Expr

end SymbolicAlgebra
