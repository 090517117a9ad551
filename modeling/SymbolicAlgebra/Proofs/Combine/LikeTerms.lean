import SymbolicAlgebra.Proofs.Combine.Nested
import SymbolicAlgebra.Proofs.Equality

/-!
# Like terms in a sum

A new leaf of a sum looks through the chain for a leaf that it makes one leaf with, and so no two
leaves of the chain should be *alike*: two numbers, or two monomials of one variable and power. This
is so as long as the other summands stay what they are. When a leaf vanishes from the chain, what
stands next to it comes to the front, and may be negated or doubled on the way. If the negation of a
product or quotient happens to be a leaf, that leaf is never joined with the rest of the chain.

So the summands other than leaves are taken from a set of trees that is *stable* (`Stable`): none
of them is a leaf or a sum, and negated or doubled they stay in the set or are zero. Then sums
keep like terms together in whatever order and grouping they are built (`sumOf_gathered`).
Functions, powers, factorials and their multiples by numbers are stable (`stable_multiple`).

A chain is described by the kinds of its leaves (`Gathered`), and combining makes no new kinds.
This is what has to be known of a part of a chain that is built again, so that the leaves behind
it are not alike to what it has become.
-/

namespace SymbolicAlgebra

namespace Leaf

/-- What a leaf is a multiple of: the variable and power of a monomial, and nothing for a number. -/
def kind : Leaf → Option (String × Value)
  | number _ => none
  | monomial x _ p => some (x, p)

variable [Tolerance]

/-- Leaves of these kinds are like terms. -/
def Alike : Option (String × Value) → Option (String × Value) → Prop
  | none, none => True
  | some (x, p), some (y, q) => x = y ∧ p.same q = .ok true
  | _, _ => False

variable {a b : Leaf}

variable [Exactness]

theorem neg_kind : Returns a.neg fun b => b.kind = a.kind := by
  cases a with
  | number => exact .map fun _ _ => rfl
  | monomial => exact .after fun _ => .pure rfl

/-- What is known of the leaf that two leaves of a sum make: it is of the kind of the left one, or
zero. If they make none they are not alike. -/
def Joined (a b : Leaf) : Option Leaf → Prop
  | none => ¬Alike a.kind b.kind
  | some c => c.isNumberZero = .ok true ∨ c.kind = a.kind

omit [Exactness] in
/-- Monomials of one variable and power make one, and others are not alike. -/
theorem sum?_joined (f : Number → Number → Calc Number)
    (h : ∀ z w, a = number z → b = number w → False) : Returns (sum? f a b) (Joined a b) := by
  cases a with
  | number z =>
    cases b with
    | number w => exact (h z w rfl rfl).elim
    | monomial => exact .pure fun alike => alike
  | monomial x m p =>
    cases b with
    | number => exact .pure fun alike => alike
    | monomial y n q =>
      unfold sum?
      refine .answered (fun like => ?like) fun apart => .pure ?apart
      case like =>
        refine .after fun coefficient => .ask ?vanished ?left
        -- a coefficient of zero leaves the number zero
        case vanished => exact .pure (.inl rfl)
        case left => exact .pure (.inr rfl)
      case apart =>
        rintro ⟨rfl, same⟩
        have compatible : compatible false (monomial x m p) (monomial x n q) = q.same p :=
          if_pos (beq_self_eq_true x)
        rw [compatible, Value.same_comm, same] at apart
        cases apart

/-- Leaf algebra joins like terms of a sum. -/
theorem combine?_joined {op : Binary} (hop : op.level = some .sum) :
    Returns (combine? op a b) (Joined a b) := by
  by_cases numbers : ∃ z w, a = number z ∧ b = number w
  · obtain ⟨z, w, rfl, rfl⟩ := numbers
    have made (x : Calc Number) :
        Returns (some <$> number <$> x) (Joined (number z) (number w)) :=
      .map (.map fun _ _ => .inr rfl)
    cases op with
    | add => exact made (z.add w)
    | sub => exact made (z.sub w)
    | equals | mul | div | pow => cases hop
  · have others (z w : Number) (ha : a = number z) (hb : b = number w) : False :=
      numbers ⟨z, w, ha, hb⟩
    -- two numbers aside, a sum of leaves is one of monomials
    have table : combine? op a b = sum? (if op = .add then Number.add else Number.sub) a b := by
      cases op <;> cases hop <;> cases a <;> cases b <;>
        first | exact (others _ _ rfl rfl).elim | rfl
    rw [table]
    exact sum?_joined _ others

end Leaf

namespace Expr

open Calc (Follows)

variable [Tolerance] [Exactness]

/-- A set of summands that are no leaves and no sums, and stay so when they are negated or doubled,
unless they become zero. -/
structure Stable (S : Expr → Prop) : Prop where
  operator {t : Expr} : S t → ∃ o l r, t = node o l r ∧ o.continues .sum = false
  negate {t : Expr} : S t → Returns (negate t) fun u => S u ∨ u = zero
  double {t : Expr} : S t → Returns (combine .mul two t) fun u => S u ∨ u = zero

omit [Exactness] in
/-- A chain of leaves and summands of a set that nests to the left, with the kinds of its leaves. No
two of them are alike. -/
inductive Gathered (S : Expr → Prop) : Expr → List (Option (String × Value)) → Prop
  /-- A leaf. -/
  | leaf {a : Leaf} (power : a.HasPower) : Gathered S (leaf a) [a.kind]
  /-- Another summand. -/
  | term {t : Expr} (ht : S t) : Gathered S t []
  /-- One more leaf. -/
  | moreLeaf {op : Binary} {l : Expr} {a : Leaf} {ks : List (Option (String × Value))}
    (hop : op.level = some .sum) (hl : Gathered S l ks) (power : a.HasPower)
    (apart : ∀ k ∈ ks, ¬Leaf.Alike k a.kind) : Gathered S (binary op l (.leaf a)) (a.kind :: ks)
  /-- One more summand of another form. -/
  | moreTerm {op : Binary} {l r : Expr} {ks : List (Option (String × Value))}
    (hop : op.level = some .sum) (hl : Gathered S l ks) (hr : S r) : Gathered S (binary op l r) ks

/-- The number zero, or a chain with no leaves but of the given kinds. -/
def Within (S : Expr → Prop) (ks : List (Option (String × Value))) (t : Expr) : Prop :=
  (∃ a, t = leaf a ∧ a.isNumberZero = .ok true) ∨ ∃ ks', ks' ⊆ ks ∧ Gathered S t ks'

/-- Rounds that combine as `combine` does, unless they give up, and keep like terms together in
sums. -/
structure KeepsGathered (S : Expr → Prop) (rec : Combiner) : Prop where
  follows (op : Binary) (l r : Expr) : Follows .noOperation (rec op l r) (combine op l r)
  sums {op : Binary} {l r : Expr} {ks ls : List (Option (String × Value))} :
    op.level = some .sum → Within S ks l → Within S ls r →
      Returns (rec op l r) (Within S (ks ++ ls))

variable {S : Expr → Prop} {rec : Combiner} {op : Binary} {new a b : Leaf} {inverted : Bool}
  {l r t : Expr} {ks ls : List (Option (String × Value))}

omit [Exactness] in
theorem Within.mono (h : Within S ks t) (sub : ks ⊆ ls) : Within S ls t := by
  rcases h with zero | ⟨ks', hks, ht⟩
  · exact .inl zero
  · exact .inr ⟨ks', fun k hk => sub (hks hk), ht⟩

omit [Exactness] in
theorem within_zero : Within S ks zero := .inl ⟨_, rfl, rfl⟩

omit [Exactness] in
/-- A leaf of one of the kinds is a chain by itself. -/
theorem within_leaf (power : a.HasPower) (h : a.isNumberZero = .ok true ∨ a.kind ∈ ks) :
    Within S ks (leaf a) := by
  rcases h with zero | mem
  · exact .inl ⟨a, rfl, zero⟩
  · exact .inr ⟨[a.kind], List.cons_subset.mpr ⟨mem, List.nil_subset ks⟩, .leaf power⟩

omit [Exactness] in
theorem within_term (h : S t ∨ t = zero) : Within S ks t := by
  rcases h with ht | rfl
  · exact .inr ⟨[], List.nil_subset ks, .term ht⟩
  · exact within_zero

omit [Tolerance] [Exactness] in
/-- What follows has no other results. -/
theorem returns_of_follows {α : Type} {e : Failure} {x y : Calc α} {P : α → Prop}
    (h : Follows e x y) (hy : Returns y P) : Returns x P := by
  rcases h with rfl | rfl
  · exact .throw e
  · exact hy

/-- A leaf of such a chain has a power other than zero. -/
theorem Within.hasPower (hS : Stable S) (h : Within S ks (leaf a)) : a.HasPower := by
  rcases h with ⟨z, hz, zero⟩ | ⟨ks', -, ht⟩
  · cases hz
    cases a with
    | number => exact True.intro
    | monomial => cases zero
  · cases ht with
    | leaf power => exact power
    | term ht =>
      obtain ⟨o, x, y, equal, -⟩ := hS.operator ht
      cases equal

/-! ## Negating and doubling -/

/-- The opposite of a leaf is of the same kind. -/
theorem negateWith_leaf (power : a.HasPower) :
    Returns (negateWith rec (leaf a)) fun t => ∃ b, t = leaf b ∧ b.kind = a.kind ∧ b.HasPower := by
  have opposite := Leaf.neg_kind.and (Leaf.closed_hasPower.neg power)
  exact .map (opposite.mono fun b h => ⟨b, rfl, h⟩)

theorem negateWith_term (hS : Stable S) (h : KeepsGathered S rec) (ht : S t) :
    Returns (negateWith rec t) fun u => S u ∨ u = zero :=
  returns_of_follows (negateWith_rule.follows h.follows) (hS.negate ht)

/-- Twice a leaf is zero or of the same kind. -/
theorem combine_two_leaf (power : a.HasPower) : Returns (combine .mul two (leaf a)) fun t =>
    ∃ b, t = leaf b ∧ b.HasPower ∧ (b.isNumberZero = .ok true ∨ b.kind = a.kind) := by
  have zero : ∃ b, zero = leaf b ∧ b.HasPower ∧ (b.isNumberZero = .ok true ∨ b.kind = a.kind) :=
    ⟨_, rfl, True.intro, .inl rfl⟩
  have merge : Returns (mergeLeaves .mul two (leaf a)) fun t =>
      ∃ b, t = leaf b ∧ b.HasPower ∧ (b.isNumberZero = .ok true ∨ b.kind = a.kind) := by
    cases a with
    | number z =>
      refine .bind (P := fun o => ∃ w, o = some (Leaf.number w))
        (.map (.map fun w _ => ⟨w, rfl⟩)) ?_
      rintro _ ⟨w, rfl⟩
      exact .pure ⟨_, rfl, True.intro, .inr rfl⟩
    | monomial x m p =>
      refine .bind (P := fun o => ∃ b, o = some b ∧ b.HasPower ∧
        (b.isNumberZero = .ok true ∨ b.kind = some (x, p))) ?doubled ?node
      case doubled =>
        refine .after fun r => .map (.ask (.pure ⟨_, rfl, True.intro, .inl rfl⟩) ?_)
        refine .answered (fun none => ?_) fun _ => .pure ⟨_, rfl, power, .inr rfl⟩
        cases power.symm.trans none
      case node =>
        rintro _ ⟨b, rfl, hb⟩
        exact .pure ⟨b, rfl, hb⟩
  -- of the identities of products none leaves a node here
  rw [combine_eq_chain rfl rfl rfl]
  show Returns (atomicProduct combine two (leaf a)) _
  unfold atomicProduct
  refine .ask (.pure zero) (.ask (.pure zero) (.ask (.pure ⟨a, rfl, power, .inr rfl⟩) ?_))
  refine .answered (fun one => .pure ⟨_, rfl, True.intro, .inr ?_⟩) fun _ => .ask merge ?_
  · cases a with
    | number => rfl
    | monomial => cases one
  · split
    next swap => cases Bool.and_eq_true_iff.mp swap |>.2
    next => exact merge

/-! ## Identities -/

/-- A summand of the set is no leaf. -/
theorem Stable.isNumberZero_eq (hS : Stable S) (ht : S t) : t.isNumberZero = .ok false := by
  obtain ⟨o, l, r, rfl, -⟩ := hS.operator ht
  rfl

/-- A chain is not equal to a summand, unless it is a summand by itself. -/
theorem Gathered.of_same (hS : Stable S) (hl : Gathered S l ks) (hr : S r)
    (same : r.same l = .ok true) : S l := by
  obtain ⟨o, x, y, rfl, apart⟩ := hS.operator hr
  have operators {op : Binary} {l' r' : Expr} (hop : op.level = some .sum)
      (same : (node o x y).same (binary op l' r') = .ok true) : False := by
    unfold Expr.same at same
    split at same
    next equal =>
      subst equal
      rw [Op.continues, hop] at apart
      cases apart
    next => cases same
  cases hl with
  | leaf => cases same
  | term ht => exact ht
  | moreLeaf hop => exact (operators hop same).elim
  | moreTerm hop => exact (operators hop same).elim

/-- A leaf that is alike to none of a chain makes a node with it, and beside a leaf it may make one
leaf. -/
theorem mergeLeaves_leaf (hS : Stable S) (hop : op.level = some .sum) (hl : Gathered S l ks)
    (power : a.HasPower) (apart : l.isLeaf = false → ∀ k ∈ ks, ¬Leaf.Alike k a.kind) :
    Returns (mergeLeaves op l (leaf a)) (Within S (a.kind :: ks)) := by
  have chain (apart : ∀ k ∈ ks, ¬Leaf.Alike k a.kind) :
      Within S (a.kind :: ks) (binary op l (leaf a)) :=
    .inr ⟨_, fun _ => id, .moreLeaf hop hl power apart⟩
  cases hl with
  | leaf power' =>
    have merged := (Leaf.combine?_joined hop).and (Leaf.closed_hasPower.combine power' power)
    refine .bind merged fun o ho => ?_
    cases o with
    | none =>
      -- two leaves apart become a chain; joined, they are zero or a leaf of the kind they had
      refine .pure (chain fun k hk => ?_)
      exact List.mem_singleton.mp hk ▸ ho.1
    | some c =>
      have power'' := ho.2 c rfl
      rcases ho.1 with zero | hc
      · exact .pure (within_leaf power'' (.inl zero))
      · refine .pure (within_leaf power'' (.inr ?_))
        exact hc ▸ List.mem_cons_of_mem _ (List.mem_singleton_self _)
  | term ht =>
    obtain ⟨o, x, y, rfl, -⟩ := hS.operator ht
    exact .pure (chain (apart rfl))
  | moreLeaf => exact .pure (chain (apart rfl))
  | moreTerm => exact .pure (chain (apart rfl))

/-- A leaf that is alike to none of a chain is added at its end. Beside a leaf it may be any
other. -/
theorem atomicSum_leaf (hS : Stable S) (h : KeepsGathered S rec) (hop : op.level = some .sum)
    (hl : Within S ks l) (power : a.HasPower)
    (apart : l.isLeaf = false → ∀ k ∈ ks, ¬Leaf.Alike k a.kind) :
    Returns (atomicSum rec op l (leaf a)) (Within S (a.kind :: ks)) := by
  have alone {b : Leaf} (hb : b.kind = a.kind) (power : b.HasPower) :
      Within S (a.kind :: ks) (leaf b) := within_leaf power (.inr (hb ▸ List.mem_cons_self ..))
  unfold atomicSum
  refine .ask (.pure (hl.mono (List.subset_cons_self ..))) ?_
  refine .answered (fun _ => ?leftZero) fun left => ?_
  case leftZero =>
    split
    next => exact .pure (alone rfl power)
    next =>
      refine (negateWith_leaf power).mono ?_
      rintro _ ⟨b, rfl, hb, power'⟩
      exact alone hb power'
  rcases hl with ⟨z, rfl, zero⟩ | ⟨ks', sub, hl⟩
  · cases zero.symm.trans left
  refine .answered (fun same => ?same) fun _ => .after fun n => ?differ
  case same =>
    split
    next plus =>
      -- only a leaf is the same as a leaf
      cases hl with
      | leaf power' =>
        refine returns_of_follows (h.follows ..) ((combine_two_leaf power').mono ?_)
        rintro _ ⟨c, rfl, power'', zero | hc⟩
        · exact within_leaf power'' (.inl zero)
        · refine within_leaf power'' (.inr (List.mem_cons_of_mem _ ?_))
          exact hc ▸ sub (List.mem_singleton_self _)
      | term ht =>
        obtain ⟨o, x, y, rfl, -⟩ := hS.operator ht
        cases same
      | moreLeaf => cases same
      | moreTerm => cases same
    next => exact .pure within_zero
  case differ =>
    split
    next moves =>
      refine (negateWith_leaf power).bind ?_
      rintro _ ⟨b, rfl, hb, power'⟩
      have hop' : op.flip.level = some .sum := by cases op <;> exact hop
      have joined : Within S [a.kind] (leaf b) :=
        within_leaf power' (.inr (List.mem_singleton.mpr hb))
      refine (h.sums hop' (.inr ⟨ks', sub, hl⟩) joined).mono fun t ht => ht.mono ?_
      intro k hk
      rcases List.mem_append.mp hk with old | new
      · exact List.mem_cons_of_mem _ old
      · exact List.mem_singleton.mp new ▸ List.mem_cons_self ..
    next stays =>
      refine (mergeLeaves_leaf hS hop hl power fun chain k hk => ?_).mono fun t ht => ?_
      · exact apart chain k (sub hk)
      · exact ht.mono (List.cons_subset_cons _ sub)

/-- A summand of the set is put at the end of a chain. -/
theorem atomicSum_summand (hS : Stable S) (h : KeepsGathered S rec) (hop : op.level = some .sum)
    (hl : Within S ks l) (hr : S r) : Returns (atomicSum rec op l r) (Within S ks) := by
  have negated := negateWith_term hS h hr
  unfold atomicSum
  refine .answered (fun zero => ?rightZero) fun _ => ?_
  -- a summand has an operator at its root, so it is never the number zero
  case rightZero => cases (hS.isNumberZero_eq hr).symm.trans zero
  refine .answered (fun _ => ?leftZero) fun left => ?_
  case leftZero =>
    split
    next => exact .pure (within_term (.inl hr))
    next => exact negated.mono fun _ => within_term
  rcases hl with ⟨z, rfl, zero⟩ | ⟨ks', sub, hl⟩
  · cases zero.symm.trans left
  refine .answered (fun same => ?same) fun _ => .after fun n => ?differ
  case same =>
    have single := hl.of_same hS hr same
    split
    next plus =>
      exact returns_of_follows (h.follows ..) ((hS.double single).mono fun _ => within_term)
    next minus => exact .pure within_zero
  case differ =>
    split
    next moves =>
      -- the summand changes sides with its sign, and joins the chain by the recursive call
      refine negated.bind fun u hu => ?_
      have hop' : op.flip.level = some .sum := by cases op <;> exact hop
      have term : Within S [] u := within_term hu
      refine (h.sums hop' (.inr ⟨ks', sub, hl⟩) term).mono fun t ht => ?_
      rwa [List.append_nil] at ht
    next stays =>
      obtain ⟨o, x, y, rfl, -⟩ := hS.operator hr
      have stays : mergeLeaves op l (node o x y) = .ok (binary op l (node o x y)) := by
        cases l <;> rfl
      rw [stays]
      exact .pure (.inr ⟨ks', sub, .moreTerm hop hl hr⟩)

/-! ## A leaf in a chain -/

/-- What is known of a chain that a leaf has been joined into: it has no new kinds. If the leaf did
not join, it is alike to none of them. -/
def Spliced (S : Expr → Prop) (ks : List (Option (String × Value))) (new : Leaf) :
    Option Expr → Prop
  | none => ∀ k ∈ ks, ¬Leaf.Alike k new.kind
  | some t => Within S ks t

/-- A leaf joins one that it is alike to, and that stays of its kind or vanishes. -/
theorem spliceWith_leaf (power : a.HasPower) (hnew : new.HasPower) :
    Returns (spliceWith rec .sum new inverted (leaf a)) fun o => match o with
      | none => ¬Leaf.Alike a.kind new.kind
      | some t => ∃ c, t = leaf c ∧ c.HasPower ∧ (c.isNumberZero = .ok true ∨ c.kind = a.kind) := by
  have merge : Returns (Leaf.mergeInto? .sum inverted a new) fun o =>
      Leaf.Joined a new o ∧ ∀ c, o = some c → c.HasPower := by
    cases inverted with
    | false =>
      have added : Returns (Leaf.combine? .add a new) _ := Leaf.combine?_joined rfl
      exact added.and (Leaf.closed_hasPower.combine power hnew)
    | true =>
      have subtracted : Returns (Leaf.combine? .sub a new) _ := Leaf.combine?_joined rfl
      exact subtracted.and (Leaf.closed_hasPower.combine power hnew)
  refine .bind merge fun o ho => .pure ?_
  cases o with
  | none => exact ho.1
  | some c => exact ⟨c, rfl, ho.2 c rfl, ho.1⟩

/-- The nodes on the path to a leaf are sums. -/
theorem rebuilt_gathered (hop : op.level = some .sum)
    (h : Returns (atomicSum rec op l r) (Within S ks)) :
    Returns (some <$> atomicWith rec op l r) (Spliced S ks new) := by
  rw [atomicWith_sum _ hop]
  exact .map h

/-- A leaf looks through a chain from the front to the end, and joins the first leaf that it is alike
to. What stands behind that is added again. -/
theorem spliceWith_gathered (hS : Stable S) (h : KeepsGathered S rec) (hnew : new.HasPower)
    (ht : Gathered S t ks) (inverted : Bool) :
    Returns (spliceWith rec .sum new inverted t) (Spliced S ks new) := by
  induction ht generalizing inverted with
  | leaf power =>
    refine (spliceWith_leaf power hnew).mono fun o ho => ?_
    cases o with
    -- the leaf is tried against every leaf of the chain, and the splice is refused only by all
    | none =>
      intro k hk
      exact List.mem_singleton.mp hk ▸ ho
    | some t =>
      obtain ⟨c, rfl, power', zero | hc⟩ := ho
      · exact within_leaf power' (.inl zero)
      · exact within_leaf power' (.inr (hc ▸ List.mem_singleton_self _))
  | term ht =>
    obtain ⟨o, x, y, rfl, apart⟩ := hS.operator ht
    rw [spliceWith_apart apart]
    exact .pure nofun
  | @moreLeaf op l a ks hop hl power apart ih =>
    unfold spliceWith
    rw [if_pos hop]
    refine .bind (ih inverted) fun o ho => ?_
    cases o with
    | some l' =>
      -- it joined further left: the last leaf goes back onto what came out
      exact rebuilt_gathered hop (atomicSum_leaf hS h hop ho power fun _ => apart)
    | none =>
      refine .bind (spliceWith_leaf power hnew) fun o ho' => ?_
      cases o with
      | none =>
        refine .pure fun k hk => ?_
        rcases List.mem_cons.mp hk with rfl | hk
        · exact ho'
        · exact ho k hk
      -- it joined the last leaf, and the root is built again over the rest
      | some r' =>
        obtain ⟨c, rfl, power', hc⟩ := ho'
        refine rebuilt_gathered hop ?_
        rcases hc with zero | hc
        · rw [atomicSum_zero (r := leaf c) zero]
          exact .pure (.inr ⟨ks, List.subset_cons_self .., hl⟩)
        · rw [← hc] at apart ⊢
          exact atomicSum_leaf hS h hop (.inr ⟨ks, fun _ => id, hl⟩) power' fun _ => apart
  | @moreTerm op l r ks hop hl hr ih =>
    unfold spliceWith
    rw [if_pos hop]
    refine .bind (ih inverted) fun o ho => ?_
    cases o with
    | some l' =>
      exact rebuilt_gathered hop (atomicSum_summand hS h hop ho hr)
    | none =>
      obtain ⟨o, x, y, rfl, apart⟩ := hS.operator hr
      refine .bind (P := (· = none)) ?apart ?rest
      case apart =>
        rw [spliceWith_apart apart]
        exact .pure rfl
      case rest =>
        rintro _ rfl
        exact .pure ho

/-! ## Rounds -/

/-- A chain of leaves and summands on the right goes into the left operand part by part. -/
theorem reassociate_gathered (hS : Stable S) (h : KeepsGathered S rec) (hop : op.level = some .sum)
    (hl : Within S ks l) (operator : l.isLeaf = false ∨ r.isLeaf = false)
    (joined : joinRight rec .sum op l r = .ok none) (hr : Gathered S r ls) :
    Returns (reassociate rec .sum op l r) (Within S (ks ++ ls)) := by
  have parts {inner : Binary} {a b : Expr} {as bs : List (Option (String × Value))}
      (hinner : inner.level = some .sum) (ha : Gathered S a as) (hb : Gathered S b bs) :
      Returns (reassociate rec .sum op l (binary inner a b)) (Within S (ks ++ as ++ bs)) := by
    -- a chain on the right is taken apart, a difference with the inner operator turned round
    have second : (if op.isInverted then inner.flip else inner).level = some .sum := by
      cases op <;> cases inner <;> cases hinner <;> rfl
    unfold reassociate
    simp only [if_pos hinner]
    refine .bind (h.sums hop hl (.inr ⟨as, fun _ => id, ha⟩)) fun t ht => ?_
    exact h.sums second ht (.inr ⟨bs, fun _ => id, hb⟩)
  cases hr with
  | @leaf a power =>
    have operator : l.isLeaf = false := operator.resolve_right nofun
    rw [reassociate_apart rfl, atomicWith_sum _ hop]
    rcases hl with ⟨z, rfl, -⟩ | ⟨ks', sub, hl⟩
    · cases operator
    have apart : ∀ k ∈ ks', ¬Leaf.Alike k a.kind := by
      by_cases chain : l.inChain .sum = true
      · -- the leaf has been through the chain
        exact spliceWith_gathered hS h power hl op.isInverted none ((if_pos chain).symm.trans joined)
      · cases hl with
        | leaf => cases operator
        | term => exact nofun
        | moreLeaf hop' => exact absurd (beq_iff_eq.mpr hop') chain
        | moreTerm hop' => exact absurd (beq_iff_eq.mpr hop') chain
    refine (atomicSum_leaf hS h hop (.inr ⟨ks', fun _ => id, hl⟩) power fun _ => apart).mono
      fun t ht => ht.mono fun k hk => ?_
    rcases List.mem_cons.mp hk with rfl | old
    · exact List.mem_append_right _ (List.mem_singleton_self _)
    · exact List.mem_append_left _ (sub old)
  | term hr =>
    obtain ⟨o, x, y, rfl, apart⟩ := hS.operator hr
    rw [reassociate_apart (r := node o x y) apart, atomicWith_sum _ hop, List.append_nil]
    exact atomicSum_summand hS h hop hl hr
  | @moreLeaf inner a b as hinner ha power apart =>
    refine (parts hinner ha (.leaf power)).mono fun t ht => ht.mono fun k hk => ?_
    simp only [List.mem_append, List.mem_cons, List.not_mem_nil] at hk ⊢
    tauto
  | @moreTerm inner a b as hinner ha hb =>
    have := parts hinner ha (.term hb)
    rwa [List.append_nil] at this

/-- Two leaves meet the identities at once. -/
theorem leaves_gathered (hS : Stable S) (h : KeepsGathered S rec) (hop : op.level = some .sum)
    (hl : Within S ks l) (hr : Within S ls r) (leafl : l.isLeaf = true) (leafr : r.isLeaf = true) :
    Returns (atomicWith rec op l r) (Within S (ks ++ ls)) := by
  rw [atomicWith_sum _ hop]
  rcases hr with ⟨z, rfl, zero⟩ | ⟨ls', sub, hr⟩
  · rw [atomicSum_zero (r := leaf z) zero]
    exact .pure (hl.mono (List.subset_append_left ..))
  cases hr with
  | leaf power =>
    -- both sides are leaves, so the cases with a chain on the left do not arise
    have operand (operator : l.isLeaf = false) : False := by
      rw [leafl] at operator
      cases operator
    refine (atomicSum_leaf hS h hop hl power fun operator => (operand operator).elim).mono
      fun t ht => ht.mono fun k hk => ?_
    rcases List.mem_cons.mp hk with rfl | old
    · exact List.mem_append_right _ (sub (List.mem_singleton_self _))
    · exact List.mem_append_left _ old
  | term ht =>
    obtain ⟨o, x, y, rfl, -⟩ := hS.operator ht
    cases leafr
  | moreLeaf => cases leafr
  | moreTerm => cases leafr

/-- Any other operands are combined as chains. -/
theorem chainWith_gathered (hS : Stable S) (h : KeepsGathered S rec) (hop : op.level = some .sum)
    (hl : Within S ks l) (hr : Within S ls r) (operator : l.isLeaf = false ∨ r.isLeaf = false) :
    Returns (chainWith rec .sum op l r) (Within S (ks ++ ls)) := by
  -- the splice to the right, the splice to the left, and neither
  refine chainWith_returns (fun new hnew => ?right) (fun new hnew => ?left) fun joined => ?apart
  case right =>
    subst hnew
    rcases hl with ⟨z, rfl, -⟩ | ⟨ks', sub, hl⟩
    · cases operator <;> contradiction
    refine (spliceWith_gathered hS h (hr.hasPower hS) hl _).mono ?_
    rintro _ ht t rfl
    exact ht.mono fun k hk => List.mem_append_left _ (sub hk)
  case left =>
    subst hnew
    rcases hr with ⟨z, rfl, -⟩ | ⟨ls', sub, hr⟩
    · cases operator <;> contradiction
    refine (spliceWith_gathered hS h (hl.hasPower hS) hr _).mono ?_
    rintro _ ht t rfl
    exact ht.mono fun k hk => List.mem_append_right _ (sub hk)
  case apart =>
    rcases hr with ⟨z, rfl, zero⟩ | ⟨ls', sub, hr⟩
    · rw [reassociate_apart rfl, atomicWith_sum _ hop, atomicSum_zero (r := leaf z) zero]
      exact .pure (hl.mono (List.subset_append_left ..))
    · refine (reassociate_gathered hS h hop hl operator joined hr).mono fun t ht => ?_
      refine ht.mono (List.append_subset.mpr ⟨List.subset_append_left .., fun k hk => ?_⟩)
      exact List.mem_append_right _ (sub hk)

/-- A round keeps like terms together if the rounds below it do. -/
theorem combineStep_gathered (hS : Stable S) (h : KeepsGathered S rec) :
    KeepsGathered S (combineStep rec) := by
  refine ⟨fun op l r => ?_, fun {op l r ks ls} hop hl hr => ?_⟩
  · rw [combine_eq_step]
    exact (combineStep_rule op l r).follows h.follows
  refine combineStep_returns (fun equation => ?_) fun _ _ => ?_
  · exact absurd equation (ne_equals_of_level hop)
  unfold combineOperands
  rw [hop]
  show Returns (if l.isLeaf && r.isLeaf then _ else _) _
  split
  next leaves =>
    rw [Bool.and_eq_true] at leaves
    exact leaves_gathered hS h hop hl hr leaves.1 leaves.2
  next operators =>
    rw [Bool.not_eq_true, Bool.and_eq_false_iff] at operators
    exact chainWith_gathered hS h hop hl hr operators

/-- Rounds that end keep like terms together. -/
theorem combineFrom_gathered (hS : Stable S) (n : ℕ) : KeepsGathered S (combineFrom giveUp n) := by
  induction n with
  | zero => exact ⟨fun _ _ _ => .inl rfl, fun _ _ _ => .throw _⟩
  | succ n ih => exact combineStep_gathered hS ih

/-- Combining keeps like terms together. -/
theorem combine_gathered (hS : Stable S) (hop : op.level = some .sum) (hl : Within S ks l)
    (hr : Within S ls r) : Returns (combine op l r) (Within S (ks ++ ls)) := by
  rw [combine_eq]
  exact (combineFrom_gathered hS _).sums hop hl hr

/-- Negation makes no new kinds, but for the opposite of zero. -/
theorem negate_gathered (hS : Stable S) (ht : Within S ks t) :
    Returns (negate t) (Within S (none :: ks)) := by
  have difference {l r : Expr} {as bs cs : List (Option (String × Value))} (hl : Within S as l)
      (hr : Within S bs r) (sub : as ⊆ cs) (sub' : bs ⊆ cs) :
      Returns (combine .sub l r) (Within S cs) := by
    refine (combine_gathered hS rfl hl hr).mono fun t ht => ?_
    exact ht.mono (List.append_subset.mpr ⟨sub, sub'⟩)
  rcases ht with ⟨z, rfl, zero⟩ | ⟨ks', sub, ht⟩
  · have power : z.HasPower := Within.hasPower hS (.inl ⟨z, rfl, zero⟩ : Within S [] (leaf z))
    refine (negateWith_leaf power).mono ?_
    rintro _ ⟨b, rfl, hb, power'⟩
    refine within_leaf power' (.inr ?_)
    rw [hb]
    cases z with
    | number => exact List.mem_cons_self ..
    | monomial => cases zero
  -- only zero can gain a kind by changing sign, so from here on the kinds stay
  suffices Returns (negate t) (Within S ks') from
    this.mono fun t ht => ht.mono fun k hk => List.mem_cons_of_mem _ (sub hk)
  clear sub
  induction ht with
  | leaf power =>
    refine (negateWith_leaf power).mono ?_
    rintro _ ⟨b, rfl, hb, power'⟩
    exact within_leaf power' (.inr (hb ▸ List.mem_singleton_self _))
  | term ht => exact (hS.negate ht).mono fun _ => within_term
  | @moreLeaf op l a ks hop hl power apart ih =>
    have first : ks ⊆ a.kind :: ks := List.subset_cons_self ..
    have last : [a.kind] ⊆ a.kind :: ks :=
      List.cons_subset.mpr ⟨List.mem_cons_self .., List.nil_subset _⟩
    have leaf : Within S [a.kind] (leaf a) := .inr ⟨_, fun _ => id, .leaf power⟩
    cases op with
    | equals | mul | div | pow => cases hop
    | add => exact .bind ih fun l' hl' => difference hl' leaf first last
    -- a difference changes sign by exchanging its sides
    | sub => exact difference leaf (.inr ⟨ks, fun _ => id, hl⟩) last first
  | @moreTerm op l r ks hop hl hr ih =>
    have term : Within S [] r := within_term (.inl hr)
    cases op with
    | equals | mul | div | pow => cases hop
    | add =>
      exact .bind ih fun l' hl' => difference hl' term (fun _ => id) (List.nil_subset _)
    | sub =>
      exact difference term (.inr ⟨ks, fun _ => id, hl⟩) (List.nil_subset _) fun _ => id

/-! ## Sums -/

/-- A tree that is built of leaves and summands of a set with sums, differences and opposites, in
any order and grouping. -/
inductive SumOf (S : Expr → Prop) : Expr → Prop
  /-- A leaf. -/
  | leaf {a : Leaf} (power : a.HasPower) : SumOf S (.leaf a)
  /-- Another summand. -/
  | summand {t : Expr} (ht : S t) : SumOf S t
  /-- A sum or difference. -/
  | sum {op : Binary} {l r t : Expr} (hop : op.level = some .sum) (hl : SumOf S l) (hr : SumOf S r)
    (combined : combine op l r = .ok t) : SumOf S t
  /-- An opposite. -/
  | opposite {t u : Expr} (ht : SumOf S t) (negated : negate t = .ok u) : SumOf S u

/-- The leaves of a chain of sums and differences. -/
def summandLeaves : Expr → List Leaf
  | leaf a => [a]
  | node (.binary op) l r =>
    if op.level = some .sum then l.summandLeaves ++ r.summandLeaves else []
  | _ => []

omit [Exactness] in
/-- The kinds of a chain are those of its leaves, and no two of these are alike. -/
theorem Gathered.pairwise (operator : ∀ t, S t → t.summandLeaves = []) (h : Gathered S t ks) :
    (∀ a ∈ t.summandLeaves, a.kind ∈ ks) ∧
      t.summandLeaves.Pairwise fun a b => ¬Leaf.Alike a.kind b.kind := by
  induction h with
  | @leaf a power =>
    have leaves : (Expr.leaf a).summandLeaves = [a] := rfl
    rw [leaves]
    refine ⟨fun b hb => ?_, List.pairwise_singleton _ a⟩
    obtain rfl := List.mem_singleton.mp hb
    exact List.mem_cons_self ..
  | term ht =>
    rw [operator _ ht]
    exact ⟨fun a ha => absurd ha List.not_mem_nil, .nil⟩
  | @moreLeaf op l a ks hop hl power apart ih =>
    have leaves : (binary op l (.leaf a)).summandLeaves = l.summandLeaves ++ [a] := if_pos hop
    rw [leaves]
    refine ⟨fun b hb => ?_, List.pairwise_append.mpr ⟨ih.2, List.pairwise_singleton _ _, ?_⟩⟩
    · rcases List.mem_append.mp hb with old | new
      · exact List.mem_cons_of_mem _ (ih.1 b old)
      · rw [List.mem_singleton] at new
        subst new
        exact List.mem_cons_self
    · intro b hb c hc
      rw [List.mem_singleton] at hc
      -- the kinds of the chain so far bound its leaves, and the new kind is like none of them
      subst hc
      exact apart _ (ih.1 b hb)
  | @moreTerm op l r ks hop hl hr ih =>
    have leaves : (binary op l r).summandLeaves = l.summandLeaves ++ r.summandLeaves := if_pos hop
    rw [leaves, operator _ hr, List.append_nil]
    exact ih

/-- Summands of the set have no leaves of the chain. -/
theorem Stable.summandLeaves_eq (hS : Stable S) (t : Expr) (ht : S t) : t.summandLeaves = [] := by
  obtain ⟨o, l, r, rfl, apart⟩ := hS.operator ht
  cases o with
  | binary op => exact if_neg (beq_eq_false_iff_ne.mp apart)
  | _ => rfl

/-- Such a sum is a chain of some kinds. -/
theorem SumOf.within (hS : Stable S) (h : SumOf S t) : ∃ ks, Within S ks t := by
  induction h with
  | leaf power => exact ⟨_, .inr ⟨_, fun _ => id, .leaf power⟩⟩
  | summand ht => exact ⟨[], within_term (.inl ht)⟩
  | sum hop _ _ combined ihl ihr =>
    obtain ⟨ks, hl⟩ := ihl
    obtain ⟨ls, hr⟩ := ihr
    exact ⟨ks ++ ls, combine_gathered hS hop hl hr _ combined⟩
  | opposite _ negated ih =>
    obtain ⟨ks, ht⟩ := ih
    exact ⟨none :: ks, negate_gathered hS ht _ negated⟩

/-- **Like terms are combined** in every sum of leaves and summands of a stable set, in whatever
order and grouping it is built: at most one of its leaves is a number, and no two are monomials of
one variable and power. -/
theorem sumOf_gathered (hS : Stable S) (h : SumOf S t) :
    t.summandLeaves.Pairwise fun a b => ¬Leaf.Alike a.kind b.kind := by
  obtain ⟨ks, ⟨a, rfl, -⟩ | ⟨ks', -, ht⟩⟩ := h.within hS
  · exact List.pairwise_singleton _ _
  · exact (ht.pairwise hS.summandLeaves_eq).2

/-! ## Multiples -/

/-- A solid tree, or a number times one. -/
def Multiple (t : Expr) : Prop :=
  t.Solid ∨ ∃ z u, t = binary .mul (number z) u ∧ u.Solid

omit [Exactness] in
/-- A number times a solid tree is zero, the tree or a multiple of it. -/
theorem scaleSolid_multiple (z : Number) (ht : t.Solid) :
    Returns (scaleSolid z t) fun u => Multiple u ∨ u = zero := by
  unfold scaleSolid
  refine .ask ?zero (.ask ?one ?multiple)
  case zero => exact .pure (.inr rfl)
  case one => exact .pure (.inl (.inl ht))
  case multiple => exact .pure (.inl (.inr ⟨z, t, rfl, ht⟩))

theorem combine_number_multiple (z : Number) (ht : t.Solid) :
    Returns (combine .mul (number z) t) fun u => Multiple u ∨ u = zero := by
  rw [combine_number_solid ht]
  exact scaleSolid_multiple z ht

/-- The opposite of a multiple is one: the number in front takes the sign. -/
theorem negate_multiple (ht : Multiple t) : Returns (negate t) fun u => Multiple u ∨ u = zero := by
  rcases ht with ht | ⟨z, u, rfl, hu⟩
  · -- a multiple is no sum and no number, so its sign is a factor of minus one
    have minus : negate t = combine .mul (number (.ofInt (-1))) t := by
      cases t with
      | absent => cases ht
      | leaf => cases ht
      | node o l r =>
        cases o with
        | binary op =>
          cases op with
          | add | sub => cases ht .sum
          | mul | div => cases ht .product
          | equals | pow => rfl
        | _ => rfl
    rw [minus]
    exact combine_number_multiple _ ht
  · refine .bind (P := fun l => ∃ w, l = number w) (.map (.map fun w _ => ⟨w, rfl⟩)) ?_
    rintro _ ⟨w, rfl⟩
    exact combine_number_multiple w hu

/-- Twice a multiple is one: two joins the number in front. -/
theorem combine_two_multiple (ht : Multiple t) :
    Returns (combine .mul two t) fun u => Multiple u ∨ u = zero := by
  rcases ht with ht | ⟨z, u, rfl, hu⟩
  · exact combine_number_multiple _ ht
  · -- the factor two goes into the number in front, and the rest is scaled again
    rw [combine_eq_chain rfl rfl rfl]
    show Returns (joinLeft combine .product .mul two (binary .mul (number z) u) >>= _) _
    refine .bind (P := fun o => ∃ t, o = some t ∧ (Multiple t ∨ t = zero)) ?joined ?result
    case joined =>
      show Returns (spliceWith combine .product (.ofInt 2) false (binary .mul (number z) u)) _
      refine .bind (P := fun o => ∃ w, o = some (number w)) ?front ?rebuilt
      case front =>
        refine .bind (P := fun o => ∃ w, o = some (Leaf.number w)) ?_ ?_
        · exact .map (.map fun w _ => ⟨w, rfl⟩)
        · rintro _ ⟨w, rfl⟩
          exact .pure ⟨w, rfl⟩
      case rebuilt =>
        rintro _ ⟨w, rfl⟩
        show Returns (some <$> atomicProduct combine (number w) u) _
        rw [atomicProduct_number_solid hu]
        exact .map ((scaleSolid_multiple w hu).mono fun t ht => ⟨t, rfl, ht⟩)
    case result =>
      rintro _ ⟨t, rfl, ht⟩
      exact .pure ht

/-- Functions, powers, factorials and their multiples by numbers are summands that stay what they
are. -/
theorem stable_multiple : Stable Multiple where
  operator {t} ht := by
    rcases ht with ht | ⟨z, u, rfl, -⟩
    · cases t with
      | absent => cases ht
      | leaf => cases ht
      | node o l r => exact ⟨o, l, r, rfl, ht .sum⟩
    · exact ⟨_, _, _, rfl, rfl⟩
  negate := negate_multiple
  double := combine_two_multiple

omit [Tolerance] [Exactness] in
/-- A quotient of two sums is none of them. Negated, this one is the number one, and it comes to
stand beside another number. -/
example :
    letI := Double.standardTolerance
    letI := Exactness.free
    parse .standard none "x-(x-y)/(y-x)+z+3-x" =
      .ok (binary .add (binary .add one (ofName "z")) (ofInt 3)) := by
  decide +kernel

end Expr

end SymbolicAlgebra
