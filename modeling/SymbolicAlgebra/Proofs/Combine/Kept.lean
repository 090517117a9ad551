import SymbolicAlgebra.Proofs.Combine.Full

/-!
# What rounds of combination keep

Every rule keeps what `Kept` says, if its result has full size (`combineFrom_keeps`). Most results
do not have it: an operand is dropped, two leaves become one, or a leaf joins into a chain. What is
left are the plain node, a number that changes places with an operator, a sign that moves, and a
minus one that is put in front.

A number changes places with a product only if there is no leaf at its front, as it would have
joined into that leaf (`joinRight_number`). So the front of a product stays.
-/

namespace SymbolicAlgebra

variable [Tolerance] [Exactness]

/-- Anything makes one leaf with a number factor. -/
theorem Leaf.combine?_mul_number (a : Leaf) (z : Number) :
    Returns (combine? .mul a (number z)) (· ≠ none) := by
  cases a with
  | number w =>
    show Returns (some <$> number <$> w.mul z) _
    exact Returns.map (Returns.map fun _ _ => nofun)
  | monomial x m p => exact Returns.after fun _ => Returns.map fun _ _ => nofun

namespace Expr

variable {rec : Combiner} {op : Binary} {level : Level} {l r t : Expr}

/-! ## Identities -/

omit [Exactness] in
/-- Equal trees have one size. -/
theorem size_of_same {t u : Expr} (h : t.same u = .ok true) : t.size = u.size := by
  induction t generalizing u with
  | absent => cases u <;> first | rfl | cases h
  | leaf a => cases u <;> first | rfl | cases h
  | node op l r ihl ihr =>
    cases u with
    | node op' l' r' =>
      rw [same] at h
      split at h
      next =>
        obtain ⟨left, hl, hr⟩ := Calc.bind_eq_ok.mp h
        cases left with
        | true => rw [size_node, size_node, ihl hl, ihr hr]
        | false => cases hr
      next => cases h
    | _ => cases h

omit [Exactness] in
/-- An operator that equals a tree with a lead has more than one place. -/
theorem two_le_size_of_same (h : r.same l = .ok true) (operator : r.isLeaf = false)
    (lead : l.lead.isSome = true) : 2 ≤ r.size := by
  -- equal trees have one size, and a tree with a lead is a leaf or a larger node
  rw [size_of_same h]
  cases l with
  | absent => cases lead
  | leaf a =>
    cases r with
    | leaf b => cases operator
    | _ => cases h
  | node op l' r' =>
    cases op with
    | binary op =>
      rw [Expr.lead] at lead
      split at lead
      · have := size_pos_of_isSome lead
        rw [size_node]
        omega
      · cases lead
    | _ => cases lead

/-- A node that is not loose keeps all that, and one leaf of two is smaller. -/
theorem mergeLeaves_full (tight : loose (.binary op) l r = false)
    (zero : op = .sub → l.isNumberZero ≠ .ok true) :
    Returns (mergeLeaves op l r) (Full op l r) := by
  unfold mergeLeaves
  split
  · refine Returns.after fun o => ?_
    cases o with
    | some c => exact Returns.pure fun size => by cases size
    | none => exact Returns.pure fun _ => .plain tight zero
  · exact Returns.pure fun _ => .plain tight zero

/-- Two leaves of which the second one is a number make one. -/
theorem mergeProduct_full (chain : r.isProduct = false) (h : r.isNumber = true → l.isLeaf = true) :
    Returns (mergeLeaves .mul l r) (Full .mul l r) := by
  cases number : r.isNumber with
  | false =>
    refine mergeLeaves_full ?_ nofun
    rw [loose, number, chain]
    rfl
  -- a number on the right meets a leaf, and two numbers always merge
  | true =>
    have leaf := h number
    cases l with
    | leaf a =>
      cases r with
      | leaf b =>
        cases b with
        | number z =>
          refine Returns.bind (Leaf.combine?_mul_number a z) fun o ho => ?_
          cases o with
          | some c => exact Returns.pure fun size => by cases size
          | none => exact absurd rfl ho
        | monomial => cases number
      | _ => cases number
    | _ => cases leaf

/-- What is subtracted from zero grows only if a minus one takes the place of the zero. -/
theorem subtractFromZero_full (hs : Shrinks rec) (h : Keeps rec) (hop : op.level = some .sum)
    (zero : l.isNumberZero = .ok true) : Returns (negateWith rec r) (Full op l r) := by
  have one := size_of_isNumberZero zero
  refine (Returns.and (negateWith_size hs) (negateWith_turned hs h)).mono fun u hu size => ?_
  obtain ⟨lead, slack, sway⟩ := hu.2.grown (by omega)
  have none : r.lead = none := by
    by_contra some
    have := hu.1.2 (Option.isSome_iff_ne_none.mpr some)
    omega
  exact .ofSum hop (fun _ => lead) (Nat.le_trans slack (Nat.le_add_left _ _)) (absurd zero)
    fun _ _ => ⟨none, sway⟩

/-- The multiple that a tree and itself make has a two in front. -/
theorem double_full (hs : Shrinks rec) (h : Keeps rec) (right : 0 < r.size) :
    Returns (rec .mul two l) (Full .add l r) := by
  refine (Returns.and (hs _ _ _) (h _ _ _)).mono fun u hu size => ?_
  have one : two.size = 1 := rfl
  have kept := hu.2 (by omega)
  have lead := lead_of_front (kept.front rfl _ rfl)
  have turns : u.turns = 0 := by
    rw [turns, lead]
    rfl
  refine .ofSum rfl (fun _ => by rw [lead]; rfl) ?_ (fun _ => by omega) fun sub => ?_
  · have slack : two.slack = 0 := rfl
    have := kept.slack
    omega
  · cases sub

/-- A sum whose right operand has lost its sign is loose no more, if it was. -/
theorem moveSign_full (hs : Shrinks rec) (h : Keeps rec) (hop : op.level = some .sum)
    (nonzero : l.isNumberZero ≠ .ok true) (turn : 0 < r.turns) :
    Returns (negateWith rec r >>= fun r' => rec op.flip l r') (Full op l r) := by
  have flip : op.flip.level = some .sum := by cases op <;> cases hop <;> rfl
  refine .bind (Returns.and (negateWith_size hs) (negateWith_turned hs h)) fun r' hr' => ?_
  refine (Returns.and (hs _ _ _) (h _ _ _)).mono fun u hu size => ?_
  have := hr'.1.2 (isSome_lead_of_turns turn)
  obtain ⟨slack, -, -⟩ := hr'.2.turned turn (by omega)
  have kept := hu.2 (by omega)
  refine .ofSum hop (kept.lead (by rw [flip]; rfl)) ?_ (kept.sum flip) fun _ zero =>
    absurd zero nonzero
  exact Nat.le_trans kept.slack (Nat.add_le_add_left slack _)

theorem full_of_lt {op : Binary} {u : Expr} (small : u.size < 1 + l.size + r.size) :
    Full op l r u :=
  fun size => absurd size (Nat.ne_of_lt small)

/-- No sum that is left is loose: a sign that could move has moved. -/
theorem atomicSum_full (hs : Shrinks rec) (h : Keeps rec) (hop : op = .add ∨ op = .sub)
    (chain : r.inChain .sum = false) : Returns (atomicSum rec op l r) (Full op l r) := by
  have hlevel : op.level = some .sum := by rcases hop with rfl | rfl <;> rfl
  unfold atomicSum
  refine .answered (fun _ => .pure (full_of_lt (by omega))) fun right => ?_
  refine .answered (fun zero => ?leftZero) fun nonzero => ?_
  case leftZero =>
    have one := size_of_isNumberZero zero
    split
    next => exact .pure (full_of_lt (by omega))
    next => exact subtractFromZero_full hs h hlevel zero
  refine .answered (fun same => ?same) fun _ => ?_
  case same =>
    have pos := size_pos_of_isNumberZero right
    split
    next add =>
      subst add
      exact double_full hs h pos
    next =>
      have one : Expr.zero.size = 1 := rfl
      exact .pure (full_of_lt (by omega))
  refine .bind (P := (r.sgn = .ok ·)) (fun _ => id) fun sign hsign => ?_
  have notZero : l.isNumberZero ≠ .ok true := fun zero => by
    rw [nonzero] at zero
    cases zero
  split
  next move =>
    rw [Bool.and_eq_true, decide_eq_true_iff] at move
    exact moveSign_full hs h hlevel notZero ((turns_pos_iff hsign).mpr move.1)
  next stay =>
    refine mergeLeaves_full ?_ fun _ => notZero
    -- a sign that could move would have done so
    have still : r.turns = 0 := by
      by_contra turn
      have turn := Nat.pos_of_ne_zero turn
      refine stay ?_
      rw [decide_eq_true ((turns_pos_iff hsign).mp turn), Bool.true_and, Bool.or_eq_true]
      rcases inChain_of_lead (isSome_lead_of_turns turn) with leaf | product | sum
      · exact .inl leaf
      · exact .inr product
      · rw [chain] at sum
        cases sum
    rcases hop with rfl | rfl <;>
    · rw [loose, still]
      rfl

/-- A square is as large as a product of equal operators only if these have no lead. -/
theorem square_full (hs : Shrinks rec) (h : Keeps rec) (same : r.same l = .ok true)
    (operator : r.isLeaf = false) (right : 0 < r.size) :
    Returns (rec .pow l two) (Full .mul l r) := by
  refine (Returns.and (hs _ _ _) (h _ _ _)).mono fun u hu size => ?_
  have one : two.size = 1 := rfl
  have kept := hu.2 (by omega)
  have none : ¬l.lead.isSome = true := fun lead => by
    have := two_le_size_of_same same operator lead
    omega
  refine .ofProduct rfl (fun lead => absurd lead none) ?_ (fun a ha => ?_) fun _ => ?_
  · have slack : two.slack = 0 := rfl
    have := kept.slack
    omega
  · rw [lead_of_front ha] at none
    exact absurd rfl none
  · rw [kept.power rfl]
    exact Nat.zero_le _

/-- A number changes places with an operator that has no front. -/
theorem Kept.swap (number : r.isNumber = true) (operator : l.isLeaf = false)
    (front : l.front = none) : Kept .mul l r (binary .mul r l) := by
  obtain ⟨z, rfl⟩ : ∃ z, r = leaf (.number z) := by
    cases r with
    | leaf b => cases b <;> first | exact ⟨_, rfl⟩ | cases number
    | _ => cases number
  refine .ofProduct rfl (fun _ => rfl) ?_ (fun a ha => ?_) nofun
  · -- an operator behind a leaf is not loose
    have tight : loose (.binary .mul) (leaf (.number z)) l = false := by
      cases l with
      | leaf a => cases operator
      | absent => rfl
      | node => exact Bool.and_false _
    rw [slack_node, tight, Bool.toNat_false]
    omega
  · rw [front] at ha
    cases ha

/-- A product that is left is loose only if it was: a number has moved in front. -/
theorem atomicProduct_full (hs : Shrinks rec) (h : Keeps rec) (chain : r.isProduct = false)
    (number : r.isNumber = true → l.isLeaf = false → l.front = none) :
    Returns (atomicProduct rec l r) (Full .mul l r) := by
  have zero : zero.size = 1 := rfl
  unfold atomicProduct
  -- each identity drops a node, so only what merges or swaps can be full
  refine .answered (fun left => ?leftZero) fun _ => ?_
  case leftZero =>
    have pos := size_pos_of_isZero left
    exact .pure (full_of_lt (by omega))
  refine .answered (fun right => ?rightZero) fun right => ?_
  case rightZero =>
    have pos := size_pos_of_isZero right
    exact .pure (full_of_lt (by omega))
  refine .ask (.pure (full_of_lt (by omega))) (.ask (.pure (full_of_lt (by omega))) ?_)
  refine .answered (fun same => ?same) fun _ => ?differ
  case same =>
    split
    next leaf =>
      refine mergeProduct_full chain fun _ => ?_
      cases r with
      | leaf b => cases l <;> first | rfl | cases same
      | _ => cases leaf
    next operator =>
      exact square_full hs h same (Bool.eq_false_iff.mpr operator) (size_pos_of_isZero right)
  case differ =>
    split
    next swap =>
      rw [Bool.and_eq_true, Bool.not_eq_true'] at swap
      exact .pure fun _ => .swap swap.1 swap.2 (number swap.1 swap.2)
    next stay =>
      refine mergeProduct_full chain fun hr => ?_
      rw [hr, Bool.true_and, Bool.not_eq_true', Bool.not_eq_false] at stay
      exact stay

/-- An opposite in the place of a quotient by minus one is of full size if a factor of minus one is
in front of it now. -/
theorem divideByNegOne_full (hs : Shrinks rec) (h : Keeps rec) (minus : r.isNegOne = .ok true) :
    Returns (negateWith rec l) (Full .div l r) := by
  refine (Returns.and (negateWith_size hs) (negateWith_turned hs h)).mono fun u hu size => ?_
  have one : r.size = 1 := by
    cases r with
    | leaf b => rfl
    | _ => cases minus
  obtain ⟨lead, slack, -⟩ := hu.2.grown (by omega)
  have shared : u.slack ≤ l.slack + r.slack := Nat.le_trans slack (Nat.le_add_right _ _)
  refine .ofProduct rfl (fun _ => lead) shared (fun a ha => ?front) fun tight => ?tight
  case front =>
    have small := hu.1.2 (by rw [lead_of_front ha]; rfl)
    omega
  case tight =>
    rw [loose, minus, decide_eq_true rfl] at tight
    cases tight

/-- A quotient that is left is not loose, as its divisor is neither minus one nor a product. -/
theorem atomicQuotient_full (hs : Shrinks rec) (h : Keeps rec) (chain : r.isProduct = false) :
    Returns (atomicQuotient rec l r) (Full .div l r) := by
  have one : one.size = 1 := rfl
  have zero : zero.size = 1 := rfl
  unfold atomicQuotient
  -- as for the product, each identity drops a node
  refine .answered (fun right => .ask (.throw _) ?overZero) fun _ => ?_
  case overZero =>
    have pos := size_pos_of_isZero right
    exact overZero_size.mono fun u hu => full_of_lt (by omega)
  refine .answered (fun left => ?leftZero) fun _ => ?_
  case leftZero =>
    have pos := size_pos_of_isZero left
    exact .pure (full_of_lt (by omega))
  refine .ask (.pure (full_of_lt (by omega))) ?_
  refine .answered (fun minus => divideByNegOne_full hs h minus) fun notMinus => ?_
  refine .answered (fun same => ?same) fun _ => mergeLeaves_full ?tight nofun
  case same =>
    have pos := size_pos_of_isNegOne notMinus
    exact .pure (full_of_lt (by omega))
  case tight =>
    rw [loose, notMinus, chain]
    rfl

/-- A power that is left is a node, and all other results are smaller. -/
theorem raise_full : Returns (raise l r) (Full .pow l r) := by
  have one : one.size = 1 := rfl
  have zero : zero.size = 1 := rfl
  unfold raise
  refine .answered (fun right => ?rightZero) fun right => ?_
  case rightZero =>
    have pos := size_pos_of_isNumberZero right
    exact .pure (full_of_lt (by omega))
  have pos := size_pos_of_isNumberZero right
  refine .ask (.pure (full_of_lt (by omega))) (.ask (.pure (full_of_lt (by omega))) ?_)
  exact .ask (.pure (full_of_lt (by omega))) (mergeLeaves_full rfl nofun)

/-! ## Chains -/

/-- A number joins into any chain with a leaf in front. -/
theorem spliceWith_number {z : Number} (front : t.front.isSome = true) :
    Returns (spliceWith rec .product (.number z) false t) (· ≠ none) := by
  -- the front of the chain is a leaf, which a number always joins
  generalize hnew : Leaf.number z = new
  generalize hinv : false = inverted
  fun_induction spliceWith rec .product new inverted t with
  | case1 => exact .throw _
  | case2 inverted old =>
    subst hnew hinv
    refine .bind (Leaf.combine?_mul_number old z) fun o ho => .pure ?_
    cases o with
    | some c => exact Option.some_ne_none _
    | none => exact absurd rfl ho
  | case3 inverted op l r hop ihl ihr =>
    rw [front_binary hop] at front
    refine .bind (ihl front hinv) fun o ho => ?_
    cases o with
    | some l' => exact .map fun _ _ => Option.some_ne_none _
    | none => exact absurd rfl ho
  | case4 inverted op l r hop =>
    rw [Expr.front, if_neg hop] at front
    cases front
  | case5 t inverted absent leaf binary =>
    cases t with
    | absent => cases front
    | leaf a => exact (leaf a rfl).elim
    | node op l r =>
      cases op with
      | binary op => exact (binary op l r rfl).elim
      | _ => cases front

/-- So if a number has not joined a chain on the left, then that has no leaf in front. -/
theorem joinRight_number (operator : l.isLeaf = false) (number : r.isNumber = true)
    (apart : joinRight rec .product .mul l r = .ok none) : l.front = none := by
  by_contra some
  have front := Option.isSome_iff_ne_none.mpr some
  -- a number that joined nothing has met no leaf in front
  obtain ⟨z, rfl⟩ : ∃ z, r = leaf (.number z) := by
    cases r with
    | leaf b => cases b <;> first | exact ⟨_, rfl⟩ | cases number
    | _ => cases number
  have chain : l.inChain .product = true := by
    cases l with
    | leaf a => cases operator
    | absent => cases front
    | node op l' r' =>
      cases op with
      | binary op =>
        rw [Expr.front] at front
        split at front
        next hop => exact beq_iff_eq.mpr hop
        next => cases front
      | _ => cases front
  rw [joinRight, if_pos chain] at apart
  exact spliceWith_number front none apart rfl

/-- The identities at the root keep all that, if they are asked where no chain can be joined. -/
theorem atomicWith_full (hs : Shrinks rec) (h : Keeps rec)
    (chain : ∀ level, op.level = some level → r.inChain level = false)
    (number : op = .mul → r.isNumber = true → l.isLeaf = false → l.front = none) :
    Returns (atomicWith rec op l r) (Full op l r) := by
  cases op with
  | add => exact atomicSum_full hs h (.inl rfl) (chain _ rfl)
  | sub => exact atomicSum_full hs h (.inr rfl) (chain _ rfl)
  | mul => exact atomicProduct_full hs h (chain _ rfl) (number rfl)
  | div => exact atomicQuotient_full hs h (chain _ rfl)
  | pow => exact raise_full
  | equals => exact .pure fun _ => .plain rfl nofun

/-- A chain on the right is combined part by part. -/
theorem Kept.trans {inner : Binary} {a b t u : Expr} (hop : op.level = some level)
    (hinner : inner.level = some level) (first : Kept op l a t) (operator : 1 < t.size)
    (second : Kept (if op.isInverted then inner.flip else inner) t b u) :
    Kept op l (binary inner a b) u := by
  have hflip : (if op.isInverted then inner.flip else inner).level = some level := by
    split
    · cases inner <;> cases hinner <;> rfl
    · exact hinner
  have hop' : op.level.isSome = true := by rw [hop]; rfl
  have hflip' : (if op.isInverted then inner.flip else inner).level.isSome = true := by
    rw [hflip]; rfl
  have nonzero : t.isNumberZero ≠ .ok true := fun zero => by
    have := size_of_isNumberZero zero
    omega
  have slack : u.slack ≤ l.slack + (binary inner a b).slack := by
    have := first.slack
    have := second.slack
    rw [slack_node]
    omega
  cases level with
  | sum =>
    refine .ofSum hop (fun lead => second.lead hflip' (first.lead hop' lead)) slack (fun zero => ?_)
      fun sub zero => ?_
    · exact Nat.le_trans (second.sum hflip nonzero) (first.sum hop zero)
    · obtain ⟨none, sway⟩ := first.zero sub zero
      refine ⟨(lead_binary hinner a b).trans none, ?_⟩
      have := second.sum hflip nonzero
      have := second.slack
      unfold Expr.sway at sway ⊢
      rw [slack_node]
      omega
  | product =>
    refine .ofProduct hop (fun lead => second.lead hflip' (first.lead hop' lead)) slack
      (fun c hc => second.front hflip c (first.front hop c hc)) fun tight => ?_
    -- the node is loose, unless there is a leaf at the front
    obtain ⟨c, hc⟩ : ∃ c, l.front = some c := by
      have chain : (binary inner a b).isProduct = true := beq_iff_eq.mpr hinner
      cases hl : l.front with
      | some c => exact ⟨c, rfl⟩
      | none =>
        have open' : loose (.binary op) l (binary inner a b) = true := by
          cases op <;> cases hop <;>
          · rw [loose, chain, hl]
            exact Bool.or_true _
        rw [open'] at tight
        cases tight
    have lead := lead_of_front (second.front hflip c (first.front hop c hc))
    exact Nat.le_of_eq (turns_of_lead (lead.trans (lead_of_front hc).symm))

/-- A chain on the right is taken apart, or there is none. -/
theorem reassociate_full (hs : Shrinks rec) (h : Keeps rec) (hop : op.level = some level)
    (left : 0 < l.size) (apart : joinRight rec level op l r = .ok none) :
    Returns (reassociate rec level op l r) (Full op l r) := by
  -- the splice has been tried before the chain is taken apart
  have number : op = .mul → r.isNumber = true → l.isLeaf = false → l.front = none := by
    rintro rfl hr hl
    cases hop
    exact joinRight_number hl hr apart
  have plain (chain : r.inChain level = false) : Returns (atomicWith rec op l r) (Full op l r) := by
    refine atomicWith_full hs h (fun level' h' => ?_) number
    rw [hop] at h'
    cases h'
    exact chain
  unfold reassociate
  split
  next inner a b =>
    split
    next hinner =>
      refine .bind (Returns.and (hs _ _ _) (h _ _ _)) fun t ht => ?_
      refine (Returns.and (hs _ _ _) (h _ _ _)).mono fun u hu size => ?_
      rw [size_node] at size
      -- both calls lose no node, or the whole would be smaller
      exact .trans hop hinner (ht.2 (by omega)) (by omega) (hu.2 (by omega))
    next hinner => exact plain (beq_eq_false_iff_ne.mpr hinner)
  next other =>
    refine plain ?_
    cases r with
    | node op l r =>
      cases op with
      | binary op => exact (other op l r rfl).elim
      | _ => rfl
    | _ => rfl

/-! ## Rounds -/

/-- A round keeps all that if the combination below it does. -/
theorem combineStep_keeps (hs : Shrinks rec) (h : Keeps rec) : Keeps (combineStep rec) := by
  intro op l r
  refine combineStep_returns ?equation fun left _ => ?_
  case equation =>
    rintro rfl _
    exact .plain rfl nofun
  unfold combineOperands
  split
  next level hop =>
    split
    next leaves =>
      rw [Bool.and_eq_true] at leaves
      refine atomicWith_full hs h (fun level _ => ?_) fun _ _ operator => ?_
      · cases r with
        | leaf => rfl
        | _ => cases leaves.2
      · rw [leaves.1] at operator
        cases operator
    next =>
      -- what joins is no larger than the operand that it joins into
      have joined {t : Expr} (ht : t.size ≤ l.size + r.size) {new : Leaf} {inverted : Bool} :
          Returns (spliceWith rec level new inverted t) fun o => ∀ u, o = some u → Full op l r u := by
        refine (spliceWith_size hs).mono fun o ho u hu => ?_
        have small := ho u hu
        exact full_of_lt (by omega)
      refine chainWith_returns ?right ?left ?apart
      case right => exact fun _ _ => joined (Nat.le_add_right _ _)
      case left => exact fun _ _ => joined (Nat.le_add_left _ _)
      case apart => exact reassociate_full hs h hop (size_pos_of_present left)
  next hop =>
    refine atomicWith_full hs h (fun level h' => ?_) fun mul => ?_
    · rw [hop] at h'
      cases h'
    · rw [mul] at hop
      cases hop

/-- Rounds of combination that end keep what is in front. -/
theorem combineFrom_keeps (n : ℕ) : Keeps (combineFrom giveUp n) := by
  induction n with
  | zero => exact fun _ _ _ => .throw _
  | succ n ih => exact combineStep_keeps (combineFrom_size giveUp_size n) ih

end Expr

end SymbolicAlgebra
