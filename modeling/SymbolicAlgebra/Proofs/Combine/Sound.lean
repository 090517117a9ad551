import SymbolicAlgebra.Proofs.Combine.Leaves
import SymbolicAlgebra.Proofs.Combine.Shape

/-!
# Combining keeps the meaning

The tree that `Expr.combine` builds for `l op r` means what the operator makes of the
meanings of `l` and `r`, wherever that is defined; and it is built without a failure, unless
a coefficient stops being exact. `Expr.negate` builds a tree with the opposite meaning.

The proof goes rule by rule, over a combination that is sound (`Sound`) for the smaller trees
that a rule calls it on, and then by induction on the rounds. The one rule that looks below
the root is `spliceWith`. There the statement has to say by what the new leaf changes the
chain at each depth (`Level.join`), and why it may be divided by in a place where nothing has
divided by it yet: inside a chain of factors the leaf is a divisor already, and a divisor
that is no chain is not zero (`Admits`). The shape of combined trees is what makes these two
the only cases.
-/

namespace SymbolicAlgebra

/-! ## Values of chains -/

section

variable {K : Type} [Field K]

/-- What a chain of a kind becomes by one more leaf, with a sign or exponent. -/
def Level.join : Level → Bool → K → K → K
  | .sum, false, a, b => a + b
  | .sum, true, a, b => a - b
  | .product, false, a, b => a * b
  | .product, true, a, b => a / b

/-- A leaf that divides a chain is not zero. -/
def Level.Defined (level : Level) (inverted : Bool) (b : K) : Prop :=
  level = .product → inverted = true → b ≠ 0

theorem Level.defined_false {level : Level} {b : K} : level.Defined false b := by
  rintro - ⟨⟩

namespace Binary

variable {op inner : Binary} {level : Level}

/-- An operator of a chain joins its right operand. -/
theorem value_eq_join (h : op.level = some level) (a b : K) :
    op.value a b = level.join op.isInverted a b := by
  cases op <;> cases h <;> rfl

/-- What an operator divides by is not zero. -/
theorem defined (h : op.level = some level) {b : K} (nonzero : op = .div → b ≠ 0) :
    level.Defined op.isInverted b := by
  rintro rfl inverted
  cases op <;> cases h <;> cases inverted
  exact nonzero rfl

/-- A leaf joined into the left operand joins the chain. -/
theorem value_join_left (h : op.level = some level) (inverted : Bool) (a b c : K) :
    op.value (level.join inverted a c) b = level.join inverted (op.value a b) c := by
  cases op <;> cases h <;> cases inverted <;> simp only [value, Level.join] <;> ring

/-- A leaf joined into the right operand joins the chain with the sign or exponent turned by
the operator. -/
theorem value_join_right (h : op.level = some level) (inverted : Bool) (a b c : K) :
    op.value a (level.join (inverted != op.isInverted) b c) =
      level.join inverted (op.value a b) c := by
  cases op <;> cases h <;> cases inverted <;>
    simp [value, isInverted, Level.join, div_eq_mul_inv] <;> ring

/-- The operator that joins the second part of a chain on the right. -/
def second (op inner : Binary) : Binary := if op.isInverted then inner.flip else inner

theorem level_second (h' : inner.level = some level) : (op.second inner).level = some level := by
  cases op <;> cases inner <;> cases h' <;> rfl

/-- A chain on the right is taken in part by part. -/
theorem value_reassociate (h : op.level = some level) (h' : inner.level = some level)
    (a b c : K) : op.value a (inner.value b c) = (op.second inner).value (op.value a b) c := by
  cases op <;> cases h <;> cases inner <;> cases h' <;>
    simp [value, second, isInverted, flip, div_eq_mul_inv] <;> ring

/-- Nothing added changes nothing. -/
theorem value_zero (h : op.level = some .sum) (a : K) : op.value a 0 = a := by
  cases op <;> cases h <;> simp [value]

/-- A summand with the opposite sign and the opposite operator. -/
theorem value_flip_neg (h : op.level = some .sum) (a b : K) :
    op.flip.value a (-b) = op.value a b := by
  cases op <;> cases h <;> simp [value, flip, sub_eq_add_neg]

end Binary

end

namespace Expr

variable {K : Type} [Field K] [Coefficients K] {I : Interpretation K} {σ : String → K}
  {op : Binary} {l r t : Expr} {a b v : K}

theorem means_ofInt {least n : ℤ} (h : n.natAbs ≤ 2 ^ 53) :
    MeansFrom least I σ (ofInt n) (n : K) :=
  .number (Number.standsFor_ofInt h)

theorem means_zero {least : ℤ} : MeansFrom least I σ zero 0 := .number Number.standsFor_zero

theorem means_one {least : ℤ} : MeansFrom least I σ one 1 := .number Number.standsFor_one

theorem means_two {least : ℤ} : MeansFrom least I σ two 2 := by
  rw [← Int.cast_ofNat]
  exact means_ofInt (by norm_num)

theorem means_negOne {least : ℤ} : MeansFrom least I σ negOne (-1) := by
  rw [← Int.cast_one, ← Int.cast_neg]
  exact means_ofInt (by norm_num)

/-- A variable means its value. -/
theorem means_ofName {least : ℤ} (h : least ≤ 1) (x : String) :
    MeansFrom least I σ (ofName x) (σ x) := by
  have power : Value.one.Is ((1 : ℤ) : ℚ) := by
    rw [Int.cast_one]
    exact Value.is_one
  rw [← one_mul (σ x), ← zpow_one (σ x)]
  exact .monomial Number.standsFor_one power (.inr h)

variable [Tolerance] {rec : Exactness → Combiner}

/-- Combined trees, whatever their leaves. -/
abbrev Flat (t : Expr) : Prop := t.Shaped fun _ => True

theorem Shaped.flat {A : Leaf → Prop} (h : t.Shaped A) : t.Flat := h.mono fun _ _ => True.intro

theorem flat_ofInt (n : ℤ) : (ofInt n).Flat := True.intro

/-- A combination that keeps the shape and, on shaped trees, the meaning. -/
structure Sound (I : Interpretation K) (σ : String → K) (rec : Exactness → Combiner) : Prop where
  shape (e : Exactness) : KeepsShape (fun _ => True) (rec e)
  means {op : Binary} {l r : Expr} {v : K} : l.Flat → r.Flat →
    MeansStrictly I σ (binary op l r) v → Exactly (fun e => rec e op l r) (MeansStrictly I σ · v)

/-! ## Signs -/

/-- Negation turns the sign of the meaning. -/
theorem negateWith_exactly (hrec : Sound I σ rec) (ht : t.Flat) (hv : MeansStrictly I σ t v) :
    Exactly (fun e => negateWith (rec e) t) fun t' => MeansStrictly I σ t' (-v) ∧ t'.Flat := by
  have flat : ∀ {t : Expr}, t.Flat → Returns (@negateWith _ .free (rec .free) t) Flat := fun ht =>
    negateWith_shaped Leaf.closed_true (hrec.shape _) ht
  refine Exactly.keep ?_ (flat ht)
  -- an equation, and what is not a chain, is multiplied by minus one
  have minus : ∀ {t : Expr} {v : K}, t.Flat → MeansStrictly I σ t v →
      Exactly (fun e => rec e .mul negOne t) (MeansStrictly I σ · (-v)) := fun ht hv => by
    rw [neg_eq_neg_one_mul]
    exact hrec.means (flat_ofInt _) ht (.mul means_negOne hv)
  induction hv with
  | number value => exact Exactly.map (Leaf.neg_exactly (.number value))
  | monomial mult power defined =>
    exact Exactly.map (Leaf.neg_exactly (.monomial mult power defined))
  | equals hl hr => exact minus ht (.equals hl hr)
  | add hl hr ih _ =>
    rw [neg_add']
    exact Exactly.bind ((ih ht.1).keep (flat ht.1)) fun l' h => hrec.means h.2 ht.2.1 (.sub h.1 hr)
  | sub hl hr =>
    rw [neg_sub]
    exact hrec.means ht.2.1 ht.1 (.sub hr hl)
  | mul hl hr ih _ =>
    rw [neg_mul_eq_neg_mul]
    exact Exactly.bind ((ih ht.1).keep (flat ht.1)) fun l' h => hrec.means h.2 ht.2.1 (.mul h.1 hr)
  | div hl hr hb ih _ =>
    rw [← neg_div]
    exact Exactly.bind ((ih ht.1).keep (flat ht.1)) fun l' h =>
      hrec.means h.2 ht.2.1 (.div h.1 hr hb)
  | pow hl exponent defined => exact minus ht (.pow hl exponent defined)
  | factorial ht' value => exact minus ht (.factorial ht' value)
  | apply ht' value => exact minus ht (.apply ht' value)

/-! ## The root -/

/-- Two leaves make the leaf that the operator makes of them, and any other operands a
node. -/
theorem mergeLeaves_exactly (h : MeansStrictly I σ (binary op l r) v) :
    Exactly (fun _ => mergeLeaves op l r) (MeansStrictly I σ · v) := by
  cases l with
  | leaf a =>
    cases r with
    | leaf b =>
      refine Exactly.bind (Leaf.combine?_exactly h) fun o ho => ?_
      cases o with
      | some c => exact Exactly.pure (ho c rfl)
      | none => exact Exactly.pure h
    | _ => exact Exactly.pure h
  | _ => exact Exactly.pure h

/-- Sums and differences: a zero, equal operands, or a sign that moves out of the right one. -/
theorem atomicSum_exactly (hrec : Sound I σ rec) (op : Binary) (hop : op.level = some .sum)
    (hfl : l.Flat) (hfr : r.Flat) (hl : MeansStrictly I σ l a) (hr : MeansStrictly I σ r b) :
    Exactly (fun e => atomicSum (rec e) op l r) (MeansStrictly I σ · (op.value a b)) := by
  have merged : MeansStrictly I σ (binary op l r) (op.value a b) :=
    (MeansFrom.binary_iff (Binary.ne_pow_of_level hop)).mpr
      ⟨a, b, hl, hr, fun h => by simp [h, Binary.level] at hop, rfl⟩
  have subtraction : op ≠ .add → op = .sub := by
    cases op <;> cases hop <;> simp
  refine Exactly.ask hr.isNumberZero_eq (fun zero => Exactly.pure ?_) ?_
  · rw [zero, Binary.value_zero hop]
    exact hl
  refine Exactly.ask hl.isNumberZero_eq (fun zero => ?leftZero) ?_
  case leftZero =>
    refine Exactly.ite (fun plus => Exactly.pure ?_) fun minus => ?_
    · rw [zero, plus]
      show MeansStrictly I σ r (0 + b)
      rw [zero_add]
      exact hr
    · rw [zero, subtraction minus]
      show Exactly _ fun t => MeansStrictly I σ t (0 - b)
      rw [zero_sub]
      exact (negateWith_exactly hrec hfr hr).mono fun _ h => h.1
  refine Exactly.ask (hr.same_eq hl) (fun same => ?same) ?_
  case same =>
    refine Exactly.ite (fun plus => ?_) fun minus => Exactly.pure ?_
    · rw [same, plus]
      show Exactly _ fun t => MeansStrictly I σ t (a + a)
      rw [← two_mul]
      exact hrec.means (flat_ofInt 2) hfl (.mul means_two hl)
    · rw [same, subtraction minus]
      show MeansStrictly I σ zero (a - a)
      rw [sub_self]
      exact means_zero
  obtain ⟨n, sgn⟩ := hr.sgn_eq
  refine Exactly.bind (Exactly.of_eq sgn rfl) fun _ hn => ?_
  subst hn
  refine Exactly.ite (fun _ => ?_) fun _ => mergeLeaves_exactly merged
  -- the sign of the right operand turns, and the operator with it
  refine Exactly.bind (negateWith_exactly hrec hfr hr) fun r' h => ?_
  rw [← Binary.value_flip_neg hop]
  refine hrec.means hfl h.2 ((MeansFrom.binary_iff ?_).mpr ⟨a, -b, hl, h.1, ?_, rfl⟩)
  · cases op <;> cases hop <;> decide
  · cases op <;> cases hop <;> simp [Binary.flip]

/-- Products: a zero or one, a square, or a number that moves in front. -/
theorem atomicProduct_exactly (hrec : Sound I σ rec) (hfl : l.Flat)
    (hl : MeansStrictly I σ l a) (hr : MeansStrictly I σ r b) :
    Exactly (fun e => atomicProduct (rec e) l r) (MeansStrictly I σ · (a * b)) := by
  -- the identities are tried in turn, and each leaves a question with the others answered
  refine Exactly.ask hl.isZero_eq (fun zero => Exactly.pure ?_) ?_
  · rw [zero, zero_mul]
    exact means_zero
  refine Exactly.ask hr.isZero_eq (fun zero => Exactly.pure ?_) ?_
  · rw [zero, mul_zero]
    exact means_zero
  refine Exactly.ask hl.isOne_eq (fun one => Exactly.pure ?_) ?_
  · rw [one, one_mul]
    exact hr
  refine Exactly.ask hr.isOne_eq (fun one => Exactly.pure ?_) ?_
  · rw [one, mul_one]
    exact hl
  refine Exactly.ask (hr.same_eq hl) (fun same => ?same) ?differ
  case same =>
    refine Exactly.ite (fun leaf => mergeLeaves_exactly (.mul hl hr)) fun operator => ?_
    rw [same, ← sq, ← zpow_ofNat]
    have two : (Number.ofInt 2).Is (2 : ℤ) := Number.is_ofInt (by norm_num)
    exact hrec.means hfl (flat_ofInt 2) (.pow hl two (.inr (by norm_num)))
  case differ =>
    refine Exactly.ite (fun swap => Exactly.pure ?_) fun _ => mergeLeaves_exactly (.mul hl hr)
    rw [mul_comm]
    exact .mul hr hl

/-- Quotients: a divisor that is not zero is not said to be, and then a one, a minus one or equal
operands. -/
theorem atomicQuotient_exactly (hrec : Sound I σ rec) (hfl : l.Flat)
    (hl : MeansStrictly I σ l a) (hr : MeansStrictly I σ r b) (hb : b ≠ 0) :
    Exactly (fun e => atomicQuotient (rec e) l r) (MeansStrictly I σ · (a / b)) := by
  refine Exactly.ask hr.isZero_eq (fun zero => absurd zero hb) ?_
  refine Exactly.ask hl.isZero_eq (fun zero => Exactly.pure ?_) ?_
  · rw [zero, zero_div]
    exact means_zero
  refine Exactly.ask hr.isOne_eq (fun one => Exactly.pure ?_) ?_
  · rw [one, div_one]
    exact hl
  refine Exactly.ask hr.isNegOne_eq (fun negOne => ?_) ?_
  · rw [negOne, div_neg, div_one]
    exact (negateWith_exactly hrec hfl hl).mono fun _ h => h.1
  refine Exactly.ask (hr.same_eq hl) (fun same => Exactly.pure ?_)
    (mergeLeaves_exactly (.div hl hr hb))
  rw [same, div_self (same ▸ hb)]
  exact means_one

/-- Powers with integer exponents. -/
theorem raise_exactly {z : Number} {n : ℤ} (hl : MeansStrictly I σ l a) (hz : z.Is n)
    (defined : a ≠ 0 ∨ 0 ≤ n) :
    Exactly (fun _ => raise l (leaf (.number z))) (MeansStrictly I σ · (a ^ n)) := by
  -- an exponent is an integer, so its tests are settled and not only asked
  refine Exactly.decided hz.isZero_eq (fun zero => Exactly.pure ?_) fun _ => ?_
  · rw [Int.cast_eq_zero.mp zero, zpow_zero]
    exact means_one
  refine Exactly.decided (hz.same_eq Number.is_one) (fun one => Exactly.pure ?_) fun _ => ?_
  · rw [Int.cast_eq_one.mp one, zpow_one]
    exact hl
  refine Exactly.ask hl.isOne_eq (fun one => Exactly.pure ?_) ?_
  · rw [one, one_zpow]
    exact one ▸ hl
  have positive : ∃ c, isPositiveNumber (leaf (.number z)) = .ok c ∧ (c = true → 0 < n) := by
    obtain ⟨s, sgn, pos, -⟩ := hz.1.sgn_eq
    refine ⟨decide (0 < s), ?_, fun yes => ?_⟩
    · show (z.re.sgn >>= fun n => pure (decide (0 < n))) = _
      rw [sgn]
      rfl
    · exact Int.cast_pos.mp (pos.mp (of_decide_eq_true yes))
  refine Exactly.ask (Calc.both_answer hl.isNumberZero_eq positive)
    (fun both => Exactly.pure ?_) (mergeLeaves_exactly (.pow hl hz defined))
  rw [both.1, zero_zpow n both.2.ne']
  exact means_zero

/-- The identities at the root keep the meaning. -/
theorem atomicWith_exactly (hrec : Sound I σ rec) (hfl : l.Flat) (hfr : r.Flat)
    (h : MeansStrictly I σ (binary op l r) v) :
    Exactly (fun e => atomicWith (rec e) op l r) (MeansStrictly I σ · v) := by
  cases h with
  | equals hl hr => exact Exactly.pure (.equals hl hr)
  | add hl hr => exact atomicSum_exactly hrec .add rfl hfl hfr hl hr
  | sub hl hr => exact atomicSum_exactly hrec .sub rfl hfl hfr hl hr
  | mul hl hr => exact atomicProduct_exactly hrec hfl hl hr
  | div hl hr hb => exact atomicQuotient_exactly hrec hfl hl hr hb
  | pow hl hz defined => exact raise_exactly hl hz defined

/-! ## A leaf in a chain -/

/-- If two leaves of a chain make one, the new leaf was not divided by zero. -/
theorem mergeInto?_exactly {level : Level} {inverted : Bool} {old new : Leaf}
    (ha : MeansStrictly I σ (leaf old) a) (hb : MeansStrictly I σ (leaf new) b)
    (h : level.Defined inverted b ∨ a ≠ 0) :
    Exactly (fun _ => Leaf.mergeInto? level inverted old new) fun o => ∀ c, o = some c →
      level.Defined inverted b ∧ MeansStrictly I σ (leaf c) (level.join inverted a b) := by
  cases level with
  | sum =>
    refine (Leaf.mergeInto?_sum inverted ha hb).mono fun o ho c hc => ⟨nofun, ?_⟩
    cases inverted <;> exact ho c hc
  | product =>
    cases inverted with
    | false => exact (Leaf.mergeInto?_product ha hb).mono fun o ho c hc => ⟨nofun, ho c hc⟩
    | true =>
      have nonzero : a ≠ 0 ∨ b ≠ 0 := h.symm.imp_right fun defined => defined rfl rfl
      refine (Leaf.mergeInto?_quotient ha hb nonzero).mono fun o ho c hc => ?_
      obtain ⟨divisor, quotient⟩ := ho c hc
      exact ⟨fun _ _ => divisor, quotient⟩

/-- Why a leaf may divide a tree: it is a divisor already, or the tree is one, and no chain. -/
def Admits (level : Level) (inverted : Bool) (t : Expr) (a b : K) : Prop :=
  level.Defined inverted b ∨ (a ≠ 0 ∧ t.isProduct = false)

omit [Coefficients K] [Tolerance] in
/-- A chain is not a divisor, so the leaf is one. -/
theorem Admits.defined {level : Level} {inverted : Bool} (h : Admits level inverted t a b)
    (ht : t.inChain level = true) : level.Defined inverted b := by
  rcases h with h | ⟨-, hp⟩
  · exact h
  · rintro rfl
    exact absurd ht (Bool.eq_false_iff.mp hp)

/-- A leaf that joins into a tree changes the meaning of the tree by its own. -/
theorem spliceWith_exactly (hrec : Sound I σ rec) {level : Level} {new : Leaf} {inverted : Bool}
    (hnew : MeansStrictly I σ (leaf new) b) (ht : t.Flat) (hv : MeansStrictly I σ t a)
    (admits : Admits level inverted t a b) :
    Exactly (fun e => spliceWith (rec e) level new inverted t) fun o => ∀ t', o = some t' →
      level.Defined inverted b ∧ MeansStrictly I σ t' (level.join inverted a b) := by
  induction t generalizing inverted a with
  | absent => cases hv
  | leaf old =>
    have merged := mergeInto?_exactly hv hnew (admits.imp_right fun h => h.1)
    refine Exactly.bind merged fun o ho => Exactly.pure fun t' ht' => ?_
    obtain ⟨c, hc, rfl⟩ := Option.map_eq_some_iff.mp ht'
    exact ho c hc
  | node op l r ihl ihr =>
    cases op with
    | binary op =>
      refine Exactly.ite (fun hop => ?_) fun _ => Exactly.none
      obtain ⟨hfl, hfr, divisor, -⟩ := ht
      obtain ⟨c, d, hl, hr, nonzero, rfl⟩ :=
        (MeansFrom.binary_iff (Binary.ne_pow_of_level hop)).mp hv
      have defined : level.Defined inverted b :=
        admits.defined (by simp [inChain, Op.continues, hop])
      -- what the root makes of the chain below it, once the leaf is in
      have rebuilt : ∀ {l' r' : Expr} {c' d' : K}, l'.Flat → r'.Flat → MeansStrictly I σ l' c' →
          MeansStrictly I σ r' d' → (op = .div → d' ≠ 0) →
          op.value c' d' = level.join inverted (op.value c d) b →
          Exactly (fun e => some <$> atomicWith (rec e) op l' r') fun o => ∀ t', o = some t' →
            level.Defined inverted b ∧
              MeansStrictly I σ t' (level.join inverted (op.value c d) b) := by
        intro l' r' c' d' hfl hfr hl hr nonzero value
        have node := (MeansFrom.binary_iff (Binary.ne_pow_of_level hop)).mpr
          ⟨c', d', hl, hr, nonzero, value.symm⟩
        refine Exactly.map ((atomicWith_exactly hrec hfl hfr node).mono fun t ht => ?_)
        rintro _ ⟨rfl⟩
        exact ⟨defined, ht⟩
      have shaped {t : Expr} (ht : t.Flat) (inverted : Bool) :
          Returns (@spliceWith _ .free (rec .free) level new inverted t) fun o =>
            ∀ u, o = some u → u.Flat :=
        spliceWith_shaped Leaf.closed_true (hrec.shape _) True.intro ht
      refine Exactly.bind ((ihl hfl hl (.inl defined)).keep (shaped hfl _)) fun o ho => ?_
      cases o with
      | some l' =>
        obtain ⟨-, hl'⟩ := ho.1 l' rfl
        exact rebuilt (ho.2 l' rfl) hfr hl' hr nonzero (Binary.value_join_left hop inverted c d b)
      | none =>
        have admits' : Admits level (inverted != op.isInverted) r d b := by
          cases op with
          | div => exact .inr ⟨nonzero rfl, divisor rfl⟩
          | mul => exact .inl (by simpa [Binary.isInverted] using defined)
          | _ => cases hop <;> exact .inl (by simp [Level.Defined])
        refine Exactly.bind ((ihr hfr hr admits').keep (shaped hfr _)) fun o ho => ?_
        cases o with
        | some r' =>
          obtain ⟨defined', hr'⟩ := ho.1 r' rfl
          refine rebuilt hfl (ho.2 r' rfl) hl hr' (fun hdiv => ?_)
            (Binary.value_join_right hop inverted c d b)
          -- a divisor stays other than zero, as neither it nor the leaf is zero
          subst hdiv
          cases hop
          cases inverted with
          | false => exact div_ne_zero (nonzero rfl) (defined' rfl rfl)
          | true => exact mul_ne_zero (nonzero rfl) (defined rfl rfl)
        | none => exact Exactly.none
    | _ => exact Exactly.none

/-- A leaf on the right joins into the chain on the left. -/
theorem joinRight_exactly (hrec : Sound I σ rec) {level : Level} (hop : op.level = some level)
    (hfl : l.Flat) (hv : MeansStrictly I σ (binary op l r) v) :
    Exactly (fun e => joinRight (rec e) level op l r)
      fun o => ∀ t, o = some t → MeansStrictly I σ t v := by
  obtain ⟨a, b, hl, hr, nonzero, rfl⟩ :=
    (MeansFrom.binary_iff (Binary.ne_pow_of_level hop)).mp hv
  cases r with
  | leaf new =>
    refine Exactly.ite (fun _ => ?_) fun _ => Exactly.none
    rw [Binary.value_eq_join hop]
    have admits : Admits level op.isInverted l a b := .inl (Binary.defined hop nonzero)
    exact (spliceWith_exactly hrec hr hfl hl admits).mono fun o ho t ht => (ho t ht).2
  | _ => exact Exactly.none

/-- A leaf on the left joins into the chain on the right. -/
theorem joinLeft_exactly (hrec : Sound I σ rec) {level : Level} (hop : op.level = some level)
    (hfr : r.Flat) (hv : MeansStrictly I σ (binary op l r) v) :
    Exactly (fun e => joinLeft (rec e) level op l r)
      fun o => ∀ t, o = some t → MeansStrictly I σ t v := by
  obtain ⟨a, b, hl, hr, -, rfl⟩ := (MeansFrom.binary_iff (Binary.ne_pow_of_level hop)).mp hv
  cases l with
  | leaf new =>
    refine Exactly.ite (fun both => ?_) fun _ => Exactly.none
    have swapped : op.value a b = level.join false b a := by
      cases op <;> cases hop <;>
        simp_all [Binary.isCommutative, Binary.value, Level.join, add_comm, mul_comm]
    rw [swapped]
    exact (spliceWith_exactly hrec hl hfr hr (.inl Level.defined_false)).mono
      fun o ho t ht => (ho t ht).2
  | _ => exact Exactly.none

/-! ## Chains -/

omit [Tolerance] in
/-- The parts of a chain on the right, one after the other. -/
theorem means_reassociate {least : ℤ} {inner : Binary} {level : Level} {x y : Expr}
    (hop : op.level = some level) (hinner : inner.level = some level)
    (hv : MeansFrom least I σ (binary op l (binary inner x y)) v) :
    ∃ c, MeansFrom least I σ (binary op l x) c ∧ ∀ {t : Expr}, MeansFrom least I σ t c →
      MeansFrom least I σ (binary (op.second inner) t y) v := by
  obtain ⟨a, b, hl, hr, nonzero, rfl⟩ :=
    (MeansFrom.binary_iff (Binary.ne_pow_of_level hop)).mp hv
  obtain ⟨c, d, hx, hy, nonzero', rfl⟩ :=
    (MeansFrom.binary_iff (Binary.ne_pow_of_level hinner)).mp hr
  -- a division has its condition on the first call or on the second, never on both
  have first : op = .div → c ≠ 0 := by
    rintro rfl zero
    refine nonzero rfl ?_
    cases inner <;> cases hop <;> cases hinner <;> simp [Binary.value, zero]
  have last : op.second inner = .div → d ≠ 0 := by
    intro hdiv zero
    cases op <;> cases hop <;> cases inner <;> cases hinner <;> cases hdiv <;>
      simp_all [Binary.value]
  refine ⟨op.value a c, ?_, fun ht => ?_⟩
  · exact (MeansFrom.binary_iff (Binary.ne_pow_of_level hop)).mpr ⟨a, c, hl, hx, first, rfl⟩
  · exact (MeansFrom.binary_iff (Binary.ne_pow_of_level (Binary.level_second hinner))).mpr
      ⟨_, d, ht, hy, last, Binary.value_reassociate hop hinner a c d⟩

/-- A chain on the right is taken in part by part, or it is none of this kind. -/
theorem reassociate_exactly (hrec : Sound I σ rec) {level : Level} (hop : op.level = some level)
    (hfl : l.Flat) (hfr : r.Flat) (hv : MeansStrictly I σ (binary op l r) v) :
    Exactly (fun e => reassociate (rec e) level op l r) (MeansStrictly I σ · v) := by
  -- a chain on the right is taken apart; anything else goes to the root
  by_cases chain : ∃ inner x y, r = binary inner x y ∧ inner.level = some level
  · obtain ⟨inner, x, y, rfl, hinner⟩ := chain
    refine Exactly.ite (fun _ => ?_) fun h => absurd hinner h
    obtain ⟨c, first, second⟩ := means_reassociate hop hinner hv
    have shaped := hrec.shape .free hfl hfr.1 fun hpow => absurd hpow (Binary.ne_pow_of_level hop)
    refine Exactly.bind ((hrec.means hfl hfr.1 first).keep shaped) fun t ht => ?_
    exact hrec.means ht.2 hfr.2.1 (second ht.1)
  · have root : ∀ [Exactness] (rec : Combiner),
        reassociate rec level op l r = atomicWith rec op l r := by
      intro _ rec
      unfold reassociate
      split
      next inner x y => exact if_neg fun h => chain ⟨inner, x, y, rfl, h⟩
      next => rfl
    simp only [root]
    exact atomicWith_exactly hrec hfl hfr hv

/-- Chains keep their meaning in whatever way an operand joins them. -/
theorem chainWith_exactly (hrec : Sound I σ rec) {level : Level} (hop : op.level = some level)
    (hfl : l.Flat) (hfr : r.Flat) (hv : MeansStrictly I σ (binary op l r) v) :
    Exactly (fun e => chainWith (rec e) level op l r) (MeansStrictly I σ · v) := by
  refine Exactly.bind (joinRight_exactly hrec hop hfl hv) fun o ho => ?_
  cases o with
  | some t => exact Exactly.pure (ho t rfl)
  | none =>
    refine Exactly.bind (joinLeft_exactly hrec hop hfr hv) fun o ho => ?_
    cases o with
    | some t => exact Exactly.pure (ho t rfl)
    | none => exact reassociate_exactly hrec hop hfl hfr hv

/-! ## Rounds -/

/-- Operands that are there are combined by the identities or as a chain. -/
theorem combineOperands_exactly (hrec : Sound I σ rec) (hfl : l.Flat) (hfr : r.Flat)
    (hv : MeansStrictly I σ (binary op l r) v) :
    Exactly (fun e => combineOperands (rec e) op l r) (MeansStrictly I σ · v) := by
  have root := atomicWith_exactly hrec hfl hfr hv
  cases hop : op.level with
  | none =>
    simp only [combineOperands, hop]
    exact root
  | some level =>
    simp only [combineOperands, hop]
    exact Exactly.ite (fun _ => root) fun _ => chainWith_exactly hrec hop hfl hfr hv

omit [Tolerance] in
theorem present_eq {least : ℤ} (h : MeansFrom least I σ t v) : t.present = .ok t := by
  cases h <;> rfl

/-- One round keeps the meaning if the combination below it does. -/
theorem sound_combineStep (hrec : Sound I σ rec) : Sound I σ fun e => combineStep (rec e) where
  shape _ := fun hl hr _ => combineStep_shaped Leaf.closed_true (hrec.shape _) hl hr
  means {op l r v} hfl hfr hv := by
    refine Exactly.ite (fun _ => Exactly.pure hv) fun equation => ?_
    -- what has a meaning is there
    obtain ⟨a, b, hl, hr⟩ : ∃ a b, MeansStrictly I σ l a ∧ MeansStrictly I σ r b := by
      cases hv with
      | pow hl exponent => exact ⟨_, _, hl, .number ⟨_, exponent, Coefficients.intCast _⟩⟩
      | _ => exact ⟨_, _, ‹_›, ‹_›⟩
    refine Exactly.bind (Exactly.of_eq (present_eq hl) rfl) fun l' h => ?_
    subst h
    refine Exactly.bind (Exactly.of_eq (present_eq hr) rfl) fun r' h => ?_
    subst h
    exact combineOperands_exactly hrec hfl hfr hv

/-- Rounds on top of a combination that keeps the meaning keep it. -/
theorem sound_combineFrom {bottom : Combiner} (h : Sound I σ fun _ => bottom) (n : ℕ) :
    Sound I σ fun _ => combineFrom bottom n := by
  induction n with
  | zero => exact h
  | succ n ih => exact sound_combineStep ih

omit [Tolerance] in
/-- Nesting a chain to the left keeps the meaning. -/
theorem means_leftNested {least : ℤ} (hv : MeansFrom least I σ (binary op l r) v) :
    MeansFrom least I σ (leftNested op l r) v := by
  fun_induction leftNested op l r generalizing v with
  | case1 op l inner x y h ih ih' =>
    rw [Bool.and_eq_true, Option.isSome_iff_exists, beq_iff_eq] at h
    obtain ⟨⟨level, hop⟩, hinner⟩ := h
    obtain ⟨c, first, second⟩ := means_reassociate hop (hinner.trans hop) hv
    exact ih' (second (ih first))
  | case2 => exact hv
  | case3 => exact hv

theorem sound_nested : Sound I σ fun _ => nested where
  shape _ := nested_shaped
  means _ _ hv := Exactly.pure (means_leftNested hv)

/-- Combining keeps the meaning. -/
theorem sound_combine : Sound I σ fun _ => combine where
  shape _ := fun hl hr _ => combine_shaped Leaf.closed_true hl hr
  means hfl hfr hv := (sound_combineFrom sound_nested _).means hfl hfr hv

/-- A combined tree with this meaning. -/
structure Combined (I : Interpretation K) (σ : String → K) (v : K) (t : Expr) : Prop where
  means : MeansStrictly I σ t v
  flat : t.Flat

theorem combined_one : Combined I σ 1 one := ⟨means_one, True.intro⟩

theorem combined_zero : Combined I σ 0 zero := ⟨means_zero, True.intro⟩

theorem combined_number {z : Number} (h : z.StandsFor a) : Combined I σ a (number z) :=
  ⟨.number h, True.intro⟩

/-- Combining builds a combined tree with the meaning of the node. -/
theorem combine_exactly (hl : l.Flat) (hr : r.Flat) (hv : MeansStrictly I σ (binary op l r) v) :
    Exactly (fun _ => combine op l r) (Combined I σ v) := by
  have shaped : Returns (combine op l r) Flat := combine_shaped Leaf.closed_true hl hr
  exact ((sound_combine.means hl hr hv).keep shaped).mono fun _ h => ⟨h.1, h.2⟩

/-- Negation builds a combined tree with the opposite meaning. -/
theorem negate_exactly (h : Combined I σ v t) :
    Exactly (fun _ => negate t) (Combined I σ (-v)) :=
  (negateWith_exactly sound_combine h.flat h.means).mono fun _ h => ⟨h.1, h.2⟩

/-! ## Strict meanings -/

/-- Without a power of zero every meaning is strict. -/
theorem means_strictly (ht : t.Shaped Leaf.HasPower) (hv : Means I σ t v) :
    MeansStrictly I σ t v := by
  induction hv with
  | number value => exact .number value
  -- the shape rules out the exponent zero, which is all that the strict meaning adds
  | @monomial x m p c k mult power defined =>
    have nonzero : k ≠ 0 := by
      rintro rfl
      have zero : p.isZero = .ok false := ht
      rw [power.isZero_eq] at zero
      cases zero
    exact .monomial mult power (defined.imp_right fun _ => by omega)
  | equals _ _ ihl ihr => exact .equals (ihl ht.1) (ihr ht.2.1)
  | add _ _ ihl ihr => exact .add (ihl ht.1) (ihr ht.2.1)
  | sub _ _ ihl ihr => exact .sub (ihl ht.1) (ihr ht.2.1)
  | mul _ _ ihl ihr => exact .mul (ihl ht.1) (ihr ht.2.1)
  | div _ _ hb ihl ihr => exact .div (ihl ht.1) (ihr ht.2.1) hb
  | pow _ exponent defined ih => exact .pow (ih ht.1) exponent defined
  | factorial _ value ih => exact .factorial (ih ht.1) value
  | apply _ value ih => exact .apply (ih ht.2.1) value

end Expr

end SymbolicAlgebra
