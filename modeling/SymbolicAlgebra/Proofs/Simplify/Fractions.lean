import SymbolicAlgebra.Proofs.Meaning
import SymbolicAlgebra.Rewrite.Fractions

/-!
# Equivalences of fractions keep the meaning

Each entry of `Expr.equivalences` turns a tree into one that means the same wherever the
first one means something (`means_equivalences`). All but one are identities of a field, and
the work is to see that no denominator of the new tree is zero.

`Expr.cancelFactor` works on a list of factors instead. What such a list means is
`MeansFactors`, which also says that no factor below the line is zero; taking a tree apart,
dropping a pair and building a tree are each shown against it.
-/

namespace SymbolicAlgebra

namespace Binary

variable {K : Type} [Field K] {op : Binary} {a b c d : K}

/-- A fraction of a sum. -/
theorem value_div (h : op.level = some .sum) : op.value a b / c = op.value (a / c) (b / c) := by
  cases op <;> cases h
  · exact add_div a b c
  · exact sub_div a b c

/-- A sum of fractions. -/
theorem div_value_div (h : op.level = some .sum) (hb : b ≠ 0) (hd : d ≠ 0) :
    op.value (a / b) (c / d) = op.value (a * d) (c * b) / (b * d) := by
  rw [value_div h, mul_div_mul_right a b hd, mul_comm c b, mul_div_mul_left c d hb]

theorem value_div_right (h : op.level = some .sum) (hd : d ≠ 0) :
    op.value a (c / d) = op.value (a * d) c / d := by
  rw [value_div h, mul_div_cancel_right₀ a hd]

theorem value_div_left (h : op.level = some .sum) (hb : b ≠ 0) :
    op.value (a / b) c = op.value a (c * b) / b := by
  rw [value_div h, mul_div_cancel_right₀ c hb]

end Binary

namespace Expr

variable {K : Type} [Field K] [Coefficients K] {least : ℤ} {I : Interpretation K}
  {σ : String → K} {t t' : Expr} {v : K}

/-! ## Identities -/

/-- A sum over a denominator means the sum of two fractions. -/
theorem means_splitSum (hv : MeansFrom least I σ t v) (h : t.splitSum = some t') :
    MeansFrom least I σ t' v := by
  unfold splitSum at h
  split at h
  next op l r c =>
    split at h
    next hop =>
      cases h
      cases hv with
      | div hl hc nonzero =>
        have hpow := Binary.ne_pow_of_level hop
        obtain ⟨a, b, ha, hb, -, rfl⟩ := (MeansFrom.binary_iff hpow).mp hl
        rw [Binary.value_div hop]
        refine (MeansFrom.binary_iff hpow).mpr
          ⟨_, _, .div ha hc nonzero, .div hb hc nonzero, ?_, rfl⟩
        rintro rfl
        cases hop
    next => cases h
  next => cases h

/-- A product is divided by dividing its second factor. -/
theorem means_divideRight (hv : MeansFrom least I σ t v) (h : t.divideRight = some t') :
    MeansFrom least I σ t' v := by
  unfold divideRight at h
  split at h
  next a b c =>
    cases h
    cases hv with
    | div hl hc nonzero =>
      cases hl with
      | mul ha hb =>
        rw [mul_div_assoc]
        exact .mul ha (.div hb hc nonzero)
  next => cases h

/-- A product is divided by dividing its first factor. -/
theorem means_divideLeft (hv : MeansFrom least I σ t v) (h : t.divideLeft = some t') :
    MeansFrom least I σ t' v := by
  unfold divideLeft at h
  split at h
  next a b c =>
    cases h
    cases hv with
    | div hl hc nonzero =>
      cases hl with
      | mul ha hb =>
        rw [mul_div_right_comm]
        exact .mul (.div ha hc nonzero) hb
  next => cases h

/-- Two divisors one after the other divide as their product. -/
theorem means_joinDenominators (hv : MeansFrom least I σ t v)
    (h : t.joinDenominators = some t') : MeansFrom least I σ t' v := by
  unfold joinDenominators at h
  split at h
  next a b c =>
    cases h
    cases hv with
    | div hl hc nonzero =>
      cases hl with
      | div ha hb nonzero' =>
        rw [div_div]
        exact .div ha (.mul hb hc) (mul_ne_zero nonzero' nonzero)
  next => cases h

/-- Dividing by a quotient multiplies with what it divides by. -/
theorem means_invertDivisor (hv : MeansFrom least I σ t v) (h : t.invertDivisor = some t') :
    MeansFrom least I σ t' v := by
  unfold invertDivisor at h
  split at h
  next a b c =>
    cases h
    cases hv with
    | div ha hr nonzero =>
      cases hr with
      | div hb hc _ =>
        rw [div_div_eq_mul_div]
        exact .div (.mul ha hc) hb (div_ne_zero_iff.mp nonzero).1
  next => cases h

/-- Fractions multiply above and below. -/
theorem means_multiplyFractions (hv : MeansFrom least I σ t v)
    (h : t.multiplyFractions = some t') : MeansFrom least I σ t' v := by
  unfold multiplyFractions at h
  split at h
  next a b c d =>
    cases h
    cases hv with
    | mul hl hr =>
      cases hl with
      | div ha hb nonzero =>
        cases hr with
        | div hc hd nonzero' =>
          rw [div_mul_div_comm]
          exact .div (.mul ha hc) (.mul hb hd) (mul_ne_zero nonzero nonzero')
  next a b c _ =>
    cases h
    cases hv with
    | mul ha hr =>
      cases hr with
      | div hb hc nonzero =>
        rw [← mul_div_assoc]
        exact .div (.mul ha hb) hc nonzero
  next b c a _ =>
    cases h
    cases hv with
    | mul hl ha =>
      cases hl with
      | div hb hc nonzero =>
        rw [div_mul_eq_mul_div]
        exact .div (.mul hb ha) hc nonzero
  next => cases h

/-! ## A common denominator -/

section

variable [Tolerance]

/-- A sum over a common denominator means the same, as no denominator is zero. -/
theorem addFractions_exactly (hv : MeansFrom least I σ t v) :
    Exactly (fun _ => addFractions t) fun o => ∀ t', o = some t' → MeansFrom least I σ t' v := by
  unfold addFractions
  split
  next op l r =>
    split
    next hop =>
      have hpow := Binary.ne_pow_of_level hop
      have hdiv : op ≠ .div := by
        rintro rfl
        cases hop
      -- the sum of two numerators
      have sum : ∀ {l r : Expr} {a b : K}, MeansFrom least I σ l a → MeansFrom least I σ r b →
          MeansFrom least I σ (binary op l r) (op.value a b) := by
        intro l r a b hl hr
        exact (MeansFrom.binary_iff hpow).mpr ⟨a, b, hl, hr, fun h => absurd h hdiv, rfl⟩
      obtain ⟨_, _, hl, hr, -, rfl⟩ := (MeansFrom.binary_iff hpow).mp hv
      split
      next a b c d =>
        cases hl with
        | div ha hb nonzero =>
          cases hr with
          | div hc hd nonzero' =>
            refine Exactly.ask (hb.same_eq hd) (fun same => ?same) ?differ
            case same =>
              refine Exactly.pure ?_
              rintro _ ⟨rfl⟩
              rw [← same, ← Binary.value_div hop]
              exact .div (sum ha hc) hb nonzero
            case differ =>
              refine Exactly.pure ?_
              rintro _ ⟨rfl⟩
              rw [Binary.div_value_div hop nonzero nonzero']
              have numerator := sum (.mul ha hd) (.mul hc hb)
              exact .div numerator (.mul hb hd) (mul_ne_zero nonzero nonzero')
      next c d _ =>
        cases hr with
        | div hc hd nonzero =>
          refine Exactly.pure ?_
          rintro _ ⟨rfl⟩
          rw [Binary.value_div_right hop nonzero]
          exact .div (sum (.mul hl hd) hc) hd nonzero
      next a b _ =>
        cases hl with
        | div ha hb nonzero =>
          refine Exactly.pure ?_
          rintro _ ⟨rfl⟩
          rw [Binary.value_div_left hop nonzero]
          exact .div (sum ha (.mul hr hb)) hb nonzero
      next => exact Exactly.none
    next => exact Exactly.none
  next => exact Exactly.none

end

/-! ## Factors -/

/-- A factor on its side of the line. -/
def side (below : Bool) (a : K) : K := if below then a⁻¹ else a

omit [Coefficients K] in
theorem side_mul (below : Bool) (a b : K) : side below (a * b) = side below a * side below b := by
  cases below
  · rfl
  · exact mul_inv a b

omit [Coefficients K] in
/-- The side of a quotient goes to its parts, and turns for the divisor. -/
theorem side_div (below : Bool) (a b : K) :
    side below (a / b) = side below a * side (!below) b := by
  cases below
  · exact div_eq_mul_inv a b
  · show (a / b)⁻¹ = a⁻¹ * b
    rw [inv_div, div_eq_mul_inv, mul_comm]

/-- The product of a list of factors, none of which is zero below the line. -/
inductive MeansFactors (least : ℤ) (I : Interpretation K) (σ : String → K) :
    List (Expr × Bool) → K → Prop
  | nil : MeansFactors least I σ [] 1
  | cons {t : Expr} {below : Bool} {fs : List (Expr × Bool)} {a v : K}
    (first : MeansFrom least I σ t a) (nonzero : below = true → a ≠ 0)
    (rest : MeansFactors least I σ fs v) : MeansFactors least I σ ((t, below) :: fs) (side below a * v)

/-- Two rows of factors mean the product of what they mean. -/
theorem MeansFactors.append {fs gs : List (Expr × Bool)} {v w : K}
    (hf : MeansFactors least I σ fs v) (hg : MeansFactors least I σ gs w) :
    MeansFactors least I σ (fs ++ gs) (v * w) := by
  induction hf with
  | nil =>
    rw [one_mul]
    exact hg
  | cons first nonzero _ ih =>
    rw [mul_assoc]
    exact .cons first nonzero ih

/-- One factor. -/
theorem MeansFactors.single {below : Bool} (hv : MeansFrom least I σ t v)
    (nonzero : below = true → v ≠ 0) : MeansFactors least I σ [(t, below)] (side below v) := by
  rw [← mul_one (side below v)]
  exact .cons hv nonzero .nil

/-- The factors of a tree have it as their product. -/
theorem factors_exactly {below : Bool} (hv : MeansFrom least I σ t v)
    (nonzero : below = true → v ≠ 0) :
    Exactly (fun _ => factors below t) (MeansFactors least I σ · (side below v)) := by
  -- below the bar a factor is divided by, and a product is nonzero only if its factors are
  induction hv generalizing below with
  | mul _ _ ihl ihr =>
    rw [side_mul]
    refine Exactly.bind (ihl fun h => left_ne_zero_of_mul (nonzero h)) fun fs hf => ?_
    refine Exactly.bind (ihr fun h => right_ne_zero_of_mul (nonzero h)) fun gs hg => ?_
    exact Exactly.pure (hf.append hg)
  | div _ _ hb ihl ihr =>
    rw [side_div]
    refine Exactly.bind (ihl fun h => (div_ne_zero_iff.mp (nonzero h)).1) fun fs hf => ?_
    refine Exactly.bind (ihr fun _ => hb) fun gs hg => ?_
    exact Exactly.pure (hf.append hg)
  | number value => exact Exactly.pure (.single (.number value) nonzero)
  | monomial mult power defined =>
    exact Exactly.pure (.single (.monomial mult power defined) nonzero)
  | equals hl hr => exact Exactly.pure (.single (.equals hl hr) nonzero)
  | add hl hr => exact Exactly.pure (.single (.add hl hr) nonzero)
  | sub hl hr => exact Exactly.pure (.single (.sub hl hr) nonzero)
  | pow hl exponent defined => exact Exactly.pure (.single (.pow hl exponent defined) nonzero)
  | factorial ht value => exact Exactly.pure (.single (.factorial ht value) nonzero)
  | apply ht value => exact Exactly.pure (.single (.apply ht value) nonzero)

/-- A row of factors multiplies. -/
theorem means_foldl_mul {ts : List Expr} {as : List K} (hv : MeansFrom least I σ t v)
    (h : List.Forall₂ (MeansFrom least I σ) ts as) :
    MeansFrom least I σ (ts.foldl (binary .mul) t) (v * as.prod) := by
  induction h generalizing t v with
  | nil =>
    rw [List.prod_nil, mul_one]
    exact hv
  | cons first _ ih =>
    rw [List.prod_cons, ← mul_assoc]
    exact ih (.mul hv first)

/-- A row of divisors divides. -/
theorem means_foldl_div {ts : List Expr} {as : List K} (hv : MeansFrom least I σ t v)
    (h : List.Forall₂ (MeansFrom least I σ) ts as) (nonzero : ∀ a ∈ as, a ≠ 0) :
    MeansFrom least I σ (ts.foldl (binary .div) t) (v / as.prod) := by
  induction h generalizing t v with
  | nil =>
    rw [List.prod_nil, div_one]
    exact hv
  | @cons _ a _ _ first _ ih =>
    rw [List.prod_cons, ← div_div]
    rw [List.forall_mem_cons] at nonzero
    exact ih (.div hv first nonzero.1) nonzero.2

/-- The factors above the line and those below it. -/
theorem MeansFactors.sides {fs : List (Expr × Bool)} (h : MeansFactors least I σ fs v) :
    ∃ as bs, List.Forall₂ (MeansFrom least I σ) ((fs.filter fun f => !f.2).map Prod.fst) as ∧
      List.Forall₂ (MeansFrom least I σ) ((fs.filter fun f => f.2).map Prod.fst) bs ∧
      (∀ b ∈ bs, b ≠ 0) ∧ v = as.prod / bs.prod := by
  induction h with
  | nil => exact ⟨[], [], .nil, .nil, nofun, by simp⟩
  | @cons t below _ a _ first nonzero _ ih =>
    obtain ⟨as, bs, above, beneath, nonzero', rfl⟩ := ih
    cases below with
    | false => exact ⟨a :: as, bs, .cons first above, beneath, nonzero', by simp [side, mul_div_assoc]⟩
    | true =>
      refine ⟨as, a :: bs, above, .cons first beneath, ?_, ?_⟩
      · exact List.forall_mem_cons.mpr ⟨nonzero rfl, nonzero'⟩
      · rw [List.prod_cons]
        show a⁻¹ * _ = _
        rw [inv_mul_eq_div, div_div, mul_comm]

/-- A tree of factors has their product. -/
theorem means_ofFactors {fs : List (Expr × Bool)} (h : MeansFactors least I σ fs v) :
    MeansFrom least I σ (ofFactors fs) v := by
  obtain ⟨as, bs, above, below, nonzero, rfl⟩ := h.sides
  refine means_foldl_div ?_ below nonzero
  generalize (fs.filter fun f => !f.2).map Prod.fst = ts at above
  cases above with
  | nil => exact .number Number.standsFor_one
  | cons first rest =>
    rw [List.prod_cons]
    exact means_foldl_mul first rest

/-! ## Cancelling -/

section

variable [Tolerance]

/-- A factor and its partner on the other side of the line leave the product as it is. -/
theorem dropPartner?_exactly {below : Bool} {a : K} {fs : List (Expr × Bool)}
    (ht : MeansFrom least I σ t a) (nonzero : below = true → a ≠ 0)
    (hf : MeansFactors least I σ fs v) :
    Exactly (fun _ => dropPartner? (t, below) fs)
      fun o => ∀ fs', o = some fs' → MeansFactors least I σ fs' (side below a * v) := by
  induction hf with
  | nil => exact Exactly.none
  | @cons u other fs b v first nonzero' rest ih =>
    have partner : ∃ c, Calc.both (pure (below != other)) (t.same u) = .ok c ∧
        (c = true → (below != other) = true ∧ a = b) :=
      Calc.both_answer ⟨_, rfl, id⟩ (ht.same_eq first)
    refine Exactly.ask partner (fun both => ?partner) ?other
    case partner =>
      refine Exactly.pure ?_
      rintro _ ⟨rfl⟩
      obtain ⟨opposite, rfl⟩ := both
      -- the one of the two that stands below is not zero, so the pair is one
      have cancelled : side below a * (side other a * v) = v := by
        cases below with
        | false =>
          cases other with
          | false => cases opposite
          | true => exact mul_inv_cancel_left₀ (nonzero' rfl) v
        | true =>
          cases other with
          | false => exact inv_mul_cancel_left₀ (nonzero rfl) v
          | true => cases opposite
      rw [cancelled]
      exact rest
    case other =>
      refine Exactly.bind ih fun o ho => Exactly.pure fun fs' hfs => ?_
      obtain ⟨gs, hgs, rfl⟩ := Option.map_eq_some_iff.mp hfs
      rw [mul_left_comm]
      exact .cons first nonzero' (ho gs hgs)

/-- Two equal factors on opposite sides vanish. -/
theorem dropPair?_exactly {fs : List (Expr × Bool)} (hf : MeansFactors least I σ fs v) :
    Exactly (fun _ => dropPair? fs)
      fun o => ∀ fs', o = some fs' → MeansFactors least I σ fs' v := by
  induction hf with
  | nil => exact Exactly.none
  | cons first nonzero rest ih =>
    refine Exactly.bind (dropPartner?_exactly first nonzero rest) fun o ho => ?_
    cases o with
    | some gs => exact Exactly.pure ho
    | none =>
      refine Exactly.bind ih fun o ho => Exactly.pure fun fs' hfs => ?_
      obtain ⟨gs, hgs, rfl⟩ := Option.map_eq_some_iff.mp hfs
      exact .cons first nonzero (ho gs hgs)

/-- What is left after cancelling means the same. -/
theorem cancelFactor_exactly (hv : MeansFrom least I σ t v) :
    Exactly (fun _ => cancelFactor t) fun o => ∀ t', o = some t' → MeansFrom least I σ t' v := by
  refine Exactly.ite (fun _ => ?_) fun _ => Exactly.none
  have factored : Exactly (fun _ => factors false t) (MeansFactors least I σ · v) :=
    factors_exactly hv nofun
  refine Exactly.bind factored fun fs hf => ?_
  refine Exactly.ite (fun _ => ?_) fun _ => Exactly.none
  refine Exactly.bind (dropPair?_exactly hf) fun o ho => Exactly.pure fun t' ht' => ?_
  obtain ⟨gs, hgs, rfl⟩ := Option.map_eq_some_iff.mp ht'
  exact means_ofFactors (ho gs hgs)

/-- A rewrite that keeps the meaning where it applies. -/
def KeepsMeaning (least : ℤ) (I : Interpretation K) (σ : String → K)
    (rewrite : Expr → Calc (Option Expr)) : Prop :=
  ∀ {t v}, MeansFrom least I σ t v →
    Exactly (fun _ => rewrite t) fun o => ∀ t', o = some t' → MeansFrom least I σ t' v

/-- Every equivalence keeps the meaning. -/
theorem means_equivalences :
    ∀ rewrite ∈ equivalences, KeepsMeaning least I σ rewrite := by
  have plain : ∀ {f : Expr → Option Expr}, (∀ {t v t'}, MeansFrom least I σ t v →
      f t = some t' → MeansFrom least I σ t' v) → KeepsMeaning least I σ fun t => pure (f t) :=
    fun h _ _ hv => Exactly.pure fun _ ht' => h hv ht'
  simp only [equivalences, List.forall_mem_cons]
  exact ⟨plain means_splitSum, plain means_divideRight, plain means_divideLeft,
    plain means_joinDenominators, plain means_invertDivisor, addFractions_exactly,
    plain means_multiplyFractions, cancelFactor_exactly, nofun⟩

end

end Expr

end SymbolicAlgebra
