import SymbolicAlgebra.Proofs.Combine.Formed
import SymbolicAlgebra.Proofs.Eval
import SymbolicAlgebra.Proofs.Failures.Evaluation
import SymbolicAlgebra.Proofs.Simplify.Failures

/-!
# Simplifying trees with all their operands

The equivalences of fractions make such trees of such trees, with the leaves that they are given
and the number one, and folding makes a number. So simplification keeps the trees that have all
their operands, and every condition on their leaves that leaf algebra keeps
(`Expr.simplify_formed`). It does not fail for want of an operand, a variable or a factorial.
-/

namespace SymbolicAlgebra

namespace Expr

variable {A : Leaf → Prop} {t best : Expr}

/-! ## Equivalences -/

section

variable {o : Option Expr}

/-- A tree that a rewrite makes, if it makes one. -/
def Formed? (A : Leaf → Prop) (o : Option Expr) : Prop := ∀ t, o = some t → t.Formed A

theorem formed?_some (h : t.Formed A) : Formed? A (some t) := by
  rintro _ ⟨rfl⟩
  exact h

theorem formed?_none : Formed? A none := nofun

/-- Taking a fraction with a sum above apart repeats its denominator. -/
theorem splitSum_formed (ht : t.Formed A) : Formed? A t.splitSum := by
  unfold splitSum
  split
  · obtain ⟨⟨ha, hb⟩, hc⟩ := ht
    split
    · exact formed?_some ⟨⟨ha, hc⟩, hb, hc⟩
    · exact formed?_none
  · exact formed?_none

/-- Dividing the second factor of a product moves the divisor to it. -/
theorem divideRight_formed (ht : t.Formed A) : Formed? A t.divideRight := by
  unfold divideRight
  split
  · obtain ⟨⟨ha, hb⟩, hc⟩ := ht
    exact formed?_some ⟨ha, hb, hc⟩
  · exact formed?_none

/-- Dividing the first factor moves the divisor to that. -/
theorem divideLeft_formed (ht : t.Formed A) : Formed? A t.divideLeft := by
  unfold divideLeft
  split
  · obtain ⟨⟨ha, hb⟩, hc⟩ := ht
    exact formed?_some ⟨⟨ha, hc⟩, hb⟩
  · exact formed?_none

/-- Of two divisors one after the other a product is made. -/
theorem joinDenominators_formed (ht : t.Formed A) : Formed? A t.joinDenominators := by
  unfold joinDenominators
  split
  · obtain ⟨⟨ha, hb⟩, hc⟩ := ht
    exact formed?_some ⟨ha, hb, hc⟩
  · exact formed?_none

/-- A quotient in the divisor is turned over. -/
theorem invertDivisor_formed (ht : t.Formed A) : Formed? A t.invertDivisor := by
  unfold invertDivisor
  split
  · obtain ⟨ha, hb, hc⟩ := ht
    exact formed?_some ⟨⟨ha, hc⟩, hb⟩
  · exact formed?_none

/-- Fractions are multiplied above and below. -/
theorem multiplyFractions_formed (ht : t.Formed A) : Formed? A t.multiplyFractions := by
  unfold multiplyFractions
  split
  · obtain ⟨⟨ha, hb⟩, hc, hd⟩ := ht
    exact formed?_some ⟨⟨ha, hc⟩, hb, hd⟩
  · obtain ⟨ha, hb, hc⟩ := ht
    exact formed?_some ⟨⟨ha, hb⟩, hc⟩
  · obtain ⟨⟨hb, hc⟩, ha⟩ := ht
    exact formed?_some ⟨⟨hb, ha⟩, hc⟩
  · exact formed?_none

variable [Tolerance] [Exactness]

/-- Fractions are added over a common denominator, for which theirs are compared. -/
theorem addFractions_formed (ht : t.Formed A) :
    Ends t.addFractions Failure.IsNumeric (Formed? A) := by
  unfold addFractions
  split
  next op l r =>
    split
    next sum =>
      split
      next a b c d =>
        obtain ⟨⟨ha, hb⟩, hc, hd⟩ := ht
        refine .ask same_failsAs.numeric ?same ?differ
        case same => exact .pure (formed?_some ⟨⟨ha, hc⟩, hb⟩)
        case differ => exact .pure (formed?_some ⟨⟨⟨ha, hd⟩, hc, hb⟩, hb, hd⟩)
      next c d _ =>
        obtain ⟨hl, hc, hd⟩ := ht
        exact .pure (formed?_some ⟨⟨⟨hl, hd⟩, hc⟩, hd⟩)
      next a b _ =>
        obtain ⟨⟨ha, hb⟩, hr⟩ := ht
        exact .pure (formed?_some ⟨⟨ha, hr, hb⟩, hb⟩)
      next => exact .pure formed?_none
    next => exact .pure formed?_none
  next => exact .pure formed?_none

/-! ### Cancelling -/

variable {fs : List (Expr × Bool)}

omit [Tolerance] in
/-- The factors of a tree are its parts. -/
theorem factors_formed (below : Bool) (ht : t.Formed A) :
    Ends (t.factors below) Failure.IsNumeric (∀ f ∈ ·, f.1.Formed A) := by
  fun_induction factors below t with
  | case1 => cases ht
  | case2 _ _ _ ihl ihr | case3 _ _ _ ihl ihr =>
    refine .bind (ihl ht.1) fun fs hl => .bind (ihr ht.2) fun gs hr => ?_
    exact .pure (List.forall_mem_append.mpr ⟨hl, hr⟩)
  | case4 => exact .pure (List.forall_mem_singleton.mpr ht)

omit [Tolerance] [Exactness] in
/-- A row of operands goes into one after the other. -/
theorem foldl_formed (op : Binary) {ts : List Expr} (hs : ∀ u ∈ ts, u.Formed A)
    (ht : t.Formed A) : (ts.foldl (binary op) t).Formed A := by
  induction ts generalizing t with
  | nil => exact ht
  | cons u ts ih =>
    rw [List.forall_mem_cons] at hs
    exact ih hs.2 ⟨ht, hs.1⟩

/-- Factors make a product over a product, and no factors make one. -/
theorem ofFactors_formed (hA : Leaf.Closed A) (hs : ∀ f ∈ fs, f.1.Formed A) :
    (ofFactors fs).Formed A := by
  have side : ∀ p : Expr × Bool → Bool, ∀ u ∈ (fs.filter p).map Prod.fst, u.Formed A := by
    intro p u hu
    obtain ⟨f, hf, rfl⟩ := List.mem_map.mp hu
    exact hs f (List.mem_filter.mp hf).1
  have above := side fun f => !f.2
  unfold ofFactors
  refine foldl_formed .div (side fun f => f.2) ?_
  split
  · exact formed_number hA _
  next first rest same =>
    rw [same, List.forall_mem_cons] at above
    exact foldl_formed .mul above.2 above.1

/-- What is left after a factor has met its partner. -/
theorem dropPartner?_formed {f : Expr × Bool} (hs : ∀ g ∈ fs, g.1.Formed A) :
    Ends (dropPartner? f fs) Failure.IsNumeric
      fun o => ∀ gs, o = some gs → ∀ g ∈ gs, g.1.Formed A := by
  induction fs with
  | nil => exact Ends.none
  | cons g rest ih =>
    rw [List.forall_mem_cons] at hs
    refine .ask (.both (.pure _) same_failsAs.numeric) ?partner ?other
    case partner =>
      refine .pure ?_
      rintro _ ⟨rfl⟩
      exact hs.2
    case other =>
      refine .bind (ih hs.2) fun o ho => .pure fun gs same => ?_
      obtain ⟨gs', found, rfl⟩ := Option.map_eq_some_iff.mp same
      exact List.forall_mem_cons.mpr ⟨hs.1, ho gs' found⟩

/-- What is left after two factors have met. -/
theorem dropPair?_formed (hs : ∀ f ∈ fs, f.1.Formed A) :
    Ends (dropPair? fs) Failure.IsNumeric
      fun o => ∀ gs, o = some gs → ∀ g ∈ gs, g.1.Formed A := by
  induction fs with
  | nil => exact Ends.none
  | cons f rest ih =>
    rw [List.forall_mem_cons] at hs
    refine .bind (dropPartner?_formed hs.2) fun o ho => ?_
    cases o with
    | some gs => exact .pure ho
    | none =>
      refine .bind (ih hs.2) fun o ho => .pure fun gs same => ?_
      obtain ⟨gs', found, rfl⟩ := Option.map_eq_some_iff.mp same
      exact List.forall_mem_cons.mpr ⟨hs.1, ho gs' found⟩

/-- Cancelling leaves some of the factors. -/
theorem cancelFactor_formed (hA : Leaf.Closed A) (ht : t.Formed A) :
    Ends t.cancelFactor Failure.IsNumeric (Formed? A) := by
  unfold cancelFactor
  split
  next =>
    refine .bind (factors_formed false ht) fun fs hs => ?_
    split
    next =>
      refine .bind (dropPair?_formed hs) fun o ho => .pure fun t' same => ?_
      obtain ⟨gs, found, rfl⟩ := Option.map_eq_some_iff.mp same
      exact ofFactors_formed hA (ho gs found)
    next => exact .pure formed?_none
  next => exact .pure formed?_none

/-- Every equivalence makes a tree with all its operands of one. -/
theorem equivalences_formed (hA : Leaf.Closed A) (ht : t.Formed A) :
    ∀ rewrite ∈ equivalences, Ends (rewrite t) Failure.IsNumeric (Formed? A) := by
  simp only [equivalences, List.forall_mem_cons]
  exact ⟨.pure (splitSum_formed ht), .pure (divideRight_formed ht), .pure (divideLeft_formed ht),
    .pure (joinDenominators_formed ht), .pure (invertDivisor_formed ht), addFractions_formed ht,
    .pure (multiplyFractions_formed ht), cancelFactor_formed hA ht, List.forall_mem_nil _⟩

end

/-! ## Passes -/

variable [Tolerance] [Exactness] {deeper : Option (Expr → Calc Expr)}

/-- A constant with a value is folded to a number. It asks for no variable, and where a factorial
has no value there is none. -/
theorem fold?_failsAs_numeric (ht : t.Formed A) : t.fold?.FailsAs Failure.IsNumeric := by
  unfold fold?
  rw [ht.present_eq]
  show Calc.FailsAs _ (if !t.isConst then pure none else _)
  split
  · exact .pure _
  next const =>
    split
    · exact hasNoNaN_failsAs.numeric.bind fun _ => .pure _
    next f failed =>
      split
      · exact .pure _
      next unpassed =>
        refine .throw ?_
        rcases evaluate_failsAs ht.isWellFormed f failed with (numeric | ⟨s, rfl⟩) | ⟨x, hx, -⟩
        · exact numeric
        · exact absurd rfl unpassed
        · rw [names_of_isConst (by simpa using const)] at hx
          cases hx

/-- A simplification that keeps the trees with all their operands. -/
def SimplifiesFormed (A : Leaf → Prop) (f : Expr → Calc Expr) : Prop :=
  ∀ t, t.Formed A → Ends (f t) Failure.IsNumeric (Formed A)

omit [Tolerance] in
/-- A candidate is taken only if it is smaller, and where it failed nothing is lost. -/
theorem better_formed {candidate : Calc Expr} (hb : best.Formed A)
    (h : Ends candidate Failure.IsNumeric (Formed A)) :
    Ends (better best candidate) Failure.IsNumeric (Formed A) := by
  unfold better
  split
  next t =>
    split
    next smaller => exact .pure (h.returns t rfl)
    next => exact .pure hb
  next e =>
    split
    next arithmetic => exact .pure hb
    next => exact .throw (h.fails e rfl)

omit [Tolerance] in
/-- The search goes from one tree with all its operands to another. -/
theorem search_formed {f : Expr → Calc Expr} (hf : SimplifiesFormed A f)
    {rewrites : List (Expr → Calc (Option Expr))}
    (hr : ∀ rewrite ∈ rewrites, Ends (rewrite t) Failure.IsNumeric (Formed? A))
    (hb : best.Formed A) : Ends (search f t rewrites best) Failure.IsNumeric (Formed A) := by
  induction rewrites generalizing best with
  | nil => exact .pure hb
  | cons rewrite rest ih =>
    rw [List.forall_mem_cons] at hr
    refine .bind hr.1 fun candidate hc => ?_
    cases candidate with
    | none => exact ih hr.2 hb
    | some t' =>
      refine .bind (better_formed hb (hf t' (hc t' rfl))) fun best' hb' => ?_
      exact ih hr.2 hb'

/-- An operator that has been built again is improved, and else the old tree stays. -/
theorem improve_formed (hA : Leaf.Closed A) (hd : ∀ f, deeper = some f → SimplifiesFormed A f)
    (ht : t.Formed A) {combined : Calc Expr}
    (hc : Ends combined Failure.IsNumeric (Formed A)) :
    Ends (improve deeper t combined) Failure.IsNumeric (Formed A) := by
  unfold improve
  split
  next e =>
    split
    next arithmetic => exact .pure ht
    next => exact .throw (hc.fails e rfl)
  next best =>
    have hb : best.Formed A := hc.returns best rfl
    split
    next f =>
      split
      next => exact .pure hb
      next => exact search_formed (hd f rfl) (equivalences_formed hA hb) hb
    next => exact .pure hb

/-- Building an operator again of operands that have been passed over. -/
theorem build_formed (hA : Leaf.Closed A) {op : Op} {l r l' r' : Expr}
    (ht : (node op l r).Formed A) (hl : l.Formed A → l'.Formed A) (hr : r.Formed A → r'.Formed A)
    (left : l = absent → l' = absent) (right : r = absent → r' = absent) :
    Ends (build op l' r') Failure.IsNumeric (Formed A) := by
  cases op with
  | binary op => exact combine_formed hA (hl ht.1) (hr ht.2)
  | factorial => exact .pure ⟨hl ht.1, right ht.2⟩
  | function f => exact .pure ⟨left ht.1, hr ht.2⟩
  | _ => cases ht

/-- A pass goes into the operands that are there. -/
theorem passWith_formed (hA : Leaf.Closed A)
    (hd : ∀ f, deeper = some f → SimplifiesFormed A f) :
    SimplifiesFormed A (passWith deeper) := by
  intro t ht
  -- an empty place stays empty, and an operand is passed over
  have side : ∀ {u : Expr}, (u.Formed A → Ends (passWith deeper u) Failure.IsNumeric (Formed A)) →
      (u = absent ∨ u.Formed A) → Ends (passWith deeper u) Failure.IsNumeric
        fun u' => (u.Formed A → u'.Formed A) ∧ (u = absent → u' = absent) := by
    rintro u ih (rfl | hu)
    · exact .pure ⟨id, id⟩
    · refine (ih hu).mono (fun _ => id) fun u' hu' => ⟨fun _ => hu', ?_⟩
      rintro rfl
      cases hu
  induction t with
  | absent => cases ht
  | leaf a => exact .pure ht
  | node op l r ihl ihr =>
    have sides : (l = absent ∨ l.Formed A) ∧ (r = absent ∨ r.Formed A) := by
      cases op with
      | binary op => exact ⟨.inr ht.1, .inr ht.2⟩
      | factorial => exact ⟨.inr ht.1, .inl ht.2⟩
      | function f => exact ⟨.inl ht.1, .inr ht.2⟩
      | _ => cases ht
    refine .after (fold?_failsAs_numeric ht) fun folded => ?_
    cases folded with
    | some z => exact .pure (formed_number hA z)
    | none =>
      refine .bind (side ihl sides.1) fun l' hl => .bind (side ihr sides.2) fun r' hr => ?_
      exact improve_formed hA hd ht (build_formed hA ht hl.1 hr.1 hl.2 hr.2)

/-- So does a pass of any depth. -/
theorem pass_formed (hA : Leaf.Closed A) (depth : ℕ) : SimplifiesFormed A (pass depth) := by
  induction depth with
  | zero => exact passWith_formed hA (by rintro f ⟨⟩)
  | succ depth ih =>
    refine passWith_formed hA ?_
    rintro _ ⟨rfl⟩
    exact ih

/-- Simplifying a tree that has all its operands makes such a tree, and fails only as arithmetic
does. -/
theorem simplify_formed (hA : Leaf.Closed A) (depth : ℕ) (ht : t.Formed A) :
    Ends (simplify depth t) Failure.IsNumeric (Formed A) := by
  have passed : ∀ n, SimplifiesFormed A (passes depth n) := by
    intro n
    induction n with
    | zero => exact fun t ht => .pure ht
    | succ n ih =>
      intro t ht
      refine .bind (pass_formed hA depth t ht) fun t' ht' => ?_
      exact .ask same_failsAs.numeric (.pure ht) (ih t' ht')
  unfold simplify
  rw [ht.present_eq]
  exact passed passLimit t ht

end Expr

end SymbolicAlgebra
