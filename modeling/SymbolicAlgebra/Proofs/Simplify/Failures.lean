import SymbolicAlgebra.Simplify
import SymbolicAlgebra.Proofs.Failures.Numbers

/-!
# Which failures leave simplification

Simplification passes over the arithmetic that fails: where operands do not combine the tree
stays, a candidate that fails is no better, and a constant without a value is not folded. So no
undefined quotient or power reaches its caller, whatever the tree (`simplify_failsAs`).

Two steps are outside of these handlers, and the failures of both are those of a number too wide
for a double: trees are compared, and a folded number is asked whether it is NaN. The other
failures that no handler takes are not of arithmetic.
-/

namespace SymbolicAlgebra

open Calc (FailsAs)

/-! ## Passes -/

/-- A failure that may leave simplification: of arithmetic only that a number is too wide. -/
def Failure.Escapes (e : Failure) : Prop := e.isArithmetic = true → e = .tooWide

namespace Expr

variable {t u best : Expr}

theorem escapes_tooWide (e : Failure) (h : e = .tooWide) : e.Escapes := fun _ => h

/-- A tree that is not there is no failure of arithmetic. -/
theorem present_failsAs : t.present.FailsAs Failure.Escapes := by
  cases t with
  | absent => exact .throw (by simp [Failure.Escapes, Failure.isArithmetic])
  | leaf => exact .of_ok rfl
  | node => exact .of_ok rfl

/-- Nor is one that has no factors. -/
theorem factors_failsAs {below : Bool} : (t.factors below).FailsAs Failure.Escapes := by
  fun_induction factors below t with
  | case1 => exact .throw (by simp [Failure.Escapes, Failure.isArithmetic])
  | case2 _ _ _ ihl ihr => exact ihl.bind fun _ => ihr.bind fun _ => .of_ok rfl
  | case3 _ _ _ ihl ihr => exact ihl.bind fun _ => ihr.bind fun _ => .of_ok rfl
  | case4 => exact .of_ok rfl

variable [Tolerance]

/-- To find the partner of a factor, trees are compared. -/
theorem dropPartner?_failsAs {f : Expr × Bool} {fs : List (Expr × Bool)} :
    (dropPartner? f fs).FailsAs Failure.Escapes := by
  induction fs with
  | nil => exact .of_ok rfl
  | cons g rest ih =>
    refine .ask (.both (.of_ok rfl) (same_failsAs.mono escapes_tooWide)) ?partner ?other
    case partner => exact .of_ok rfl
    case other => exact ih.bind fun _ => .of_ok rfl

/-- To find two factors that cancel, trees are compared. -/
theorem dropPair?_failsAs {fs : List (Expr × Bool)} :
    (dropPair? fs).FailsAs Failure.Escapes := by
  induction fs with
  | nil => exact .of_ok rfl
  | cons f rest ih =>
    refine dropPartner?_failsAs.bind fun partner => ?_
    cases partner with
    | some rest' => exact .of_ok rfl
    | none => exact ih.bind fun _ => .of_ok rfl

/-- Fractions are added over a common denominator, for which theirs are compared. -/
theorem addFractions_failsAs : t.addFractions.FailsAs Failure.Escapes := by
  unfold addFractions
  split
  next op l r =>
    split
    next sum =>
      split
      next a b c d =>
        exact .ask (same_failsAs.mono escapes_tooWide) (.of_ok rfl) (.of_ok rfl)
      next => exact .of_ok rfl
      next => exact .of_ok rfl
      next => exact .of_ok rfl
    next => exact .of_ok rfl
  next => exact .of_ok rfl

/-- To cancel a factor, factors are compared. -/
theorem cancelFactor_failsAs : t.cancelFactor.FailsAs Failure.Escapes := by
  unfold cancelFactor
  split
  next =>
    refine factors_failsAs.bind fun fs => ?_
    split
    next => exact dropPair?_failsAs.bind fun _ => .of_ok rfl
    next => exact .of_ok rfl
  next => exact .of_ok rfl

/-- An equivalence fails where it compares trees. -/
theorem equivalences_failsAs (rewrite : Expr → Calc (Option Expr)) (h : rewrite ∈ equivalences) :
    (rewrite t).FailsAs Failure.Escapes := by
  simp only [equivalences, List.mem_cons, List.not_mem_nil, or_false] at h
  rcases h with rfl | rfl | rfl | rfl | rfl | rfl | rfl | rfl
  -- all others only look at the operators of the tree
  case inr.inr.inr.inr.inr.inl => exact addFractions_failsAs
  case inr.inr.inr.inr.inr.inr.inr => exact cancelFactor_failsAs
  all_goals exact .of_ok rfl

variable [Exactness] {deeper : Option (Expr → Calc Expr)}

/-- Folding takes the failures of arithmetic for the answer that there is no value. -/
theorem fold?_failsAs : t.fold?.FailsAs Failure.Escapes := by
  unfold fold?
  refine present_failsAs.bind fun t' => ?_
  split
  next => exact .of_ok rfl
  next const =>
    split
    next z =>
      refine (hasNoNaN_failsAs.mono escapes_tooWide).bind fun whole => ?_
      cases whole with
      | true => exact .of_ok rfl
      | false => exact .of_ok rfl
    next f failed =>
      split
      next passed => exact .of_ok rfl
      next unpassed =>
        refine .throw fun arithmetic => ?_
        simp [passesFold, arithmetic] at unpassed

/-- A simplification of candidates that fails in no other ways. -/
def Escaping (deeper : Option (Expr → Calc Expr)) : Prop :=
  ∀ f, deeper = some f → ∀ t, (f t).FailsAs Failure.Escapes

omit [Tolerance] [Exactness] in
/-- A candidate may fail as arithmetic does, and is passed over then. -/
theorem better_failsAs {candidate : Calc Expr} (h : candidate.FailsAs Failure.Escapes) :
    (better best candidate).FailsAs Failure.Escapes := by
  unfold better
  split
  next t => exact .of_ok rfl
  next e =>
    split
    next arithmetic => exact .of_ok rfl
    next => exact .throw (h e rfl)

omit [Tolerance] [Exactness] in
/-- The search fails as what it calls. -/
theorem search_failsAs {f : Expr → Calc Expr} (hf : ∀ t, (f t).FailsAs Failure.Escapes)
    {rewrites : List (Expr → Calc (Option Expr))}
    (hr : ∀ rewrite ∈ rewrites, (rewrite t).FailsAs Failure.Escapes) :
    (search f t rewrites best).FailsAs Failure.Escapes := by
  induction rewrites generalizing best with
  | nil => exact .of_ok rfl
  | cons rewrite rest ih =>
    rw [List.forall_mem_cons] at hr
    refine hr.1.bind fun candidate => ?_
    cases candidate with
    | none => exact ih hr.2
    | some t' => exact (better_failsAs (hf t')).bind fun _ => ih hr.2

omit [Exactness] in
/-- An operator that could not be built again stays, if that was for arithmetic. -/
theorem improve_failsAs (hd : Escaping deeper) {combined : Calc Expr} :
    (improve deeper t combined).FailsAs Failure.Escapes := by
  unfold improve
  split
  next e =>
    split
    next => exact .of_ok rfl
    next other => exact .throw fun arithmetic => absurd arithmetic other
  next best =>
    split
    next f =>
      split
      next => exact .of_ok rfl
      next => exact search_failsAs (hd f rfl) equivalences_failsAs
    next => exact .of_ok rfl

/-- A pass folds, builds and improves. -/
theorem passWith_failsAs (hd : Escaping deeper) :
    (passWith deeper t).FailsAs Failure.Escapes := by
  induction t with
  | absent => exact .of_ok rfl
  | leaf a => exact .of_ok rfl
  | node op l r ihl ihr =>
    refine fold?_failsAs.bind fun folded => ?_
    cases folded with
    | some z => exact .of_ok rfl
    | none =>
      refine ihl.bind fun l' => ihr.bind fun r' => ?_
      exact improve_failsAs hd

/-- So does a pass of any depth. -/
theorem pass_failsAs (depth : ℕ) (t : Expr) : (pass depth t).FailsAs Failure.Escapes := by
  induction depth generalizing t with
  | zero => exact passWith_failsAs (by rintro f ⟨⟩)
  | succ depth ih =>
    refine passWith_failsAs ?_
    rintro _ ⟨rfl⟩
    exact ih

/-- **No undefined arithmetic leaves simplification**: of the failures of arithmetic only that a
number is too wide for a double does. -/
theorem simplify_failsAs (depth : ℕ) (t : Expr) : (simplify depth t).FailsAs Failure.Escapes := by
  have passed : ∀ n t, (passes depth n t).FailsAs Failure.Escapes := by
    intro n
    induction n with
    | zero => exact fun _ => .of_ok rfl
    | succ n ih =>
      intro t
      refine (pass_failsAs depth t).bind fun t' => ?_
      exact .ask (same_failsAs.mono escapes_tooWide) (.of_ok rfl) (ih t')
  unfold simplify
  exact present_failsAs.bind (passed passLimit)

/-- Such a number does leave it: to cancel a factor, an integer is compared with a double. -/
example :
    letI := Double.standardTolerance
    letI := Exactness.free
    let wide := binary .add (ofName "x") (ofInt (10 ^ 400))
    let other := binary .add (ofName "x") (number (.ofValue (.ofDouble 2.5)))
    simplify 2 (binary .div (binary .mul wide (ofName "y")) other) = .error .tooWide := by
  decide +kernel

end Expr

end SymbolicAlgebra
