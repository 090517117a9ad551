import SymbolicAlgebra.Proofs.Failures.Numbers

/-!
# How evaluation fails

Of a tree that has all its operands, evaluation ends in a number, in a failure of arithmetic or of
a factorial, or it asks for a variable without a value (`Expr.evaluate_failsAs`). It asks for every
variable of the expression, so it returns a number only where all of them have a value
(`Expr.evaluate_bound`).
-/

namespace SymbolicAlgebra

variable [Tolerance] [Exactness] {bindings : Bindings} {names names' : List String}

/-- A failure of evaluating an expression with these variables. -/
def Failure.IsEvaluation (bindings : Bindings) (names : List String) (e : Failure) : Prop :=
  (e.IsNumeric ∨ ∃ s, e = .factorial s) ∨
    ∃ x ∈ names, bindings.find? x = none ∧ e = .unbound x

namespace Calc.FailsAs

variable {α : Type} {x : Calc α}

omit [Tolerance] in
theorem evaluation (h : x.FailsAs Failure.IsNumeric) :
    x.FailsAs (Failure.IsEvaluation bindings names) :=
  h.mono fun _ numeric => .inl (.inl numeric)

omit [Tolerance] in
/-- An expression with more variables may fail for any of them. -/
theorem evaluation_mono (h : x.FailsAs (Failure.IsEvaluation bindings names))
    (more : ∀ x ∈ names, x ∈ names') : x.FailsAs (Failure.IsEvaluation bindings names') :=
  h.mono fun _ fails => fails.imp_right fun ⟨x, hx, free⟩ => ⟨x, more x hx, free⟩

end Calc.FailsAs

/-- A leaf fails in arithmetic, or for want of a value of its variable. -/
theorem Leaf.evaluate_failsAs (a : Leaf) :
    (a.evaluate bindings).FailsAs (Failure.IsEvaluation bindings a.names) := by
  cases a with
  | number z => exact .pure _
  | monomial x m p =>
    unfold evaluate
    dsimp only
    split
    · exact Calc.FailsAs.evaluation (Number.pow_failsAs.bind fun _ => Number.mul_failsAs)
    next free => exact .throw (.inr ⟨x, List.mem_singleton_self x, free, rfl⟩)

namespace Expr

variable {t : Expr}

/-- The failures of evaluation: those of arithmetic, a factorial, and a variable of the expression
without a value. -/
theorem evaluate_failsAs (ht : t.isWellFormed = true) :
    (evaluate bindings t).FailsAs (Failure.IsEvaluation bindings t.names) := by
  induction t with
  | absent => cases ht
  | leaf a => exact a.evaluate_failsAs
  | node op l r ihl ihr =>
    have left : l.isWellFormed = true →
        (evaluate bindings l).FailsAs (Failure.IsEvaluation bindings (node op l r).names) :=
      fun hl => (ihl hl).evaluation_mono fun _ => List.mem_append_left _
    have right : r.isWellFormed = true →
        (evaluate bindings r).FailsAs (Failure.IsEvaluation bindings (node op l r).names) :=
      fun hr => (ihr hr).evaluation_mono fun _ => List.mem_append_right _
    cases op with
    | binary op =>
      obtain ⟨hl, hr⟩ := Bool.and_eq_true_iff.mp ht
      refine (left hl).bind fun a => ?_
      refine (right hr).bind fun b => ?_
      exact op.evaluate_failsAs.evaluation
    | factorial =>
      obtain ⟨hl, -⟩ := Bool.and_eq_true_iff.mp ht
      refine (left hl).bind fun a => ?_
      exact Number.factorial_failsAs.mono fun _ => .inl
    | function f =>
      obtain ⟨-, hr⟩ := Bool.and_eq_true_iff.mp ht
      refine (right hr).bind fun b => ?_
      exact f.evaluate_failsAs.evaluation
    | _ => cases ht

/-- A value is returned only where every variable has one. -/
theorem evaluate_bound (ht : t.isWellFormed = true) :
    Returns (evaluate bindings t) fun _ => ∀ x ∈ t.names, ∃ z, bindings.find? x = some z := by
  induction t with
  | absent => cases ht
  | leaf a =>
    cases a with
    | number z => exact Returns.pure nofun
    | monomial x m p =>
      unfold evaluate Leaf.evaluate
      dsimp only
      split
      next v found => exact fun _ _ => List.forall_mem_singleton.mpr ⟨v, found⟩
      next => exact Returns.throw _
  | node op l r ihl ihr =>
    cases op with
    | binary op =>
      obtain ⟨hl, hr⟩ := Bool.and_eq_true_iff.mp ht
      refine Returns.bind (ihl hl) fun a left => ?_
      refine Returns.bind (ihr hr) fun b right => ?_
      intro _ _
      exact List.forall_mem_append.mpr ⟨left, right⟩
    | factorial =>
      obtain ⟨hl, hr⟩ := Bool.and_eq_true_iff.mp ht
      cases r with
      | absent =>
        refine Returns.bind (ihl hl) fun _ left _ _ => List.forall_mem_append.mpr ⟨left, nofun⟩
      | _ => cases hr
    | function f =>
      obtain ⟨hl, hr⟩ := Bool.and_eq_true_iff.mp ht
      cases l with
      | absent => exact Returns.bind (ihr hr) fun _ right _ _ => right
      | _ => cases hl
    | _ => cases ht

end Expr

end SymbolicAlgebra
