import SymbolicAlgebra.Proofs.Combine.Depth

/-!
# Combining ends

The rules of combination call each other, and the rounds of `combine` are only a way to write that
down. Here is what they stand for. `Terminates c x` says of the recursion itself, without counting
rounds, that the call `c` ends with `x`: a round of it asks for finitely many calls, every one of
them ends, and with their answers the round ends with `x`. Between its calls a round is recursion on
the operands.

Every call ends, in one way only, and that is what `combine` returns (`combine_terminates`). The
calls that a round asks for are of lower rank (`combineStep_asks`), so they go no deeper than
`combineDepth`, and more rounds on any bottom change nothing.
-/

namespace SymbolicAlgebra

namespace Expr

open Calc (Follows)

/-! ## Calls -/

/-- A call of a combination. -/
structure Call where
  /-- The operator. -/
  op : Binary
  /-- The left operand. -/
  left : Expr
  /-- The right operand. -/
  right : Expr

/-- The answer of a combination to a call. -/
def Call.answer (c : Call) (rec : Combiner) : Calc Expr := rec c.op c.left c.right

/-- A calculation that asks its combination for no more than the calls: any other combination will
do that answers them alike. -/
def Asks {α : Type} (F : Combiner → Calc α) (rec : Combiner) (calls : List Call) : Prop :=
  ∀ rec', (∀ c ∈ calls, c.answer rec' = c.answer rec) → F rec' = F rec

/-- A rule makes finitely many calls. -/
theorem Rule.asks {α : Type} {F : Combiner → Calc α} (rule : Rule F) (rec : Combiner) :
    ∃ calls, Asks F rec calls := by
  induction rule with
  | done x => exact ⟨[], fun _ _ => rfl⟩
  | call op l r => exact ⟨[⟨op, l, r⟩], fun _ same => same _ (List.mem_singleton_self _)⟩
  | @bind _ _ F G _ _ first second =>
    obtain ⟨calls, asks⟩ := first
    cases result : F rec with
    | error f =>
      refine ⟨calls, fun rec' same => ?_⟩
      have := (asks rec' same).trans result
      simp only [this, result]
      rfl
    | ok a =>
      -- what is called next depends on the result
      obtain ⟨more, asks'⟩ := second a
      refine ⟨calls ++ more, fun rec' same => ?_⟩
      rw [List.forall_mem_append] at same
      have := (asks rec' same.1).trans result
      simp only [this, result]
      exact asks' rec' same.2

variable [Tolerance] [Exactness]

/-- The recursion ends: a call asks for finitely many others, all of which end, and with their
answers it ends itself. -/
inductive Terminates : Call → Calc Expr → Prop where
  /-- A round whose calls end. -/
  | round (c : Call) (rec : Combiner) (calls : List Call)
      (asks : Asks (combineStep · c.op c.left c.right) rec calls)
      (ends : ∀ d ∈ calls, Terminates d (d.answer rec)) : Terminates c (c.answer (combineStep rec))

variable {rec rec' : Combiner} {op : Binary} {l r : Expr} {n : ℕ}

/-! ## Calls of lower rank -/

/-- The combination that gives up from a rank on. -/
def upTo (rec : Combiner) (n : ℕ) : Combiner := fun op l r =>
  if rank op l r < n then rec op l r else giveUp op l r

theorem upTo_of_lt (h : rank op l r < n) : upTo rec n op l r = rec op l r := if_pos h

/-- Only the calls below the bound matter. -/
theorem upTo_congr (h : ∀ op l r, rank op l r < n → rec op l r = rec' op l r) :
    upTo rec n = upTo rec' n := by
  funext op l r
  unfold upTo
  split
  next lower => exact h op l r lower
  next => rfl

/-- A bound makes no other result. -/
theorem upTo_follows (op : Binary) (l r : Expr) :
    Follows .noOperation (upTo rec n op l r) (rec op l r) := by
  unfold upTo
  split
  · exact .refl _
  · exact .inl rfl

/-- One round finishes with calls of lower rank only. -/
theorem combineStep_upTo_finishes (op : Binary) (l r : Expr) :
    Finishes (combineStep (upTo combine (rank op l r)) op l r) := by
  refine combineStep_finishes (fun op' l' r' => ?_) (fun op' l' r' => ?_) fun op' l' r' lower => ?_
  · unfold upTo
    split
    · exact combine_size op' l' r'
    · exact .throw _
  · unfold upTo
    split
    · exact combine_keeps op' l' r'
    · exact .throw _
  · rw [upTo_of_lt lower]
    exact combine_finishes op' l' r'

/-- The calls of lower rank are enough for a round. -/
theorem combineStep_eq_upTo (h : combineStep (upTo rec (rank op l r)) op l r =
      combineStep (upTo combine (rank op l r)) op l r) :
    combineStep rec op l r = combineStep (upTo combine (rank op l r)) op l r := by
  have finishes := combineStep_upTo_finishes op l r
  rw [← h] at finishes ⊢
  exact (((combineStep_rule op l r).follows upTo_follows).eq finishes).symm

/-- Rounds after rounds. -/
theorem combineFrom_add (bottom : Combiner) (m n : ℕ) :
    combineFrom bottom (n + m) = combineFrom (combineFrom bottom m) n := by
  induction n with
  | zero =>
    rw [Nat.zero_add]
    rfl
  | succ n ih =>
    rw [Nat.succ_add]
    funext op l r
    show combineStep (combineFrom bottom (n + m)) op l r = _
    rw [ih]
    rfl

/-- As many rounds as the rank are as good as any number of them, on any bottom. -/
theorem combineFrom_eq_combine (bottom : Combiner) (h : rank op l r < n) :
    combineFrom bottom n op l r = combine op l r := by
  have finished {m : ℕ} (h : rank op l r < m) (bottom : Combiner) :
      combineFrom giveUp m op l r = combineFrom bottom m op l r :=
    (combineFrom_follows bottom m op l r).eq (combineFrom_finishes h)
  have depth := rank_lt_combineDepth op l r
  calc combineFrom bottom n op l r
    _ = combineFrom giveUp n op l r := (finished h bottom).symm
    _ = combineFrom giveUp (n + combineDepth l r) op l r := by
      rw [combineFrom_add]; exact finished h _
    _ = combineFrom giveUp (combineDepth l r + n) op l r := by rw [Nat.add_comm]
    _ = combineFrom giveUp (combineDepth l r) op l r := by
      rw [combineFrom_add]; exact (finished depth _).symm
    _ = combine op l r := (combine_eq op l r).symm

/-- A round with the right answers to the calls of lower rank. -/
theorem combineStep_eq_combine
    (h : ∀ op' l' r', rank op' l' r' < rank op l r → rec op' l' r' = combine op' l' r') :
    combineStep rec op l r = combine op l r :=
  calc combineStep rec op l r
    _ = combineStep (upTo combine (rank op l r)) op l r :=
      combineStep_eq_upTo (by rw [upTo_congr h])
    _ = combineStep (combineFrom giveUp (rank op l r)) op l r :=
      (combineStep_eq_upTo (by
        rw [upTo_congr fun _ _ _ lower => combineFrom_eq_combine giveUp lower])).symm
    _ = combine op l r := combineFrom_eq_combine giveUp (Nat.lt_succ_self _)

/-- Combining is a round that calls itself. -/
theorem combine_eq_step (op : Binary) (l r : Expr) :
    combine op l r = combineStep combine op l r := (combineStep_eq_combine fun _ _ _ _ => rfl).symm

/-- A round of combining asks for finitely many calls, all of lower rank. -/
theorem combineStep_asks (op : Binary) (l r : Expr) : ∃ calls : List Call,
    (∀ c ∈ calls, rank c.op c.left c.right < rank op l r) ∧
      Asks (combineStep · op l r) combine calls := by
  obtain ⟨calls, asks⟩ := (combineStep_rule op l r).asks (upTo combine (rank op l r))
  refine ⟨calls.filter fun c => rank c.op c.left c.right < rank op l r,
    fun c hc => of_decide_eq_true (List.mem_filter.mp hc).2, fun rec' same => ?_⟩
  have alike : combineStep (upTo rec' (rank op l r)) op l r =
      combineStep (upTo combine (rank op l r)) op l r := by
    refine asks _ fun c hc => ?_
    unfold Call.answer upTo
    split
    next lower => exact same c (List.mem_filter.mpr ⟨hc, decide_eq_true lower⟩)
    next => rfl
  exact (combineStep_eq_upTo alike).trans (combineStep_eq_upTo rfl).symm

/-! ## Every call ends -/

/-- A call that ends has the answer of `combine`. -/
theorem Terminates.eq {c : Call} {x : Calc Expr} (h : Terminates c x) : x = c.answer combine := by
  induction h with
  | round c rec calls asks ends ih =>
    have same := asks combine fun d hd => (ih d hd).symm
    exact same.symm.trans (combine_eq_step _ _ _).symm

/-- Every call ends, by induction on its rank. -/
theorem terminates (c : Call) : Terminates c (c.answer combine) := by
  induction h : rank c.op c.left c.right using Nat.strong_induction_on generalizing c with
  | _ n ih =>
    subst h
    obtain ⟨calls, lower, asks⟩ := combineStep_asks c.op c.left c.right
    have ends := Terminates.round c combine calls asks fun d hd => ih _ (lower d hd) d rfl
    rwa [Call.answer, ← combine_eq_step] at ends

/-- **Combining ends**, whatever the operands. The recursion of its rules ends in one way, with what
`combine` returns; that is a tree or a failure other than to give up; and more rounds than there
are, on any bottom, return the same. -/
theorem combine_terminates (op : Binary) (l r : Expr) :
    (∀ x, Terminates ⟨op, l, r⟩ x ↔ x = combine op l r) ∧
      combine op l r ≠ .error .noOperation ∧
        ∀ bottom n, combineFrom bottom (combineDepth l r + n) op l r = combine op l r := by
  refine ⟨fun x => ⟨Terminates.eq, ?_⟩, fun failed => ?_, fun bottom n => ?_⟩
  · rintro rfl
    exact terminates _
  · exact combine_finishes op l r _ failed rfl
  · exact combineFrom_eq_combine bottom (Nat.lt_add_right n (rank_lt_combineDepth op l r))

omit [Tolerance] [Exactness] in
/-- Operands that no combination makes: a chain that nests to the right, with negative terms. -/
example :
    letI := Double.standardTolerance
    letI := Exactness.free
    let term (n : ℤ) (x : String) := leaf (.monomial x (.ofInt n) .one)
    let inner := binary .sub (term (-3) "z") (term (-4) "w")
    combine .sub (term 1 "x") (binary .add (term (-2) "y") inner) =
      .ok (binary .sub (binary .add (binary .add (term 1 "x") (term 2 "y")) (term 3 "z"))
        (term 4 "w")) := by
  decide +kernel

/-- Any function that is a round of itself is `combine`. -/
theorem eq_combine_of_step {f : Combiner} (h : ∀ op l r, f op l r = combineStep f op l r) :
    f = combine := by
  funext op l r
  induction hn : rank op l r using Nat.strong_induction_on generalizing op l r with
  | _ n ih =>
    subst hn
    rw [h]
    exact combineStep_eq_combine fun op' l' r' lower => ih _ lower op' l' r' rfl

end Expr

end SymbolicAlgebra
