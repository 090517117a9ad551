import SymbolicAlgebra.Simplify
import SymbolicAlgebra.Proofs.Combine.Depth

/-!
# Rewriting does not make larger trees

What is built is no larger than the plain node, and what is simplified no larger than the tree it
was (`Expr.rewriting_size`). Building is the end of the rounds of combination, which have this bound
on any bottom that has it.

To simplify takes no more than that. An equivalence may well make a larger tree, as splitting the
fraction of a sum does, but the search takes a candidate only if it is smaller once simplified. So
whatever simplifies the candidates, the search stays at or below the tree that it starts from
(`search_size`), and nothing has to be known of the equivalences.
-/

namespace SymbolicAlgebra

variable [Tolerance] [Exactness]

namespace Expr

variable {op : Op} {l r t best : Expr} {deeper : Option (Expr → Calc Expr)}

/-! ## Building -/

/-- An opposite grows by two at most, and not at all if there is a lead to turn. -/
theorem negate_size : Returns (negate t) fun u =>
    u.size ≤ t.size + 2 ∧ (t.lead.isSome = true → u.size ≤ t.size) :=
  negateWith_size combine_size

/-- What is built is no larger than the node. -/
theorem build_size : Returns (build op l r) (·.size ≤ 1 + l.size + r.size) := by
  cases op with
  | binary op => exact combine_size op l r
  | factorial => exact .pure (Nat.le_refl _)
  | function f => exact .pure (Nat.le_refl _)
  | opening => exact .after fun _ => .pure (Nat.le_refl _)
  | closing => exact .after fun _ => .pure (Nat.le_refl _)

/-! ## Simplifying -/

omit [Tolerance] [Exactness] in
/-- A candidate has to be smaller to be taken, so nothing is asked of it. -/
theorem better_size (candidate : Calc Expr) :
    Returns (better best candidate) (·.size ≤ best.size) := by
  unfold better
  split
  next t =>
    split
    next smaller => exact .pure (Nat.le_of_lt smaller)
    next => exact .pure (Nat.le_refl _)
  next e =>
    split
    next arithmetic => exact .pure (Nat.le_refl _)
    next => exact .throw _

omit [Tolerance] [Exactness] in
/-- The search never takes a larger tree. -/
theorem search_size (f : Expr → Calc Expr) (rewrites : List (Expr → Calc (Option Expr))) :
    Returns (search f t rewrites best) (·.size ≤ best.size) := by
  induction rewrites generalizing best with
  | nil => exact .pure (Nat.le_refl _)
  | cons rewrite rest ih =>
    refine .after fun candidate => ?_
    cases candidate with
    | none => exact ih
    | some t' =>
      refine .bind (better_size _) fun best' smaller => ?_
      exact ih.mono fun u h => Nat.le_trans h smaller

omit [Exactness] in
/-- Where combining fails the old tree stays, and else the search starts from what it made. -/
theorem improve_size {old : Expr} {combined : Calc Expr}
    (h : Returns combined (·.size ≤ old.size)) :
    Returns (improve deeper old combined) (·.size ≤ old.size) := by
  unfold improve
  split
  next e =>
    split
    next arithmetic => exact .pure (Nat.le_refl _)
    next => exact .throw _
  next best =>
    have hb : best.size ≤ old.size := h best rfl
    split
    next f =>
      split
      next => exact .pure hb
      next => exact (search_size _ _).mono fun u hu => Nat.le_trans hu hb
    next => exact .pure hb

/-- A pass builds operators again of operands that have not grown. -/
theorem passWith_size : Returns (passWith deeper t) (·.size ≤ t.size) := by
  induction t with
  | absent => exact .pure (Nat.le_refl 0)
  | leaf a => exact .pure (Nat.le_refl 1)
  | node op l r ihl ihr =>
    refine .after fun folded => ?_
    cases folded with
    | some z => exact .pure (size_pos nofun)
    | none =>
      refine .bind ihl fun l' hl => .bind ihr fun r' hr => ?_
      refine improve_size (build_size.mono fun u hu => ?_)
      rw [size_node]
      omega

theorem pass_size (depth : ℕ) : Returns (pass depth t) (·.size ≤ t.size) := by
  cases depth with
  | zero => exact passWith_size
  | succ depth => exact passWith_size

/-- Any number of passes makes no larger tree. -/
theorem passes_size (depth n : ℕ) : Returns (passes depth n t) (·.size ≤ t.size) := by
  induction n generalizing t with
  | zero => exact .pure (Nat.le_refl _)
  | succ n ih =>
    refine .bind (pass_size depth) fun t' smaller => .ask ?settled ?other
    case settled => exact .pure (Nat.le_refl _)
    case other => exact ih.mono fun u h => Nat.le_trans h smaller

/-- Simplification is a number of passes. -/
theorem simplify_size (depth : ℕ) (t : Expr) : Returns (simplify depth t) (·.size ≤ t.size) := by
  have there : Returns t.present (·.size ≤ t.size) := by
    intro t' present
    rw [eq_of_present present]
  unfold simplify
  refine .bind there fun t' smaller => ?_
  exact (passes_size depth passLimit).mono fun u h => Nat.le_trans h smaller

/-! ## All of rewriting -/

/-- **Rewriting does not make larger trees.** What an operator builds has at most one leaf or
operator more than its operands, an opposite has at most two more than the tree and none more if
that has a negative sign, and a simplified tree has at most as many, whatever the depth. -/
theorem rewriting_size :
    (∀ op l r u, build op l r = .ok u → u.size ≤ 1 + l.size + r.size) ∧
    (∀ t u, negate t = .ok u →
      u.size ≤ t.size + 2 ∧ ∀ n, t.sgn = .ok n → n < 0 → u.size ≤ t.size) ∧
    ∀ depth t u, simplify depth t = .ok u → u.size ≤ t.size := by
  refine ⟨fun _ _ _ => build_size, fun t u opposite => ?_, simplify_size⟩
  obtain ⟨bound, keeps⟩ := negate_size u opposite
  refine ⟨bound, fun n sign negative => keeps ?_⟩
  -- a tree gets its sign from the leaf in front, which takes the opposite one
  obtain ⟨a, lead, -⟩ := lead_of_sgn sign negative
  rw [lead]
  rfl

omit [Tolerance] [Exactness] in
/-- The opposite of a sine and back, its double, and a sum of fractions with one denominator. The
opposite is as large as the bound allows. -/
theorem rewriting_size_sine :
    letI := Double.standardTolerance
    letI := Exactness.free
    let sine := apply .sin (ofName "x")
    let opposite := binary .mul negOne sine
    let double := binary .mul two sine
    let sum := binary .add (binary .div (ofName "x") (ofName "y"))
      (binary .div (ofName "z") (ofName "y"))
    let fraction := binary .div (binary .add (ofName "x") (ofName "z")) (ofName "y")
    double.size ≤ 1 + sine.size + sine.size ∧ opposite.size ≤ sine.size + 2 ∧
      sine.size ≤ opposite.size ∧ fraction.size ≤ sum.size := by
  let := Double.standardTolerance
  let := Exactness.free
  intro sine opposite double sum fraction
  have doubled : build (.binary .add) sine sine = .ok double := by decide +kernel
  have turned : negate sine = .ok opposite := by decide +kernel
  have back : negate opposite = .ok sine := by decide +kernel
  have negative : opposite.sgn = .ok (-1) := by decide +kernel
  have joined : simplify 2 sum = .ok fraction := by decide +kernel
  exact ⟨rewriting_size.1 _ _ _ _ doubled, (rewriting_size.2.1 _ _ turned).1,
    (rewriting_size.2.1 _ _ back).2 _ negative (by decide), rewriting_size.2.2 _ _ _ joined⟩

end Expr

end SymbolicAlgebra
