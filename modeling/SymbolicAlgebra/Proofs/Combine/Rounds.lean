import SymbolicAlgebra.Proofs.Combine.Invariant

/-!
# Rounds that give up

`combineFrom bottom n` is `n` rounds of combination on top of another one. With `giveUp` at the
bottom a call that goes too deep fails, with a failure that combining does not have. Such rounds
*follow* the rounds on any other bottom: they end in the same way, unless they give up
(`combineFrom_follows`).

A round calls the round below and does nothing else with it, and so does every part of it: they are
*rules* (`Rule`, `combineStep_rule`). Whatever pure calculations, calls and sequences of them
respect is respected by a round (`Rule.follows`).

So two questions come apart. Whether the rounds suffice is whether the ones with `giveUp` at the
bottom give up. And what holds of all results of those is shown without counting rounds, as
there are no results at the bottom.
-/

namespace SymbolicAlgebra

variable {α β : Type} {e : Failure} {x y : Calc α}

/-! ## Following -/

/-- The first calculation ends as the second one does, unless it fails in the given way. -/
def Calc.Follows (e : Failure) (x y : Calc α) : Prop := x = .error e ∨ x = y

namespace Calc.Follows

theorem refl (x : Calc α) : Follows e x x := .inr rfl

/-- If the first part gives up, then so does the whole. Else it ends as the other first part, and
the second part follows. -/
theorem bind {f g : α → Calc β} (h : Follows e x y) (hfg : ∀ a, Follows e (f a) (g a)) :
    Follows e (x >>= f) (y >>= g) := by
  rcases h with rfl | rfl
  · exact .inl rfl
  · cases x with
    | error e' => exact .refl _
    | ok a => exact hfg a

/-- A calculation that does not fail in the given way has the same end. -/
theorem eq (h : Follows e x y) (hx : x.FailsAs (· ≠ e)) : x = y := by
  rcases h with h | h
  · exact absurd rfl (hx e h)
  · exact h

end Calc.Follows

namespace Expr

open Calc (Follows)

variable [Tolerance] [Exactness]

/-- The combination that fails. -/
def giveUp : Combiner := fun _ _ _ => throw .noOperation

/-! ## Rules -/

/-- A calculation that does nothing with the combination it is given but to call it. -/
inductive Rule : {α : Type} → (Combiner → Calc α) → Prop where
  /-- Nothing is called. -/
  | done {α : Type} (x : Calc α) : Rule fun _ => x
  /-- One call. -/
  | call (op : Binary) (l r : Expr) : Rule fun rec => rec op l r
  /-- One part after the other. -/
  | bind {α β : Type} {F : Combiner → Calc α} {G : α → Combiner → Calc β} (first : Rule F)
      (second : ∀ a, Rule (G a)) : Rule fun rec => F rec >>= fun a => G a rec

namespace Rule

variable {F G : Combiner → Calc α}

omit [Tolerance] [Exactness] in
/-- What is made of the result of a rule. -/
theorem map (f : α → β) (h : Rule F) : Rule fun rec => f <$> F rec := by
  have same : (fun rec => f <$> F rec) = fun rec => F rec >>= fun a => pure (f a) :=
    funext fun rec => map_eq_pure_bind f (F rec)
  rw [same]
  exact h.bind fun a => .done (pure (f a))

omit [Tolerance] [Exactness] in
/-- After a question. -/
theorem ask {c : Calc Bool} (hF : Rule F) (hG : Rule G) :
    Rule fun rec => c >>= fun b => if b = true then F rec else G rec := by
  refine (done c).bind fun b => ?_
  cases b with
  | true => exact hF
  | false => exact hG

omit [Tolerance] [Exactness] in
/-- After a condition. -/
theorem ite {p : Prop} [Decidable p] (hF : Rule F) (hG : Rule G) :
    Rule fun rec => if p then F rec else G rec := by
  by_cases h : p
  · simp only [if_pos h]
    exact hF
  · simp only [if_neg h]
    exact hG

omit [Tolerance] [Exactness] in
/-- A rule follows along with what it calls. -/
theorem follows {rec rec' : Combiner} (rule : Rule F)
    (h : ∀ op l r, Follows e (rec op l r) (rec' op l r)) : Follows e (F rec) (F rec') := by
  induction rule with
  | done x => exact .refl x
  | call op l r => exact h op l r
  | bind _ _ first second => exact first.bind second

end Rule

variable {op : Binary} {level : Level} {new : Leaf} {inverted : Bool} {l r t : Expr}

/-- Negation calls for products, quotients and differences, and recurs into first operands. -/
theorem negateWith_rule : Rule (negateWith · t) := by
  induction t using negateWith.induct with
  | case1 => exact .done _
  | case2 => exact .done _
  | case3 l r ih => exact ih.bind fun _ => .call ..
  | case4 l r ih => exact ih.bind fun _ => .call ..
  | case5 l r ih => exact ih.bind fun _ => .call ..
  | case6 l r => exact .call ..
  | case7 t absent leaf mul div add sub =>
    simp only [negateWith]
    exact .call ..

/-- The identities of sums call for a double, and to move a sign out of the right operand. -/
theorem atomicSum_rule : Rule (atomicSum · op l r) := by
  unfold atomicSum
  refine .ask ?rightZero (.ask ?leftZero (.ask ?same (.bind (.done _) fun sign => ?differ)))
  case rightZero => exact .done _
  case leftZero => exact .ite (.done _) negateWith_rule
  case same => exact .ite (.call ..) (.done _)
  case differ =>
    refine .ite ?moves (.done _)
    exact .bind negateWith_rule fun opposite => .call ..

/-- The identities of products call for a square only. -/
theorem atomicProduct_rule : Rule (atomicProduct · l r) := by
  unfold atomicProduct
  refine .ask ?leftZero (.ask ?rightZero (.ask ?leftOne (.ask ?rightOne (.ask ?same ?differ))))
  case leftZero => exact .done _
  case rightZero => exact .done _
  case leftOne => exact .done _
  case rightOne => exact .done _
  case same => exact .ite (.done _) (.call ..)
  case differ => exact .done _

/-- The identities of quotients only negate. -/
theorem atomicQuotient_rule : Rule (atomicQuotient · l r) := by
  unfold atomicQuotient
  refine .ask ?rightZero (.ask ?leftZero (.ask ?one (.ask ?negOne ?rest)))
  case rightZero => exact .done _
  case leftZero => exact .done _
  case one => exact .done _
  case negOne => exact negateWith_rule
  case rest => exact .done _

/-- The identities at the root, which for powers and equations call nothing. -/
theorem atomicWith_rule : Rule (atomicWith · op l r) := by
  cases op with
  | add => exact atomicSum_rule
  | sub => exact atomicSum_rule
  | mul => exact atomicProduct_rule
  | div => exact atomicQuotient_rule
  | pow => exact .done _
  | equals => exact .done _

/-- Splicing recurs into both operands, and rebuilds the path to the leaf by the identities. -/
theorem spliceWith_rule : Rule (spliceWith · level new inverted t) := by
  induction inverted, t using spliceWith.induct level with
  | case1 => exact .done _
  | case2 => exact .done _
  | case3 inverted op l r hop ihl ihr =>
    simp only [spliceWith, if_pos hop]
    refine ihl.bind fun o => ?_
    cases o with
    | some l' => exact atomicWith_rule.map some
    | none =>
      refine ihr.bind fun o => ?_
      cases o with
      | some r' => exact atomicWith_rule.map some
      | none => exact .done _
  | case4 inverted op l r hop =>
    simp only [spliceWith, if_neg hop]
    exact .done _
  | case5 inverted t absent leaf node =>
    simp only [spliceWith]
    exact .done _

/-- A leaf on the right is spliced, if there is one. -/
theorem joinRight_rule : Rule (joinRight · level op l r) := by
  unfold joinRight
  split
  next new => exact .ite spliceWith_rule (.done _)
  next => exact .done _

/-- So is a leaf on the left. -/
theorem joinLeft_rule : Rule (joinLeft · level op l r) := by
  unfold joinLeft
  split
  next new => exact .ite spliceWith_rule (.done _)
  next => exact .done _

/-- A chain on the right is combined in two calls, one after the other. -/
theorem reassociate_rule : Rule (reassociate · level op l r) := by
  unfold reassociate
  split
  next inner a b =>
    refine .ite ?chain atomicWith_rule
    exact .bind (.call ..) fun first => .call ..
  next => exact atomicWith_rule

/-- Chains are joined or taken apart. -/
theorem chainWith_rule : Rule (chainWith · level op l r) := by
  unfold chainWith
  refine .bind joinRight_rule fun o => ?_
  cases o with
  | some t => exact .done _
  | none =>
    refine .bind joinLeft_rule fun o => ?_
    cases o with
    | some t => exact .done _
    | none => exact reassociate_rule

/-- Operands go through the identities, or through those of chains first. -/
theorem combineOperands_rule : Rule (combineOperands · op l r) := by
  unfold combineOperands
  split
  next level chain => exact .ite atomicWith_rule chainWith_rule
  next none => exact atomicWith_rule

/-- A round only calls the combination that it is given. -/
theorem combineStep_rule (op : Binary) (l r : Expr) : Rule (combineStep · op l r) := by
  unfold combineStep
  refine .ite ?equation ?operator
  case equation => exact .done _
  case operator =>
    refine .bind (.done _) fun left => .bind (.done _) fun right => ?_
    exact combineOperands_rule

/-! ## All rounds -/

/-- Rounds that may give up follow the rounds on any bottom. -/
theorem combineFrom_follows (bottom : Combiner) (n : ℕ) :
    ∀ op l r, Follows .noOperation (combineFrom giveUp n op l r) (combineFrom bottom n op l r) := by
  induction n with
  | zero => exact fun _ _ _ => .inl rfl
  | succ n ih => exact fun op l r => (combineStep_rule op l r).follows ih

end Expr

end SymbolicAlgebra
