import SymbolicAlgebra.Proofs.Combine.Shape
import SymbolicAlgebra.Simplify

/-!
# How many passes simplification takes

`Expr.simplify` repeats passes until one of them leaves the tree equal, but gives up after
`passLimit` of them. What it gives back is then settled, and simplification leaves it alone, or
every one of the passes has changed the tree (`simplify_simplify`).

The second does happen: no number of passes is enough for all trees. A pass folds what was
constant before it, so in `|x * |x * ... |0|||` it removes the innermost magnitude, and what is
around it becomes constant only then (`pass_magnitudes`). Simplification removes eight of any
number of them (`simplify_magnitudes`).
-/

namespace SymbolicAlgebra

namespace Expr

variable [Tolerance] [Exactness] {depth n : ℕ} {t u v : Expr}

/-! ## Settled trees -/

/-- A pass leaves the tree equal. -/
def Settled (depth : ℕ) (t : Expr) : Prop := ∃ u, pass depth t = .ok u ∧ u.same t = .ok true

/-- A number of passes over a tree, each of which changes it. -/
inductive Changes (depth : ℕ) : ℕ → Expr → Expr → Prop
  | refl (t : Expr) : Changes depth 0 t t
  | step {n : ℕ} {t u v : Expr} (run : pass depth t = .ok u) (other : u.same t = .ok false)
    (rest : Changes depth n u v) : Changes depth (n + 1) t v

/-- Passes leave a settled tree as it is. -/
theorem passes_of_settled (h : Settled depth t) (n : ℕ) : passes depth n t = .ok t := by
  obtain ⟨u, run, same⟩ := h
  cases n with
  | zero => rfl
  | succ n =>
    rw [passes, run]
    show (u.same t >>= fun equal => if equal then pure t else passes depth n u) = _
    rw [same]
    rfl

/-- As many passes as change the tree lead to the last of its changes. -/
theorem passes_of_changes (h : Changes depth n t u) : passes depth n t = .ok u := by
  induction h with
  | refl => rfl
  | @step n t u v run other rest ih =>
    rw [passes, run]
    show (u.same t >>= fun equal => if equal then pure t else passes depth n u) = _
    rw [other]
    exact ih

/-- Passes end with a settled tree, unless each of them changes the tree. -/
theorem settled_or_changes (run : passes depth n t = .ok u) :
    Settled depth u ∨ Changes depth n t u := by
  induction n generalizing t with
  | zero =>
    obtain ⟨⟩ := run
    exact .inr (.refl _)
  | succ n ih =>
    obtain ⟨v, first, run⟩ := Calc.bind_eq_ok.mp run
    obtain ⟨equal, same, run⟩ := Calc.bind_eq_ok.mp run
    cases equal with
    | true =>
      obtain ⟨⟩ := run
      exact .inl ⟨v, first, same⟩
    | false => exact (ih run).imp_right (.step first same)

/-- Simplification of a tree that is there is a number of passes. -/
theorem simplify_eq (h : t ≠ .absent) : simplify depth t = passes depth passLimit t := by
  cases t with
  | absent => exact absurd rfl h
  | leaf => rfl
  | node => rfl

/-- **Simplification leaves its result as it is**, unless all of its passes have changed the
tree. -/
theorem simplify_simplify (run : simplify depth t = .ok u) (there : u ≠ .absent) :
    simplify depth u = .ok u ∨ Changes depth passLimit t u := by
  have passed : passes depth passLimit t = .ok u := by
    obtain ⟨t', present, passed⟩ := Calc.bind_eq_ok.mp run
    rwa [eq_of_present present] at passed
  rw [simplify_eq there]
  exact (settled_or_changes passed).imp_left fun settled => passes_of_settled settled passLimit

/-! ## Trees that take many passes -/

/-- Magnitudes of products with `x`, one in the other, around the magnitude of zero. -/
def magnitudes : ℕ → Expr
  | 0 => apply .abs zero
  | n + 1 => apply .abs (binary .mul (ofName "x") (magnitudes n))

/-- Folding finds no number in what holds a variable. -/
theorem foldOr_of_not_const {otherwise : Calc Expr} (h : t.isConst = false) :
    foldOr t otherwise = otherwise := by
  have none : t.fold? = .ok none := by
    cases t with
    | absent => cases h
    | leaf a =>
      show (if !(leaf a).isConst then pure .none else _) = Except.ok none
      rw [h]
      rfl
    | node op l r =>
      show (if !(node op l r).isConst then pure .none else _) = Except.ok none
      rw [h]
      rfl
  rw [foldOr, none]
  rfl

/-- A variable and a function stay side by side. -/
theorem combine_name_apply (name : String) (f : Func) (t : Expr) :
    combine .mul (ofName name) (apply f t) = .ok (binary .mul (ofName name) (apply f t)) := by
  obtain ⟨n, rounds⟩ := combineDepth_eq_succ (ofName name) (apply f t)
  rw [combine, rounds]
  rfl

variable {deeper : Option (Expr → Calc Expr)}

/-- The product of a variable and a function is no quotient, and stays. -/
theorem improve_name_apply (old : Expr) (name : String) (f : Func) (t : Expr) :
    improve deeper old (combine .mul (ofName name) (apply f t)) =
      .ok (binary .mul (ofName name) (apply f t)) := by
  rw [combine_name_apply]
  cases deeper <;> rfl

omit [Exactness] in
theorem improve_apply (old : Expr) (f : Func) (t : Expr) :
    improve deeper old (.ok (apply f t)) = .ok (apply f t) := by
  cases deeper <;> rfl

/-- A pass goes into a function of something with a variable. -/
theorem passWith_apply {f : Func} (h : t.isConst = false) (run : passWith deeper t = .ok u) :
    passWith deeper (apply f t) = .ok (apply f u) := by
  have named : (apply f t).isConst = false := by simp [isConst, h]
  rw [passWith, foldOr_of_not_const named, run]
  exact improve_apply (apply f t) f u

/-- A pass goes into the factor behind a variable. -/
theorem passWith_name_mul {name : String} {f : Func} (run : passWith deeper t = .ok (apply f u)) :
    passWith deeper (binary .mul (ofName name) t) =
      .ok (binary .mul (ofName name) (apply f u)) := by
  have named : (binary .mul (ofName name) t).isConst = false := rfl
  rw [passWith, foldOr_of_not_const named, run]
  exact improve_name_apply (binary .mul (ofName name) t) name f u

/-- A pass removes one magnitude. -/
theorem passWith_magnitudes (n : ℕ) :
    passWith deeper (magnitudes (n + 1)) = .ok (magnitudes n) := by
  induction n with
  | zero => cases deeper <;> rfl
  | succ n ih =>
    -- what the pass leaves below the variable is a function, so it stays beside it
    obtain ⟨u, shape⟩ : ∃ u, magnitudes n = apply .abs u := by
      cases n <;> exact ⟨_, rfl⟩
    rw [shape] at ih
    have run : passWith deeper (magnitudes (n + 2)) =
        .ok (apply .abs (binary .mul (ofName "x") (apply .abs u))) :=
      passWith_apply rfl (passWith_name_mul ih)
    rw [run, ← shape]
    rfl

theorem pass_magnitudes (depth n : ℕ) : pass depth (magnitudes (n + 1)) = .ok (magnitudes n) := by
  cases depth with
  | zero => exact passWith_magnitudes n
  | succ depth => exact passWith_magnitudes n

omit [Exactness] in
/-- Different numbers of magnitudes are different trees. -/
theorem same_magnitudes (n : ℕ) : (magnitudes n).same (magnitudes (n + 1)) = .ok false := by
  induction n with
  | zero => rfl
  | succ n ih =>
    have inner : (binary .mul (ofName "x") (magnitudes n)).same
        (binary .mul (ofName "x") (magnitudes (n + 1))) = .ok false := by
      show Calc.both ((ofName "x").same (ofName "x")) _ = _
      rw [ih]
      rfl
    show Calc.both (.ok true) _ = _
    exact inner

/-- Each of any number of passes changes the tree. -/
theorem changes_magnitudes (depth k n : ℕ) :
    Changes depth k (magnitudes (n + k)) (magnitudes n) := by
  induction k with
  | zero => exact .refl _
  | succ k ih => exact .step (pass_magnitudes depth (n + k)) (same_magnitudes (n + k)) ih

/-- **Simplification stops in the middle**: it removes eight magnitudes of any number. -/
theorem simplify_magnitudes (depth n : ℕ) :
    simplify depth (magnitudes (n + passLimit)) = .ok (magnitudes n) := by
  rw [simplify_eq (by simp [passLimit, magnitudes])]
  exact passes_of_changes (changes_magnitudes depth passLimit n)

end Expr

end SymbolicAlgebra
