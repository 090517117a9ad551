import SymbolicAlgebra.Proofs.Combine.Sound

/-!
# Trees built by combining

`Built` are the trees that reading a text makes of leaves: by combining, by negating, and by
applying functions. `means_combine` is the contract of `Expr.combine` and `Expr.negate` for
them: where the operator has a value for the meanings of the operands, the combination
succeeds and means that value, and the negation means the opposite.

What carries it over from strict meanings (`sound_combine`) is that no monomial of a built
tree has power zero, so each of its meanings is a strict one.
-/

namespace SymbolicAlgebra

namespace Expr

variable [Tolerance]

/-- Trees that are built from leaves by combining, negating and applying functions. -/
inductive Built : Expr → Prop
  | leaf {a : Leaf} (power : a.HasPower) : Built (leaf a)
  | combine {op : Binary} {l r t : Expr} (left : Built l) (right : Built r)
    (result : combine op l r = .ok t) : Built t
  | negate {t t' : Expr} (argument : Built t) (result : negate t = .ok t') : Built t'
  | factorial {t : Expr} (argument : Built t) : Built (factorial t)
  | apply (f : Func) {t : Expr} (argument : Built t) : Built (apply f t)

variable {l r t : Expr} {op : Binary}

/-- Built trees divide by no product, and their monomials have powers other than zero. -/
theorem Built.shaped (h : Built t) : t.Shaped Leaf.HasPower := by
  induction h with
  | leaf power => exact power
  | combine _ _ result ihl ihr => exact combine_shaped Leaf.closed_hasPower ihl ihr _ result
  | negate _ result ih => exact negate_shaped Leaf.closed_hasPower ih _ result
  | factorial _ ih => exact ⟨ih, True.intro, nofun, nofun⟩
  | apply f _ ih => exact ⟨True.intro, ih, nofun, nofun⟩

/-- Combining built trees succeeds and keeps the meaning, and negating one turns its sign,
at every point where there is one, unless a coefficient stops being exact. -/
theorem means_combine {I : Interpretation GaussianRat} {σ : String → GaussianRat}
    (op : Binary) (hl : Built l) (hr : Built r) :
    (∀ v, Means I σ (binary op l r) v → StaysExact (fun _ => combine op l r) →
      ∃ t, combine op l r = .ok t ∧ Means I σ t v) ∧
    (∀ v, Means I σ l v → StaysExact (fun _ => negate l) →
      ∃ t, negate l = .ok t ∧ Means I σ t (-v)) := by
  have hfl := hl.shaped.flat
  have hfr := hr.shaped.flat
  refine ⟨fun v hv exact => ?_, fun v hv exact => ?_⟩
  · -- the divisor of a node may be a product before it is combined, but no leaf changes
    have strict : MeansStrictly I σ (binary op l r) v := by
      cases hv with
      | equals ha hb =>
        exact .equals (means_strictly hl.shaped ha) (means_strictly hr.shaped hb)
      | add ha hb => exact .add (means_strictly hl.shaped ha) (means_strictly hr.shaped hb)
      | sub ha hb => exact .sub (means_strictly hl.shaped ha) (means_strictly hr.shaped hb)
      | mul ha hb => exact .mul (means_strictly hl.shaped ha) (means_strictly hr.shaped hb)
      | div ha hb nonzero =>
        exact .div (means_strictly hl.shaped ha) (means_strictly hr.shaped hb) nonzero
      | pow ha exponent defined => exact .pow (means_strictly hl.shaped ha) exponent defined
    obtain ⟨t, result, ht⟩ := (combine_exactly hfl hfr strict).result exact
    exact ⟨t, result, ht.means.mono (by norm_num)⟩
  · obtain ⟨t, result, ht⟩ :=
      (negate_exactly ⟨means_strictly hl.shaped hv, hfl⟩).result exact
    exact ⟨t, result, ht.means.mono (by norm_num)⟩

omit [Tolerance] in
/-- `x + y` and `x` make a sum that is `4` at `x = 1` and `y = 2`, where the opposite of
`x + y` is `-3`. -/
theorem means_combine_names :
    letI := Double.standardTolerance
    let σ : String → GaussianRat := fun x => if x = "x" then 1 else 2
    let t := binary .add (ofName "x") (ofName "y")
    (∃ u, combine .add t (ofName "x") = .ok u ∧ Means .none σ u 4) ∧
      ∃ u, negate t = .ok u ∧ Means .none σ u (-3) := by
  let := Double.standardTolerance
  intro σ t
  have hx : Means .none σ (ofName "x") 1 := means_ofName (by norm_num) "x"
  have hy : Means .none σ (ofName "y") 2 := means_ofName (by norm_num) "y"
  have ht : Means .none σ t 3 := by
    rw [show (3 : GaussianRat) = 1 + 2 by norm_num]
    exact .add hx hy
  have sum : Means .none σ (binary .add t (ofName "x")) 4 := by
    rw [show (4 : GaussianRat) = 3 + 1 by norm_num]
    exact .add ht hx
  have name : ∀ x, Built (ofName x) := fun x => .leaf (a := .ofName x) rfl
  have combined : combine .add (ofName "x") (ofName "y") = .ok t := rfl
  have built : Built t := .combine (name "x") (name "y") combined
  obtain ⟨sums, opposites⟩ := means_combine (I := .none) (σ := σ) .add built (name "x")
  exact ⟨sums 4 sum nofun, opposites 3 ht nofun⟩

end Expr

end SymbolicAlgebra
