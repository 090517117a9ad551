import SymbolicAlgebra.Proofs.Combine.Cancel
import SymbolicAlgebra.Proofs.Exchange
import SymbolicAlgebra.Proofs.Parse.Scan
import SymbolicAlgebra.Proofs.Reading

/-!
# Trees without equations

An equation stands in a tree only where somebody has put it: no rule of combination makes one. So
what is built from trees without equations by other operators has none (`combine_isQuantity`,
`negate_isQuantity`, `raise_isQuantity`), and neither has the tree of a text without the sign
(`parse_isQuantity`). Here it counts which operator is combined, so the parser is asked for the ones
that it passes on: those of the tokens, and products.
-/

namespace SymbolicAlgebra

namespace Expr

variable {op : Binary} {l r t : Expr}

/-- An operator other than equality makes a quantity of quantities. -/
theorem isQuantity_binary (hop : op ≠ .equals) :
    (binary op l r).isQuantity = true ↔ l.isQuantity = true ∧ r.isQuantity = true := by
  rw [← Bool.and_eq_true]
  cases op with
  | equals => exact absurd rfl hop
  | _ => rfl

/-- The operands of a quantity are quantities. -/
theorem isQuantity_node (h : (node (.binary op) l r).isQuantity = true) :
    op ≠ .equals ∧ l.isQuantity = true ∧ r.isQuantity = true := by
  have hop : op ≠ .equals := by
    rintro rfl
    cases h
  exact ⟨hop, (isQuantity_binary hop).mp h⟩

variable [Tolerance] [Exactness]

/-- A combination that makes no equations. -/
def KeepsQuantity (rec : Combiner) : Prop :=
  ∀ op l r, op ≠ .equals → l.isQuantity = true → r.isQuantity = true →
    Returns (rec op l r) (·.isQuantity = true)

/-- The rules make no operators but sums, products and powers. -/
theorem invariant_isQuantity :
    Invariant (fun _ => True) (fun _ => True) (fun _ _ _ => True) (·.isQuantity = true) where
  arithmetic _ _ := True.intro
  absent _ := True.intro
  leaves := Leaf.closed_true
  places := placement_true
  leaf := ⟨fun _ => True.intro, fun _ => rfl⟩
  operands ht hop := by
    obtain ⟨hl, hr⟩ := (isQuantity_binary hop).mp ht
    exact ⟨hl, hr, True.intro⟩
  node hop hl hr _ _ := (isQuantity_binary hop).mpr ⟨hl, hr⟩

theorem raise_isQuantity (hl : l.isQuantity = true) (hr : r.isQuantity = true) :
    Returns (raise l r) (·.isQuantity = true) :=
  (invariant_isQuantity.raise_ends hl hr).returns

/-- Combining makes no equations. -/
theorem combine_isQuantity : KeepsQuantity combine := fun _ _ _ hop hl hr =>
  (invariant_isQuantity.combine_ends (fun equation => absurd equation hop) hl hr).returns

theorem negate_isQuantity (ht : t.isQuantity = true) : Returns (negate t) (·.isQuantity = true) :=
  (invariant_isQuantity.negate_ends ht).returns

/-! ## Texts -/

/-- Without equals signs the builder of the parser makes quantities only. -/
theorem builder_confined_isQuantity (peephole : Bool) :
    (builder peephole).Confined (fun _ => True) (· ≠ .equals) (fun _ => True)
      (·.isQuantity = true) where
  malformed _ := True.intro
  product := nofun
  number _ := rfl
  letter _ := rfl
  negate ht := .of_returns (negate_isQuantity ht)
  combine hop hl hr := .of_returns (combine_isQuantity _ _ _ hop hl hr)
  factorial ht := .pure (Bool.and_eq_true_iff.mpr ⟨ht, rfl⟩)
  apply ht := .pure (applyFunction_of (P := (·.isQuantity = true)) ht
    (by rintro - _ _ _ rfl -; exact (Bool.and_eq_true_iff.mp ht).2))

end Expr

/-- Only its sign is read as an equation. -/
theorem Token.next_operators {reading : Reading} {allowed : Option (List String)} {ended : Bool}
    {pos depth : ℕ} {c : Char} {rest : List Char} (sign : c ≠ '=') :
    Returns (next reading allowed ended pos depth c rest) (Operators (· ≠ .equals)) := by
  rintro t found op kind rfl
  cases next_found found with
  | sign _ _ sign => rcases sign.2 with kind' | ⟨z, kind'⟩ <;> cases kind.symm.trans kind'
  | operator kind' symbol =>
    obtain ⟨⟩ := kind.symm.trans kind'
    exact sign (List.singleton_inj.mp (symbol_of_signOp? symbol)).symm
  | numeral kind' | function kind' | constant kind' | letter kind' => cases kind.symm.trans kind'

/-- A text without the sign of an equation is read as a tree without equations. -/
theorem Expr.parse_isQuantity [Tolerance] [Exactness] (reading : Reading)
    (allowed : Option (List String)) {text : String} (noEquation : '=' ∉ text.toList) :
    Returns (Expr.parse reading allowed text) (·.isQuantity = true) := by
  have chars : ∀ c ∈ Text.squeeze text.toList, c ≠ '=' := by
    rintro _ mem rfl
    exact noEquation (List.mem_of_mem_filter mem)
  refine Returns.bind (Token.scan_forall Token.next_operators (List.forall_mem_nil _) chars)
    fun ts hop => ?_
  exact (Parser.parseTokens_ends (builder_confined_isQuantity _) (fun _ _ _ => True.intro) hop
    (.inl True.intro)).returns

end SymbolicAlgebra
