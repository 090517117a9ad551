import SymbolicAlgebra.Proofs.Reading

/-!
# Reduced trees

A tree is *reduced* if no identity applies to a node of it, wherever it stands: no operand is zero or
one where that could be left out, equal operands have cancelled or become a multiple or a power, signs
have moved out of right operands, and no operator stands between two leaves that make one leaf.

Combining reduced trees makes reduced trees, and so every text is read as one
(`parse_reduced`). A node is made only after all these questions have been asked about it, also on
the path to a leaf that joins into a chain, where each node is made anew. So this is the invariant
of combination that asks for nothing else: its nodes are exactly those that the rules make
(`invariant_reduced`).
-/

namespace SymbolicAlgebra

namespace Expr

variable [Tolerance] [Exactness]

/-- All operators have their operands, and no identity applies to any node. -/
def Reduced : Expr → Prop
  | absent => False
  | leaf _ => True
  | node (.binary op) l r => l.Reduced ∧ r.Reduced ∧ ReducedAt op l r
  | node .factorial l r => l.Reduced ∧ r = absent
  | node (.function _) l r => l = absent ∧ r.Reduced
  | node _ _ _ => False

variable {t : Expr}

/-- A combination that makes reduced trees of reduced trees. -/
def KeepsReduced (rec : Combiner) : Prop :=
  ∀ op l r, l.Reduced → r.Reduced → Returns (rec op l r) Reduced

theorem reduced_leaf (a : Leaf) : (leaf a).Reduced := True.intro

/-- The nodes of reduced trees are the ones that no identity applies to. -/
theorem invariant_reduced :
    Invariant (fun _ => True) (fun _ => True) (fun _ _ _ => True) Reduced where
  arithmetic _ _ := True.intro
  absent _ := True.intro
  leaves := Leaf.closed_true
  places := placement_true
  leaf := Iff.rfl
  operands ht _ := ⟨ht.1, ht.2.1, True.intro⟩
  node _ hl hr _ reduced := ⟨hl, hr, reduced⟩

/-- Combining reduced trees makes reduced trees. -/
theorem combine_reduced : KeepsReduced combine := fun _ _ _ hl hr =>
  (invariant_reduced.combine_ends (by rintro rfl; exact ⟨hl, hr, True.intro⟩) hl hr).returns

theorem negate_reduced (ht : t.Reduced) : Returns (negate t) Reduced :=
  (invariant_reduced.negate_ends ht).returns

/-! ## Texts -/

/-- The builder of expressions makes reduced trees of reduced ones. -/
theorem builder_keeps_reduced {N : String → Prop} (peephole : Bool) :
    (builder peephole).Keeps N Reduced where
  number _ := reduced_leaf _
  letter _ := reduced_leaf _
  negate ht := negate_reduced ht
  combine hl hr := combine_reduced _ _ _ hl hr
  factorial ht := .pure ⟨ht, rfl⟩
  apply ht := .pure (applyFunction_of ⟨rfl, ht⟩ (by rintro - _ _ _ rfl -; exact ht.2))

/-- **Identities are applied everywhere**: in the tree that a text is read as, no identity applies
to any node. -/
theorem parse_reduced {reading : Reading} {allowed : Option (List String)} {text : String}
    (h : parse reading allowed text = .ok t) : t.Reduced :=
  Parser.parse_returns (builder_keeps_reduced _) reading text t h

omit [Tolerance] [Exactness] in
/-- All four levels of operators in one text. -/
theorem parse_reduced_quotient :
    letI := Double.standardTolerance
    letI := Exactness.free
    let sum := binary .add (ofName "x") (ofName "y")
    let power := binary .pow (ofName "x") (ofName "y")
    let t := binary .sub two (binary .div (binary .mul sum (ofName "z")) power)
    parse .standard none "2-(x+y)*z/x^y" = .ok t ∧ t.Reduced := by
  let := Double.standardTolerance
  let := Exactness.free
  intro sum power t
  have text : parse .standard none "2-(x+y)*z/x^y" = .ok t := by decide +kernel
  exact ⟨text, parse_reduced text⟩

end Expr

end SymbolicAlgebra
