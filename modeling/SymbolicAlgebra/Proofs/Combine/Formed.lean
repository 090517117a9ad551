import SymbolicAlgebra.Proofs.Combine.Depth

/-!
# Trees with all their operands

`Expr.Formed A` holds of the trees in which every operator has its operands and nothing beside
them, and in which all leaves meet the condition `A`. Combining such trees makes such trees, if leaf
algebra keeps the condition, and fails only as arithmetic does: the operand that a rule asks for is
always there. So this is the invariant of combination with the fewest failures
(`invariant_formed`).
-/

namespace SymbolicAlgebra

namespace Expr

/-- Every operator has its operands and nothing beside them, and all leaves meet the condition. -/
def Formed (A : Leaf → Prop) : Expr → Prop
  | absent => False
  | leaf a => A a
  | node (.binary _) l r => l.Formed A ∧ r.Formed A
  | node .factorial l r => l.Formed A ∧ r = absent
  | node (.function _) l r => l = absent ∧ r.Formed A
  | node _ _ _ => False

variable {A B : Leaf → Prop} {op : Binary} {l r t : Expr}

/-- Less may be asked of the leaves. -/
theorem Formed.mono (h : t.Formed A) (hAB : ∀ a, A a → B a) : t.Formed B := by
  induction t with
  | absent => exact h
  | leaf a => exact hAB a h
  | node op l r ihl ihr =>
    cases op with
    | binary op => exact ⟨ihl h.1, ihr h.2⟩
    | factorial => exact ⟨ihl h.1, h.2⟩
    | function f => exact ⟨h.1, ihr h.2⟩
    | _ => cases h

/-- Every operator of a formed tree has its operands. -/
theorem Formed.isWellFormed (h : t.Formed A) : t.isWellFormed = true := by
  induction t with
  | absent => cases h
  | leaf a => rfl
  | node op l r ihl ihr =>
    cases op with
    | binary op => exact Bool.and_eq_true_iff.mpr ⟨ihl h.1, ihr h.2⟩
    | factorial =>
      obtain ⟨hl, rfl⟩ := h
      rw [isWellFormed_factorial]
      exact ihl hl
    | function f =>
      obtain ⟨rfl, hr⟩ := h
      rw [isWellFormed_apply]
      exact ihr hr
    | _ => cases h

/-- If the names of all leaves are of some kind, then so are those of the tree. -/
theorem Formed.names {N : String → Prop} (h : t.Formed fun a => ∀ x ∈ a.names, N x) :
    ∀ x ∈ t.names, N x := by
  induction t with
  | absent => cases h
  | leaf a => exact h
  | node op l r ihl ihr =>
    cases op with
    | binary op => exact List.forall_mem_append.mpr ⟨ihl h.1, ihr h.2⟩
    | factorial =>
      obtain ⟨hl, rfl⟩ := h
      exact List.forall_mem_append.mpr ⟨ihl hl, nofun⟩
    | function f =>
      obtain ⟨rfl, hr⟩ := h
      exact ihr hr
    | _ => cases h

/-- An operand that is there. -/
theorem Formed.present_eq (h : t.Formed A) : t.present = .ok t := by
  cases t with
  | absent => cases h
  | leaf => rfl
  | node => rfl

variable [Tolerance] [Exactness]

/-- A combination that makes formed trees of formed trees, and fails only as arithmetic does. -/
def KeepsFormed (A : Leaf → Prop) (rec : Combiner) : Prop :=
  ∀ {op : Binary} {l r : Expr}, l.Formed A → r.Formed A →
    Ends (rec op l r) Failure.IsNumeric (Formed A)

theorem formed_number (hA : Leaf.Closed A) (z : Number) : (number z).Formed A :=
  hA.number z

/-- Every node that has its operands is formed, so the identities do not matter. -/
theorem invariant_formed (hA : Leaf.Closed A) :
    Invariant Failure.IsNumeric A (fun _ _ _ => True) (Formed A) where
  arithmetic _ := id
  absent := False.elim
  leaves := hA
  places := placement_true
  leaf := Iff.rfl
  operands ht _ := ⟨ht.1, ht.2, True.intro⟩
  node _ hl hr _ _ := ⟨hl, hr⟩

/-- A formed tree is there, so a question about it fails only as arithmetic does. -/
theorem Formed.isZero_failsAs (h : t.Formed A) : t.isZero.FailsAs Failure.IsNumeric := by
  refine Expr.isZero_failsAs.mono ?_
  rintro e (rfl | ⟨rfl, -⟩)
  · exact True.intro
  · cases h

theorem raise_formed (hA : Leaf.Closed A) (hl : l.Formed A) (hr : r.Formed A) :
    Ends (raise l r) Failure.IsNumeric (Formed A) :=
  (invariant_formed hA).raise_ends hl hr

/-- Combining trees with all their operands makes such a tree, and fails only as arithmetic
does. -/
theorem combine_formed (hA : Leaf.Closed A) : KeepsFormed A combine := fun hl hr =>
  (invariant_formed hA).combine_ends (by rintro rfl; exact ⟨hl, hr⟩) hl hr

theorem negate_formed (hA : Leaf.Closed A) (ht : t.Formed A) :
    Ends (negate t) Failure.IsNumeric (Formed A) :=
  (invariant_formed hA).negate_ends ht

end Expr

end SymbolicAlgebra
