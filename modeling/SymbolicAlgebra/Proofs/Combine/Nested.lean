import SymbolicAlgebra.Proofs.Combine.Cancel
import SymbolicAlgebra.Proofs.Reading

/-!
# How chains nest

A chain on the right of an operator of its kind is taken apart, so sums and products nest to the
left. Sums do so everywhere: no operator of a sum has a sum on its right, and no quotient has a
product there. Products do not quite. A number that comes behind a chain of factors changes places
with it, and the node that this makes is not combined again, so the whole chain is the right operand
of the number (`combine_chain_number`). The same number in front of the same chain joins it from the
left, factor by factor (`combine_number_chain`). From then on the leaf in front of the chain takes
part in the joining of leaves, and so it may become a monomial, but it stays a leaf.

`NestsLeft` is what remains: the only chain on the right of an operator of its kind is a product,
and what it is multiplied to is a leaf. Combining keeps this, also where it builds the path to a
leaf again (`placement_nestsAt`), and so it holds of the tree of every text (`parse_nestsLeft`).
-/

namespace SymbolicAlgebra

namespace Expr

/-- Only a leaf that multiplies has a chain of the same kind on its right. -/
def NestsAt (op : Binary) (l r : Expr) : Prop :=
  ∀ level, op.level = some level → r.inChain level = true → op = .mul ∧ l.isLeaf = true

/-- All chains nest to the left, but for those behind a leaf that multiplies them. -/
def NestsLeft : Expr → Prop
  | absent => True
  | leaf _ => True
  | node (.binary op) l r => l.NestsLeft ∧ r.NestsLeft ∧ NestsAt op l r
  | node _ l r => l.NestsLeft ∧ r.NestsLeft

variable {op inner : Binary} {level : Level} {l r t a b : Expr}

/-- A right operand that continues no chain may stand anywhere. -/
theorem NestsAt.of_apart (h : ∀ level, op.level = some level → r.inChain level = false) :
    NestsAt op l r := by
  intro level hop chain
  rw [h level hop] at chain
  cases chain

/-- In a tree that nests to the left no sum has a sum on its right. -/
theorem NestsLeft.sum (h : (binary op l r).NestsLeft) (hop : op.level = some .sum) :
    r.inChain .sum = false := by
  by_contra chain
  obtain ⟨rfl, -⟩ := h.2.2 .sum hop (Bool.eq_true_of_not_eq_false chain)
  cases hop

/-- Nor does it divide by a product. -/
theorem NestsLeft.div (h : (binary .div l r).NestsLeft) : r.isProduct = false := by
  by_contra chain
  obtain ⟨division, -⟩ := h.2.2 .product rfl (Bool.eq_true_of_not_eq_false chain)
  cases division

variable [Tolerance] [Exactness]

/-- A combination that keeps chains nested to the left. -/
def KeepsNesting (rec : Combiner) : Prop :=
  ∀ op l r, l.NestsLeft → r.NestsLeft → Returns (rec op l r) NestsLeft

omit [Tolerance] [Exactness] in
/-- A leaf that another one joins into stays a leaf, so a chain on the right has a leaf on its left
still. -/
theorem placement_nestsAt : Placement NestsAt where
  apart := .of_apart
  front isLeaf _ _ _ := ⟨rfl, isLeaf⟩
  left h isLeaf level hop chain := (h level hop chain).imp_right isLeaf
  right hop h isLeaf level hop' chain := by
    obtain rfl := Option.some_inj.mp (hop.symm.trans hop')
    refine h _ hop (Bool.eq_true_of_not_eq_false fun apart => ?_)
    rw [inChain_of_isLeaf (isLeaf apart)] at chain
    cases chain

/-- The rules keep chains nested to the left. -/
theorem invariant_nestsLeft :
    Invariant (fun _ => True) (fun _ => True) NestsAt NestsLeft where
  arithmetic _ _ := True.intro
  absent _ := True.intro
  leaves := Leaf.closed_true
  places := placement_nestsAt
  leaf := Iff.rfl
  operands ht _ := ht
  node _ hl hr hn _ := ⟨hl, hr, hn⟩

/-- Combining keeps chains nested to the left. -/
theorem combine_nestsLeft : KeepsNesting combine := fun _ _ _ hl hr =>
  (invariant_nestsLeft.combine_ends (by rintro rfl; exact ⟨hl, hr, nofun⟩) hl hr).returns

theorem negate_nestsLeft (ht : t.NestsLeft) : Returns (negate t) NestsLeft :=
  (invariant_nestsLeft.negate_ends ht).returns

/-! ## Texts -/

/-- The builder of the parser keeps chains nested to the left. -/
theorem builder_keeps_nestsLeft {N : String → Prop} (peephole : Bool) :
    (builder peephole).Keeps N NestsLeft where
  number _ := True.intro
  letter _ := True.intro
  negate ht := negate_nestsLeft ht
  combine hl hr := combine_nestsLeft _ _ _ hl hr
  factorial ht := .pure ⟨ht, True.intro⟩
  apply ht := .pure (applyFunction_of ⟨True.intro, ht⟩ (by rintro - _ _ _ rfl -; exact ht.2))

/-- **Chains nest to the left**, but for products behind a leaf: in the tree that a text is read as,
no sum has a sum on its right, no quotient has a product there, and a product has one there only if
its left operand is a leaf. -/
theorem parse_nestsLeft {reading : Reading} {allowed : Option (List String)} {text : String}
    (h : parse reading allowed text = .ok t) : t.NestsLeft :=
  Parser.parse_returns (builder_keeps_nestsLeft _) reading text t h

/-! ## A number and a chain -/

variable {rec : Combiner} {new : Leaf} {inverted : Bool}

/-- No leaf joins into an operator outside of the chain. -/
theorem spliceWith_apart {o : Op} (apart : o.continues level = false) :
    spliceWith rec level new inverted (node o l r) = .ok none := by
  cases o with
  | binary op =>
    unfold spliceWith
    rw [if_neg (beq_eq_false_iff_ne.mp apart)]
    rfl
  | _ => rfl

/-- No leaf joins into a solid tree. -/
theorem spliceWith_solid (ht : t.Solid) : spliceWith rec level new inverted t = .ok none := by
  cases t with
  | absent => cases ht
  | leaf => cases ht
  | node o l r => exact spliceWith_apart (ht level)

/-- No leaf joins into a chain of two solid trees. -/
theorem spliceWith_chain (hinner : inner.level = some level) (ha : a.Solid) (hb : b.Solid) :
    spliceWith rec level new inverted (binary inner a b) = .ok none := by
  unfold spliceWith
  rw [if_pos hinner, spliceWith_solid ha, spliceWith_solid hb]
  rfl

variable {z : Number}

/-- A number times a solid tree: zero, the tree itself, or the node of the two. -/
def scaleSolid (z : Number) (t : Expr) : Calc Expr := do
  if ← z.isZero then pure zero
  else if ← z.same .one then pure t
  else pure (binary .mul (number z) t)

/-- On a number and a solid tree only the identities of zero and one are left to apply. -/
theorem atomicProduct_number_solid (ha : a.Solid) :
    atomicProduct rec (number z) a = scaleSolid z a := by
  cases a with
  | absent => cases ha
  | leaf => cases ha
  | node => rfl

/-- A number and a solid tree make a multiple of it. -/
theorem combine_number_solid (ha : a.Solid) : combine .mul (number z) a = scaleSolid z a := by
  cases a with
  | absent => cases ha
  | leaf => cases ha
  | node o c d =>
    have apart : (node o c d).inChain .product = false := ha .product
    rw [combine_eq_chain rfl rfl rfl, ← atomicProduct_number_solid ha]
    show chainWith combine .product .mul (leaf (.number z)) (node o c d) = _
    unfold chainWith joinRight joinLeft
    simp only [apart, Bool.and_false]
    exact reassociate_apart apart

/-- **A number behind a chain of factors** changes places with it, and the chain is its right
operand as a whole. -/
theorem combine_chain_number (hinner : inner.level = some .product) (ha : a.Solid) (hb : b.Solid)
    (nonzero : z.isZero = .ok false) (nonone : z.same .one = .ok false) :
    combine .mul (binary inner a b) (number z) = .ok (binary .mul (number z) (binary inner a b)) := by
  have isZero : (number z).isZero = .ok false := nonzero
  have isOne : (number z).isOne = .ok false := nonone
  have root : atomicProduct combine (binary inner a b) (number z) =
      .ok (binary .mul (number z) (binary inner a b)) := by
    unfold atomicProduct
    rw [isZero, isOne]
    rfl
  rw [combine_eq_chain rfl rfl rfl]
  show chainWith combine .product .mul (binary inner a b) (leaf (.number z)) = _
  unfold chainWith joinRight
  simp only [inChain, Op.continues, hinner, beq_self_eq_true, if_true,
    spliceWith_chain hinner ha hb]
  exact root

/-- **The same number in front of the chain** is taken in from the left, so that the chain still
nests to the left. -/
theorem combine_number_chain (hinner : inner.level = some .product) (ha : a.Solid) (hb : b.Solid)
    (nonzero : z.isZero = .ok false) (nonone : z.same .one = .ok false) :
    combine .mul (number z) (binary inner a b) = .ok (binary inner (binary .mul (number z) a) b) := by
  have first : combine .mul (number z) a = .ok (binary .mul (number z) a) := by
    rw [combine_number_solid ha]
    unfold scaleSolid
    rw [nonzero, nonone]
    rfl
  have apart : joinLeft combine .product .mul (number z) (binary inner a b) = .ok none := by
    refine (if_pos ?_).trans (spliceWith_chain hinner ha hb)
    exact beq_iff_eq.mpr hinner
  rw [combine_of_not_joined rfl hinner rfl apart, first]
  exact combine_solid hinner rfl hb

omit [Tolerance] [Exactness] in
/-- The same product, written in two ways. -/
example :
    letI := Double.standardTolerance
    letI := Exactness.free
    let a := apply .sin (ofName "x")
    let b := apply .sin (ofName "y")
    parse .standard none "sin x*sin y*2" = .ok (binary .mul two (binary .mul a b)) ∧
      parse .standard none "2*(sin x*sin y)" = .ok (binary .mul (binary .mul two a) b) := by
  decide +kernel

end Expr

end SymbolicAlgebra
