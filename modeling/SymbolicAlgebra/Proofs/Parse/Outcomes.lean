import SymbolicAlgebra.Parser
import SymbolicAlgebra.Proofs.Exact.Calculation

/-!
# What the parser does with its builder

The parser only moves trees between its stacks and has its builder make new ones. So it has no
other failures than the builder and those of tokens that spell no expression, and what holds of
every leaf, and of what the builder makes of trees of which it holds, holds of every tree that is
read (`Parser.parseTokens_ends`).

The two go together in `Builder.Confined`: a builder may rely on what holds of the trees that it is
given, so that it fails on others only. It may rely on the operators too, as between two trees the
parser has those of the text, and the product.

Only one failure is neither of the builder nor of malformed tokens: a closing parenthesis that finds
no opening one on the stack. Where it matters, the tokens are such that this does not happen
(`Opened`).
-/

namespace SymbolicAlgebra

/-- The token has the property of names, if it is a letter. -/
def Token.Names (N : String → Prop) (t : Token) : Prop := t.kind = .letter → N t.spelling

/-- The token has the property of operators, if it is one between two operands. -/
def Token.Operators (O : Binary → Prop) (t : Token) : Prop := ∀ op, t.kind = .op (.binary op) → O op

variable {α : Type}

/-- Of trees with the property `Q` the builder makes such trees, if letters have a property of
names and operators another one, and it fails only in ways that have the property `P`. Malformed
tokens have it too. -/
structure Builder.Confined (b : Builder α) (N : String → Prop) (O : Binary → Prop)
    (P : Failure → Prop) (Q : α → Prop) : Prop where
  malformed (m : Malformed) : P (.malformed m)
  product : O .mul
  number (z : Number) : Q (b.number z)
  letter {name : String} : N name → Q (b.letter name)
  negate {t : α} : Q t → Ends (b.negate t) P Q
  combine {op : Binary} {l r : α} : O op → Q l → Q r → Ends (b.combine op l r) P Q
  factorial {t : α} : Q t → Ends (b.factorial t) P Q
  apply {f : Func} {t : α} : Q t → Ends (b.apply f t) P Q

namespace Parser

variable {b : Builder α} {N : String → Prop} {O : Binary → Prop} {P : Failure → Prop} {Q : α → Prop}
  {s : State α} {nodes : List α} {ops : List Pending} {new : Pending}

/-- The pending operator has the property of operators, if it is one between two operands. -/
def Pending.Operators (O : Binary → Prop) (new : Pending) : Prop := ∀ op, new = .binary op → O op

/-- Wherever a parenthesis among the tokens closes a group, one that opens it is on the stack. -/
def Opened (b : Builder α) (s : State α) (tokens : List Token) : Prop :=
  ∀ us t vs s', tokens = us ++ t :: vs → us.foldlM (step b) s = .ok s' → t.kind = .op .closing →
    .opening ∈ s'.ops

/-- All that is on the two stacks has its property. -/
def Stacked (O : Binary → Prop) (Q : α → Prop) (s : List Pending × List α) : Prop :=
  (∀ op ∈ s.1, op.Operators O) ∧ ∀ t ∈ s.2, Q t

/-- An operator takes trees off the stack and puts one on. -/
theorem reduce_ends (hb : b.Confined N O P Q) (hop : new.Operators O) (h : ∀ t ∈ nodes, Q t) :
    Ends (reduce b new nodes) P (∀ t ∈ ·, Q t) := by
  unfold reduce
  split
  next t rest =>
    rw [List.forall_mem_cons] at h
    exact Ends.bind (hb.negate h.1) fun _ ht => Ends.pure (List.forall_mem_cons.mpr ⟨ht, h.2⟩)
  next t rest =>
    rw [List.forall_mem_cons] at h
    exact Ends.bind (hb.factorial h.1) fun _ ht =>
      Ends.pure (List.forall_mem_cons.mpr ⟨ht, h.2⟩)
  next f t rest =>
    rw [List.forall_mem_cons] at h
    exact Ends.bind (hb.apply h.1) fun _ ht => Ends.pure (List.forall_mem_cons.mpr ⟨ht, h.2⟩)
  next op r l rest =>
    rw [List.forall_mem_cons, List.forall_mem_cons] at h
    exact Ends.bind (hb.combine (hop op rfl) h.2.1 h.1) fun _ ht =>
      Ends.pure (List.forall_mem_cons.mpr ⟨ht, h.2.2⟩)
  next => exact Ends.throw (hb.malformed _)

/-- Reducing keeps what holds of the stacks. -/
theorem reduceBefore_ends (hb : b.Confined N O P Q) (h : Stacked O Q (ops, nodes)) :
    Ends (reduceBefore b new ops nodes) P (Stacked O Q) := by
  induction ops generalizing nodes with
  | nil => exact Ends.pure h
  | cons old ops ih =>
    obtain ⟨hops, hnodes⟩ := h
    have both := List.forall_mem_cons.mp hops
    unfold reduceBefore
    split
    · exact Ends.bind (reduce_ends hb both.1 hnodes) fun _ h => ih ⟨both.2, h⟩
    · exact Ends.pure ⟨hops, hnodes⟩

/-- So does putting an operator on the stack. -/
theorem push_ends (hb : b.Confined N O P Q) (hnew : new.Operators O)
    (h : Stacked O Q (s.ops, s.nodes)) :
    Ends (push b new s) P fun s => Stacked O Q (s.ops, s.nodes) :=
  Ends.bind (reduceBefore_ends hb h) fun _ h =>
    Ends.pure ⟨List.forall_mem_cons.mpr ⟨hnew, h.1⟩, h.2⟩

/-- A group that is open closes. -/
theorem closeGroup_ends (hb : b.Confined N O P Q) (opened : P .noOpening ∨ .opening ∈ ops)
    (h : Stacked O Q (ops, nodes)) : Ends (closeGroup b ops nodes) P (Stacked O Q) := by
  fun_induction closeGroup b ops nodes with
  | case1 => exact Ends.throw (opened.resolve_right List.not_mem_nil)
  | case2 ops nodes => exact Ends.pure ⟨(List.forall_mem_cons.mp h.1).2, h.2⟩
  | case3 old ops nodes inner ih =>
    have both := List.forall_mem_cons.mp h.1
    have below : P .noOpening ∨ .opening ∈ ops := by
      refine opened.imp_right fun mem => (List.mem_cons.mp mem).resolve_left ?_
      exact fun same => inner same.symm
    exact Ends.bind (reduce_ends hb both.1 h.2) fun nodes h => ih nodes below ⟨both.2, h⟩

/-- A product without its sign keeps what holds of the stacks. -/
theorem implicitProduct_ends (hb : b.Confined N O P Q) (h : Stacked O Q (s.ops, s.nodes)) :
    Ends (implicitProduct b s) P fun s => Stacked O Q (s.ops, s.nodes) := by
  unfold implicitProduct
  split
  · refine push_ends hb ?_ h
    rintro _ ⟨⟩
    exact hb.product
  · exact Ends.pure h

theorem waitFor_stacked (hnew : new.Operators O) (h : Stacked O Q (s.ops, s.nodes)) :
    Stacked O Q ((waitFor new s).ops, (waitFor new s).nodes) :=
  ⟨List.forall_mem_cons.mpr ⟨hnew, h.1⟩, h.2⟩

/-- An operand keeps what holds of the stacks. -/
theorem operand_ends (hb : b.Confined N O P Q) {t : α} (ht : Q t)
    (h : Stacked O Q (s.ops, s.nodes)) :
    Ends (operand b t s) P fun s => Stacked O Q (s.ops, s.nodes) :=
  Ends.bind (implicitProduct_ends hb h) fun _ h =>
    Ends.pure ⟨h.1, List.forall_mem_cons.mpr ⟨ht, h.2⟩⟩

/-- A token keeps the properties of what is on the stacks. -/
theorem step_ends (hb : b.Confined N O P Q) {t : Token} (ht : t.Names N) (hop : t.Operators O)
    (opened : P .noOpening ∨ (t.kind = .op .closing → .opening ∈ s.ops))
    (h : Stacked O Q (s.ops, s.nodes)) :
    Ends (step b s t) P fun s => Stacked O Q (s.ops, s.nodes) := by
  have pushed : ∀ {new : Pending} {ended}, new.Operators O →
      Ends (do return { ← push b new s with ended := ended }) P
        fun s => Stacked O Q (s.ops, s.nodes) := fun hnew =>
    Ends.bind (push_ends hb hnew h) fun _ h => Ends.pure h
  unfold step
  split
  · exact operand_ends hb (hb.number _) h
  next letter => exact operand_ends hb (hb.letter (ht letter)) h
  · exact operand_ends hb (hb.number _) h
  · exact Ends.pure (waitFor_stacked nofun h)
  · exact Ends.bind (implicitProduct_ends hb h) fun _ h => Ends.pure (waitFor_stacked nofun h)
  · exact Ends.bind (implicitProduct_ends hb h) fun _ h => Ends.pure (waitFor_stacked nofun h)
  next stop =>
    split
    · exact Ends.throw (hb.malformed _)
    · have group := opened.imp_right fun opens => opens stop
      exact Ends.bind (closeGroup_ends hb group h) fun _ h => Ends.pure h
  · split
    · exact Ends.throw (hb.malformed _)
    · exact pushed nofun
  next op kind =>
    split
    · exact Ends.throw (hb.malformed _)
    · refine pushed ?_
      rintro _ ⟨⟩
      exact hop op kind

/-- So do all tokens. -/
theorem foldlM_ends (hb : b.Confined N O P Q) {tokens : List Token} (ht : ∀ t ∈ tokens, t.Names N)
    (hop : ∀ t ∈ tokens, t.Operators O) (opened : P .noOpening ∨ Opened b s tokens)
    (h : Stacked O Q (s.ops, s.nodes)) :
    Ends (tokens.foldlM (step b) s) P fun s => Stacked O Q (s.ops, s.nodes) := by
  induction tokens generalizing s with
  | nil => exact Ends.pure h
  | cons t rest ih =>
    rw [List.forall_mem_cons] at ht hop
    have first := step_ends hb ht.1 hop.1 (opened.imp_right fun opened => opened [] t rest s rfl rfl) h
    rw [List.foldlM_cons]
    cases run : step b s t with
    | error e => exact Ends.throw (first.fails e run)
    | ok s₁ =>
      have behind : P .noOpening ∨ Opened b s₁ rest := by
        refine opened.imp_right fun opened us u vs s' split fold => ?_
        refine opened (t :: us) u vs s' (by rw [split, List.cons_append]) ?_
        rw [List.foldlM_cons, run]
        exact fold
      exact ih ht.2 hop.2 behind (first.returns s₁ run)

/-- What is left at the end has the property of trees. -/
theorem finish_ends (hb : b.Confined N O P Q) (h : Stacked O Q (ops, nodes)) :
    Ends (finish b ops nodes) P (∀ t ∈ ·, Q t) := by
  fun_induction finish b ops nodes with
  | case1 => exact Ends.pure h.2
  | case2 ops nodes ih => exact ih ⟨(List.forall_mem_cons.mp h.1).2, h.2⟩
  | case3 old ops nodes _ ih =>
    have both := List.forall_mem_cons.mp h.1
    exact Ends.bind (reduce_ends hb both.1 h.2) fun nodes h => ih nodes ⟨both.2, h⟩

/-- **What the builder keeps holds of every tree that is read**, and reading fails as the builder
does, or because the tokens are malformed. -/
theorem parseTokens_ends (hb : b.Confined N O P Q) {tokens : List Token}
    (ht : ∀ t ∈ tokens, t.Names N) (hop : ∀ t ∈ tokens, t.Operators O)
    (opened : P .noOpening ∨ Opened b ⟨[], [], false⟩ tokens) :
    Ends (parseTokens b tokens) P Q := by
  unfold parseTokens
  split
  · exact Ends.throw (hb.malformed _)
  · refine Ends.bind (foldlM_ends hb ht hop opened ⟨nofun, nofun⟩) fun s h => ?_
    split
    · exact Ends.throw (hb.malformed _)
    · refine Ends.bind (finish_ends hb h) fun nodes h => ?_
      split
      next t => exact Ends.pure (h t List.mem_cons_self)
      next => exact Ends.throw (hb.malformed _)

end Parser

end SymbolicAlgebra
