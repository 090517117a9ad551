import SymbolicAlgebra.Proofs.Parse.Outcomes
import SymbolicAlgebra.Proofs.Parse.Rules

/-!
# The parser reads exactly the grammar

The tokens that the parser accepts are those that spell an equation by the rules of the grammar,
where the end of the tokens closes the groups that are still open, and the tree is what the
builder makes of the phrase.

* What the parser returns comes from a derivation: the invariant of the stacks (`Reached`) holds
  at the end, and reducing what is left makes an equation of it (`derives_of_parseTokens`). The
  opening parentheses on the stack are the open ones of the text (`unclosed?_foldlM`).
* What is derived with the missing parentheses is returned without them: reading them at the end
  does what the end does (`finish_closings`, `parseTokens_eq_build`).
* Everything else is malformed: no other failure comes from anywhere but the builder
  (`parseTokens_failsAs`).
-/

namespace SymbolicAlgebra

namespace Token

/-- No minus sign that is read as a negation follows a complete operand. -/
def SignsAwait (ts : List Token) : Prop :=
  ts.IsChain fun t u => t.endsTerm = true → u.kind ≠ .negation

end Token

/-- Every part has a tree. -/
structure Builder.Total {α : Type} (b : Builder α) : Prop where
  negate : ∀ t, ∃ u, b.negate t = .ok u
  combine : ∀ op t u, ∃ v, b.combine op t u = .ok v
  factorial : ∀ t, ∃ u, b.factorial t = .ok u
  apply : ∀ f t, ∃ u, b.apply f t = .ok u

/-- What a builder makes of parts fails only in ways that have a property. -/
structure Builder.FailsAs {α : Type} (b : Builder α) (P : Failure → Prop) : Prop where
  negate : ∀ t, (b.negate t).FailsAs P
  combine : ∀ op t u, (b.combine op t u).FailsAs P
  factorial : ∀ t, (b.factorial t).FailsAs P
  apply : ∀ f t, (b.apply f t).FailsAs P

/-- A total builder does not fail. -/
theorem Builder.Total.failsAs {α : Type} {b : Builder α} (total : b.Total)
    (P : Failure → Prop) : b.FailsAs P where
  negate t := .of_ok (total.negate t).choose_spec
  combine op t u := .of_ok (total.combine op t u).choose_spec
  factorial t := .of_ok (total.factorial t).choose_spec
  apply f t := .of_ok (total.apply f t).choose_spec

/-- A total builder has a tree for every phrase. -/
theorem Phrase.build_total {α : Type} {b : Builder α} (total : b.Total) (p : Phrase) :
    ∃ v, p.build b = .ok v := by
  induction p with
  | number => exact ⟨_, rfl⟩
  | letter => exact ⟨_, rfl⟩
  | negate p ih =>
    obtain ⟨v, hv⟩ := ih
    obtain ⟨u, hu⟩ := total.negate v
    exact ⟨u, Calc.bind_eq_ok.mpr ⟨v, hv, hu⟩⟩
  | combine op p q ihp ihq =>
    obtain ⟨v, hv⟩ := ihp
    obtain ⟨w, hw⟩ := ihq
    obtain ⟨u, hu⟩ := total.combine op v w
    exact ⟨u, Calc.bind_eq_ok.mpr ⟨v, hv, Calc.bind_eq_ok.mpr ⟨w, hw, hu⟩⟩⟩
  | factorial p ih =>
    obtain ⟨v, hv⟩ := ih
    obtain ⟨u, hu⟩ := total.factorial v
    exact ⟨u, Calc.bind_eq_ok.mpr ⟨v, hv, hu⟩⟩
  | apply f p ih =>
    obtain ⟨v, hv⟩ := ih
    obtain ⟨u, hu⟩ := total.apply f v
    exact ⟨u, Calc.bind_eq_ok.mpr ⟨v, hv, hu⟩⟩

/-- The builder that keeps the phrase as it is. -/
def Phrase.free : Builder Phrase where
  number := .number
  letter := .letter
  negate p := pure (.negate p)
  combine op p q := pure (.combine op p q)
  factorial p := pure (.factorial p)
  apply f p := pure (.apply f p)

/-- The builder of phrases is total. -/
theorem Phrase.free_total : Phrase.free.Total where
  negate _ := ⟨_, rfl⟩
  combine _ _ _ := ⟨_, rfl⟩
  factorial _ := ⟨_, rfl⟩
  apply _ _ := ⟨_, rfl⟩

/-- The tokens of `(sin-x^x`. -/
def Token.openArgument : List Token :=
  [⟨.op .opening, ['('], 0⟩, ⟨.op (.function .sin), ['s', 'i', 'n'], 1⟩, ⟨.negation, ['-'], 4⟩,
    ⟨.letter, ['x'], 5⟩, ⟨.op (.binary .pow), ['^'], 6⟩, ⟨.letter, ['x'], 7⟩]

namespace Parser

open Token (unclosed? SignsAwait)

variable {α : Type} {b : Builder α} {ops ops' : List Pending} {old new : Pending}
  {nodes nodes' : List α} {s s' : State α} {t : Token} {ts us : List Token} {p : Phrase} {v : α}
  {depth : ℕ}

/-! ## Parentheses -/

/-- Reducing leaves all groups open. -/
theorem count_reduceBefore (reduced : reduceBefore b new ops nodes = .ok (ops', nodes')) :
    ops'.count .opening = ops.count .opening := by
  induction ops generalizing nodes with
  | nil =>
    obtain ⟨⟩ := reduced
    rfl
  | cons old ops ih =>
    rw [reduceBefore] at reduced
    -- reducing stops at an opening parenthesis, so none is removed
    split at reduced
    next stays =>
      obtain ⟨nodes₁, -, rest⟩ := Calc.bind_eq_ok.mp reduced
      have inner : old ≠ .opening := by
        rintro rfl
        simp [yields] at stays
      rw [ih rest, List.count_cons_of_ne inner]
    next =>
      obtain ⟨⟩ := reduced
      rfl

/-- An operator opens no group. -/
theorem count_push (waits : new ≠ .opening) (pushed : push b new s = .ok s') :
    s'.ops.count .opening = s.ops.count .opening := by
  obtain ⟨⟨ops, nodes⟩, reduced, ⟨⟩⟩ := Calc.bind_eq_ok.mp pushed
  rw [← count_reduceBefore reduced]
  exact List.count_cons_of_ne waits

/-- Neither does a product without its sign. -/
theorem count_implicitProduct (run : implicitProduct b s = .ok s') :
    s'.ops.count .opening = s.ops.count .opening := by
  unfold implicitProduct at run
  split at run
  next => exact count_push (by decide) run
  next =>
    obtain ⟨⟩ := run
    rfl

/-- A closing parenthesis closes one group. -/
theorem count_closeGroup (closed : closeGroup b ops nodes = .ok (ops', nodes')) :
    ops.count .opening = ops'.count .opening + 1 := by
  induction ops generalizing nodes with
  | nil => cases closed
  | cons old ops ih =>
    by_cases group : old = .opening
    · subst group
      obtain ⟨⟩ := closed
      exact List.count_cons_self
    · rw [closeGroup] at closed
      · obtain ⟨nodes₁, -, rest⟩ := Calc.bind_eq_ok.mp closed
        rw [List.count_cons_of_ne group, ih rest]
      · exact group

/-- A token opens and closes the groups on the stack as it does in the text. -/
theorem count_step (run : step b s t = .ok s') :
    (t.kind = .op .closing → s.ops.count .opening ≠ 0) ∧
      s'.ops.count .opening = Token.depthAfter (s.ops.count .opening) t := by
  -- a leaf puts at most a product sign in front, which is no parenthesis
  have leaf : ∀ {v : α}, operand b v s = .ok s' →
      s'.ops.count .opening = s.ops.count .opening := by
    intro v run
    obtain ⟨s₁, product, ⟨⟩⟩ := Calc.bind_eq_ok.mp run
    show s₁.ops.count .opening = _
    exact count_implicitProduct product
  unfold step at run
  unfold Token.depthAfter
  split at run
  next kind => simpa [kind] using leaf run
  next kind => simpa [kind] using leaf run
  next kind => simpa [kind] using leaf run
  next kind =>
    obtain ⟨⟩ := run
    simp [kind, waitFor]
  next kind =>
    obtain ⟨s₁, product, ⟨⟩⟩ := Calc.bind_eq_ok.mp run
    simpa [kind, waitFor] using count_implicitProduct product
  next kind =>
    obtain ⟨s₁, product, ⟨⟩⟩ := Calc.bind_eq_ok.mp run
    simpa [kind, waitFor] using count_implicitProduct product
  next kind =>
    obtain ⟨⟨ops, nodes⟩, closed, ⟨⟩⟩ := Calc.bind_eq_ok.mp (ended_of_ok run).2
    simp [kind, count_closeGroup closed]
  next kind =>
    obtain ⟨s₁, pushed, ⟨⟩⟩ := Calc.bind_eq_ok.mp (ended_of_ok run).2
    simpa [kind] using count_push (by decide) pushed
  next op kind =>
    obtain ⟨s₁, pushed, ⟨⟩⟩ := Calc.bind_eq_ok.mp (ended_of_ok run).2
    simpa [kind] using count_push (by simp) pushed

/-- The opening parentheses on the stack are those that are still open. -/
theorem unclosed?_foldlM (run : ts.foldlM (step b) s = .ok s') :
    unclosed? (s.ops.count .opening) ts = some (s'.ops.count .opening) := by
  induction ts generalizing s with
  | nil =>
    obtain ⟨⟩ := run
    rfl
  | cons t ts ih =>
    rw [List.foldlM_cons] at run
    obtain ⟨s₁, first, rest⟩ := Calc.bind_eq_ok.mp run
    obtain ⟨opened, count⟩ := count_step first
    rw [Token.unclosed?_cons opened, ← count, ih rest]

/-- Where no parenthesis closes what is not open in the text, one is open on the stack whenever a
group is closed. -/
theorem opened_of_balanced (balanced : unclosed? 0 ts = some depth) :
    Opened b ⟨[], [], false⟩ ts := by
  rintro us t vs s' rfl run stop
  have count : unclosed? 0 us = some (s'.ops.count .opening) := unclosed?_foldlM run
  by_contra absent
  rw [Token.unclosed?_append, count, List.count_eq_zero.mpr absent] at balanced
  simp [unclosed?, stop] at balanced

/-! ## What is accepted -/

/-- The invariant holds after any number of tokens. -/
theorem foldlM_reached (h : Reached b s us) (signs : SignsAwait ts)
    (first : ∀ t ∈ ts.head?, t.kind = .negation → s.ended = false)
    (run : ts.foldlM (step b) s = .ok s') : Reached b s' (us ++ ts) := by
  induction ts generalizing s us with
  | nil =>
    obtain ⟨⟩ := run
    rwa [List.append_nil]
  | cons t ts ih =>
    rw [List.foldlM_cons] at run
    obtain ⟨s₁, now, rest⟩ := Calc.bind_eq_ok.mp run
    obtain ⟨next, signs⟩ := List.isChain_cons.mp signs
    rw [← List.singleton_append, ← List.append_assoc]
    refine ih (step_reached h now (first t rfl)) signs (fun u hu sign => ?_) rest
    rw [step_ended now]
    by_contra ends
    exact next u hu (by simpa using ends) sign

/-- What the parser returns comes from a derivation, once the open groups are closed. -/
theorem derives_of_parseTokens (signs : SignsAwait ts) (balanced : unclosed? 0 ts = some depth)
    (stop : t.kind = .op .closing) (run : parseTokens b ts = .ok v) :
    ∃ p, Derives .equation (ts ++ List.replicate depth t) p ∧ p.build b = .ok v := by
  unfold parseTokens at run
  split at run
  · cases run
  obtain ⟨s, fold, rest⟩ := Calc.bind_eq_ok.mp run
  have reached := foldlM_reached (.awaiting .nil) signs (fun _ _ _ => rfl) fold
  have count := unclosed?_foldlM fold
  rw [List.nil_append] at reached
  -- a text that has ended is finished with all operators reduced by a further closing
  cases reached with
  | awaiting => cases rest
  | @ended ops nodes _ full =>
    obtain ⟨nodes', finished, last⟩ := Calc.bind_eq_ok.mp rest
    obtain ⟨p, w, rfl, value, derives⟩ := derives_of_finish (full.mono rfl) finished stop
    obtain ⟨⟩ := last
    obtain rfl : depth = ops.count .opening := by simpa [balanced] using count
    exact ⟨p, derives, value⟩

/-! ## Closing what is open -/

/-- Closing a group reduces what the end would have reduced. -/
theorem finish_closeGroup (closed : closeGroup b ops nodes = .ok (ops', nodes')) :
    finish b ops nodes = finish b ops' nodes' := by
  induction ops generalizing nodes with
  | nil => cases closed
  | cons old ops ih =>
    by_cases group : old = .opening
    · subst group
      obtain ⟨⟩ := closed
      rfl
    · rw [closeGroup] at closed
      · obtain ⟨nodes₁, first, rest⟩ := Calc.bind_eq_ok.mp closed
        rw [finish, first]
        · exact ih rest
        · exact group
      · exact group

/-- A step at a closing parenthesis closes a group behind a complete operand. -/
theorem closeGroup_of_step (stop : t.kind = .op .closing) (run : step b s t = .ok s') :
    s.ended = true ∧ closeGroup b s.ops s.nodes = .ok (s'.ops, s'.nodes) := by
  obtain ⟨nodes, ops, ended⟩ := s
  cases ended with
  | false =>
    rw [step, stop] at run
    cases run
  | true =>
    rw [step_closing stop] at run
    obtain ⟨closed, group, ⟨⟩⟩ := Calc.bind_eq_ok.mp run
    exact ⟨rfl, group⟩

/-- Closing parentheses at the end only do what the end does. -/
theorem finish_closings (stop : t.kind = .op .closing)
    (run : (List.replicate depth t).foldlM (step b) s = .ok s') (ended : s'.ended = true) :
    s.ended = true ∧ finish b s.ops s.nodes = finish b s'.ops s'.nodes := by
  induction depth generalizing s with
  | zero =>
    obtain ⟨⟩ := run
    exact ⟨ended, rfl⟩
  | succ depth ih =>
    rw [List.replicate_succ, List.foldlM_cons] at run
    obtain ⟨s₁, first, rest⟩ := Calc.bind_eq_ok.mp run
    obtain ⟨-, same⟩ := ih rest
    obtain ⟨complete, closed⟩ := closeGroup_of_step stop first
    exact ⟨complete, (finish_closeGroup closed).trans same⟩

/-- Tokens that spell an equation, once the open groups are closed, have the tree of its phrase. -/
theorem parseTokens_eq_build (total : b.Total) (stop : t.kind = .op .closing)
    (h : Derives .equation (ts ++ List.replicate depth t) p) : parseTokens b ts = p.build b := by
  -- the closings are run as tokens first, and then told to do what finishing does
  obtain ⟨v, value⟩ := p.build_total total
  have nonempty : ¬ts.isEmpty = true := by
    intro empty
    obtain rfl := List.isEmpty_iff.mp empty
    obtain ⟨u, us, same, start⟩ := h.starts
    have closing : u = t := List.eq_of_mem_replicate (same ▸ List.mem_cons_self)
    rw [closing, stop] at start
    exact start
  have run : parseTokens b (ts ++ List.replicate depth t) = .ok v :=
    (parseTokens_derives h).trans value
  have longer : ¬(ts ++ List.replicate depth t).isEmpty = true := by
    simp only [List.isEmpty_iff, List.append_eq_nil_iff] at nonempty ⊢
    exact fun empty => nonempty empty.1
  unfold parseTokens at run ⊢
  rw [if_neg longer, List.foldlM_append] at run
  obtain ⟨s', fold, rest⟩ := Calc.bind_eq_ok.mp run
  obtain ⟨s, first, closings⟩ := Calc.bind_eq_ok.mp fold
  have ended : s'.ended = true := by
    by_contra awaits
    rw [if_pos (by simpa using awaits)] at rest
    cases rest
  obtain ⟨complete, same⟩ := finish_closings stop closings ended
  rw [if_neg (by simp [ended])] at rest
  rw [if_neg nonempty, first, value, ← rest, ← same]
  exact if_neg (by simp [complete])

/-! ## How reading fails -/

/-- Reading tokens fails as the builder does, or because they are no expression. -/
theorem parseTokens_failsAs {P : Failure → Prop} (hb : b.FailsAs P) (hm : ∀ m, P (.malformed m))
    (balanced : unclosed? 0 ts = some depth) : (parseTokens b ts).FailsAs P := by
  have confined : b.Confined (fun _ => True) (fun _ => True) P fun _ => True :=
    { malformed := hm
      product := True.intro
      number := fun _ => True.intro
      letter := fun _ => True.intro
      negate := fun _ => .of_failsAs (hb.negate _)
      combine := fun _ _ _ => .of_failsAs (hb.combine _ _ _)
      factorial := fun _ => .of_failsAs (hb.factorial _)
      apply := fun _ => .of_failsAs (hb.apply _ _) }
  exact (parseTokens_ends confined (fun _ _ _ => True.intro) (fun _ _ _ _ => True.intro)
    (.inr (opened_of_balanced balanced))).fails

/-- **The parser reads exactly the grammar.** With a builder that has a tree for all parts, tokens
are accepted if and only if, with a closing parenthesis for every open one, they spell an
equation. The tree is what the builder makes of the phrase that they spell, and tokens that spell
none are reported as malformed. -/
theorem parseTokens_exact (total : b.Total) (signs : SignsAwait ts)
    (balanced : unclosed? 0 ts = some depth) (stop : t.kind = .op .closing) :
    ((∃ v, parseTokens b ts = .ok v) ↔
        ∃ p, Spells TakesAll .equation (ts ++ List.replicate depth t) [] p) ∧
      (∀ p, Spells TakesAll .equation (ts ++ List.replicate depth t) [] p →
        parseTokens b ts = p.build b) ∧
      ((¬∃ p, Spells TakesAll .equation (ts ++ List.replicate depth t) [] p) →
        ∃ m, parseTokens b ts = .error (.malformed m)) := by
  simp only [spells_iff]
  -- one direction reads the derivation off the run, the other runs along it
  have accepted : (∃ v, parseTokens b ts = .ok v) ↔
      ∃ p, Derives .equation (ts ++ List.replicate depth t) p := by
    constructor
    · rintro ⟨v, run⟩
      obtain ⟨p, derives, -⟩ := derives_of_parseTokens signs balanced stop run
      exact ⟨p, derives⟩
    · rintro ⟨p, derives⟩
      rw [parseTokens_eq_build total stop derives]
      exact p.build_total total
  refine ⟨accepted, fun p derives => parseTokens_eq_build total stop derives, fun outside => ?_⟩
  have fails : (parseTokens b ts).FailsAs fun e => ∃ m, e = .malformed m :=
    parseTokens_failsAs (total.failsAs _) (fun m => ⟨m, rfl⟩) balanced
  cases run : parseTokens b ts with
  | ok v => exact absurd (accepted.mp ⟨v, run⟩) outside
  | error e =>
    obtain ⟨m, rfl⟩ := fails e run
    exact ⟨m, rfl⟩

/-- In `(sin-x^x` the power belongs to the argument of the sine, and the group is closed. -/
theorem parseTokens_exact_argument :
    Phrase.free.Total ∧ SignsAwait Token.openArgument ∧ unclosed? 0 Token.openArgument = some 1 ∧
      (∃ p, Spells TakesAll .equation (Token.openArgument ++ [⟨.op .closing, [')'], 8⟩]) [] p) ∧
      parseTokens Phrase.free Token.openArgument =
        .ok (.apply .sin (.negate (.combine .pow (.letter "x") (.letter "x")))) := by
  have total : Phrase.free.Total := Phrase.free_total
  have signs : SignsAwait Token.openArgument := by
    simp [SignsAwait, Token.openArgument, Token.endsTerm]
  have balanced : unclosed? 0 Token.openArgument = some 1 := rfl
  have run : parseTokens Phrase.free Token.openArgument =
      .ok (.apply .sin (.negate (.combine .pow (.letter "x") (.letter "x")))) := rfl
  have stop : (Token.mk (.op .closing) [')'] 8).kind = .op .closing := rfl
  exact ⟨total, signs, balanced, (parseTokens_exact total signs balanced stop).1.mp ⟨_, run⟩, run⟩

end Parser

end SymbolicAlgebra
