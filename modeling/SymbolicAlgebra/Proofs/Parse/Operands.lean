import SymbolicAlgebra.Proofs.Parse.Failures
import SymbolicAlgebra.Proofs.Parse.Scan

/-!
# The stacks never run dry

The parser takes operands off its stack without a look at the text that they come from. There are
always enough of them: the operators on the stack hold all their operands but the last ones
(`held`), so behind a complete operand the stack has one more than they hold (`Supplied`), and
elsewhere just as many (`Balanced`). Reducing an operator keeps that, whichever it is and how many
have been reduced before (`Unwinds.supplied`), and so does every token (`step_balanced`). A
negation is the one token that could break it, behind a complete operand; the lexer finds none
there, also where functions have vanished with their inverses.

A closing parenthesis has an opening one on the stack, because the lexer counts those that are
open and the stack holds as many of them (`opened_of_balanced`). So the failure of `closeGroup` itself,
`Failure.noOpening`, is out of reach with the other ones (`Failure.IsDry`).

What a loop of the parser looks at is said by `Reads`. Every failure of the parser is one of what
it looks at (`foldlM_balanced`, `finish_unwinds`), so none is left for tokens of a text, if the
builder has a tree for all parts (`parse_suffices`).
-/

namespace SymbolicAlgebra

/-- Something is missing on the stacks of the parser: an operator lacks an operand, not one operand
is left at the end, or there is nothing to look at, as where a group is closed that is not open. -/
def Failure.IsDry (e : Failure) : Prop :=
  (∃ operator, e = .malformed (.operandsOf operator)) ∨ e = .malformed .leftOver ∨
    e.kind = "IndexError"

/-- Nothing is missing on the stacks where the text is still taken apart. -/
theorem Failure.IsLexical.not_isDry {e : Failure} (h : e.IsLexical) : ¬e.IsDry := by
  rintro (⟨operator, rfl⟩ | rfl | index)
  · exact h
  · exact h
  · cases e with
    | noParameter | noOpening => exact h
    | _ => exact absurd index (by simp [kind])

namespace Parser

open Relation (ReflTransGen)
open Token (unclosed? SignsAwait)

variable {α : Type} {b : Builder α} {ops : List Pending} {op new : Pending}
  {nodes nodes' : List α} {s : State α} {t : Token} {ts us vs : List Token} {e : Failure}
  {atEnd : Bool}

/-! ## Operands -/

/-- How many operands an operator takes. -/
def Pending.operands : Pending → ℕ
  | opening => 0
  | negation | factorial | function _ => 1
  | binary _ => 2

/-- How many operands wait for the operators on the stack: all that they take but the last ones. -/
def held (ops : List Pending) : ℕ := (ops.map fun op => op.operands - 1).sum

@[simp] theorem held_cons : held (op :: ops) = op.operands - 1 + held ops := List.sum_cons

/-- What reduces an operator takes its operands off the stack and puts one on. -/
theorem length_reduce (reduced : reduce b op nodes = .ok nodes') :
    nodes.length + 1 = nodes'.length + op.operands ∧ 1 ≤ op.operands := by
  unfold reduce at reduced
  split at reduced
  case h_5 => cases reduced
  all_goals
    obtain ⟨v, -, ⟨⟩⟩ := Calc.bind_eq_ok.mp reduced
    simp [Pending.operands]

/-- With all its operands on the stack an operator is reduced, if the builder has a tree. -/
theorem reduce_ok (total : b.Total) (inner : op ≠ .opening)
    (enough : op.operands ≤ nodes.length) : ∃ nodes', reduce b op nodes = .ok nodes' := by
  have made : ∀ {x : Calc α} {rest : List α}, (∃ u, x = .ok u) →
      ∃ nodes', (do return (← x) :: rest) = Except.ok nodes' := by
    rintro x rest ⟨u, rfl⟩
    exact ⟨u :: rest, rfl⟩
  cases op with
  | opening => exact absurd rfl inner
  | negation =>
    obtain ⟨v, rest, rfl⟩ := List.exists_cons_of_length_pos enough
    exact made (total.negate v)
  | factorial =>
    obtain ⟨v, rest, rfl⟩ := List.exists_cons_of_length_pos enough
    exact made (total.factorial v)
  | function f =>
    obtain ⟨v, rest, rfl⟩ := List.exists_cons_of_length_pos enough
    exact made (total.apply f v)
  | binary op =>
    match nodes, enough with
    | v :: w :: rest, _ => exact made (total.combine op w v)

/-! ## What the loops look at -/

/-- The stacks of operators and of operands, their tops first. -/
abbrev Stacks (α : Type) := List Pending × List α

/-- The operator on top is reduced. At the end an opening parenthesis on top is taken off, too. -/
inductive Unwinds (b : Builder α) (atEnd : Bool) : Stacks α → Stacks α → Prop
  | operator {op : Pending} {ops : List Pending} {nodes nodes' : List α} (inner : op ≠ .opening)
    (reduced : reduce b op nodes = .ok nodes') : Unwinds b atEnd (op :: ops, nodes) (ops, nodes')
  | opening {ops : List Pending} {nodes : List α} (last : atEnd = true) :
    Unwinds b atEnd (.opening :: ops, nodes) (ops, nodes)

/-- The parser has taken in the tokens and is in this state. -/
def After (b : Builder α) (ts : List Token) (s : State α) : Prop :=
  ts.foldlM (step b) ⟨[], [], false⟩ = .ok s

/-- While the tokens are parsed a loop looks at the stacks, for a token that follows or at the end
of all tokens. It starts behind a complete operand. In front of a token any number of operators may
have been reduced, and it does not matter which of them the token asks for. -/
inductive Reads (b : Builder α) (ts : List Token) : Option Token → Stacks α → Prop
  | before {us vs : List Token} {t : Token} {s : State α} {stack : Stacks α}
    (split : ts = us ++ t :: vs) (after : After b us s) (ended : s.ended = true)
    (unwound : ReflTransGen (Unwinds b false) (s.ops, s.nodes) stack) : Reads b ts (some t) stack
  | atEnd {s : State α} {stack : Stacks α} (after : After b ts s) (ended : s.ended = true)
    (unwound : ReflTransGen (Unwinds b true) (s.ops, s.nodes) stack) : Reads b ts none stack

/-- The operands on the stack are those that wait for the operators, and one more. -/
def Supplied (stack : Stacks α) : Prop := stack.2.length = held stack.1 + 1

theorem Supplied.operands_le (h : Supplied (op :: ops, nodes)) : op.operands ≤ nodes.length := by
  have count : nodes.length = op.operands - 1 + held ops + 1 := by simpa [Supplied] using h
  omega

/-- Reducing takes as many operands as it frees. -/
theorem Unwinds.supplied {stack stack' : Stacks α} (h : Unwinds b atEnd stack stack')
    (supplied : Supplied stack) : Supplied stack' := by
  cases h with
  | operator inner reduced =>
    obtain ⟨count, positive⟩ := length_reduce reduced
    simp only [Supplied, held_cons] at supplied ⊢
    omega
  | opening => simpa [Supplied, Pending.operands] using supplied

/-- So does any number of reductions. -/
theorem Supplied.unwound {stack stack' : Stacks α} (supplied : Supplied stack)
    (h : ReflTransGen (Unwinds b atEnd) stack stack') : Supplied stack' := by
  induction h with
  | refl => exact supplied
  | tail _ last ih => exact last.supplied ih

/-- Before the end an opening parenthesis stays where it is. -/
theorem opening_mem_of_unwinds {stack stack' : Stacks α}
    (h : ReflTransGen (Unwinds b false) stack stack') (opened : .opening ∈ stack.1) :
    .opening ∈ stack'.1 := by
  induction h with
  | refl => exact opened
  | tail _ last ih =>
    cases last with
    | operator inner => exact (List.mem_cons.mp ih).resolve_left inner.symm
    | opening last => cases last

/-! ## How a loop ends -/

/-- An operator that a loop comes to fails. -/
def Stuck (b : Builder α) (atEnd : Bool) (stack : Stacks α) (e : Failure) : Prop :=
  ∃ op ops nodes, ReflTransGen (Unwinds b atEnd) stack (op :: ops, nodes) ∧ op ≠ .opening ∧
    reduce b op nodes = .error e

theorem Stuck.of_unwinds {stack stack' : Stacks α} (first : Unwinds b atEnd stack stack')
    (h : Stuck b atEnd stack' e) : Stuck b atEnd stack e := by
  obtain ⟨op, ops, nodes, unwound, inner, failed⟩ := h
  exact ⟨op, ops, nodes, .head first unwound, inner, failed⟩

/-- No operator fails that has its operands, if the builder has a tree for all parts. -/
theorem Supplied.not_stuck {stack : Stacks α} (total : b.Total) (supplied : Supplied stack) :
    ¬Stuck b atEnd stack e := by
  rintro ⟨op, ops, nodes, unwound, inner, failed⟩
  obtain ⟨nodes', reduced⟩ := reduce_ok total inner (supplied.unwound unwound).operands_le
  rw [reduced] at failed
  cases failed

/-- Where a loop reduces an operator, it fails or goes on with what is left. -/
theorem ends_reduce {β : Type} {f : List α → Calc β} {P : Failure → Prop} {Q : β → Prop}
    (inner : op ≠ .opening) (stuck : ∀ e, Stuck b atEnd (op :: ops, nodes) e → P e)
    (rest : ∀ nodes', Unwinds b atEnd (op :: ops, nodes) (ops, nodes') → Ends (f nodes') P Q) :
    Ends (reduce b op nodes >>= f) P Q := by
  cases reduced : reduce b op nodes with
  | error e => exact .throw (stuck e ⟨op, ops, nodes, .refl, inner, reduced⟩)
  | ok nodes' => exact rest nodes' (.operator inner reduced)

/-- The loop in front of an operator reduces one after the other, or gets stuck. -/
theorem reduceBefore_unwinds : Ends (reduceBefore b new ops nodes) (Stuck b false (ops, nodes))
    (ReflTransGen (Unwinds b false) (ops, nodes)) := by
  induction ops generalizing nodes with
  | nil => exact .pure .refl
  | cons old ops ih =>
    unfold reduceBefore
    split
    next asked =>
      have inner : old ≠ .opening := by
        rintro rfl
        simp [yields] at asked
      exact ends_reduce inner (fun _ => id) fun nodes' first =>
        ih.mono (fun _ h => h.of_unwinds first) fun _ h => .head first h
    next => exact .pure .refl

/-- Closing a group fails where an operator does, or where no opening parenthesis is left. -/
theorem closeGroup_unwinds : Ends (closeGroup b ops nodes)
    (fun e => Stuck b false (ops, nodes) e ∨
      ∃ nodes', ReflTransGen (Unwinds b false) (ops, nodes) ([], nodes'))
    fun rest => ReflTransGen (Unwinds b false) (ops, nodes) (.opening :: rest.1, rest.2) := by
  induction ops generalizing nodes with
  | nil => exact .throw (.inr ⟨nodes, .refl⟩)
  | cons old ops ih =>
    by_cases group : old = .opening
    · subst group
      exact .pure .refl
    · rw [closeGroup]
      · refine ends_reduce group (fun _ => .inl) fun nodes' first =>
          ih.mono (fun e h => ?_) fun _ h => .head first h
        rcases h with stuck | ⟨rest, unwound⟩
        · exact .inl (stuck.of_unwinds first)
        · exact .inr ⟨rest, .head first unwound⟩
      · exact group

/-- The loop at the end reduces everything, or gets stuck. -/
theorem finish_unwinds : Ends (finish b ops nodes) (Stuck b true (ops, nodes))
    fun rest => ReflTransGen (Unwinds b true) (ops, nodes) ([], rest) := by
  induction ops generalizing nodes with
  | nil => exact .pure .refl
  | cons old ops ih =>
    by_cases group : old = .opening
    · subst group
      have first : Unwinds b true (.opening :: ops, nodes) (ops, nodes) := .opening rfl
      exact ih.mono (fun _ h => h.of_unwinds first) fun _ h => .head first h
    · rw [finish]
      · refine ends_reduce group (fun _ => id) fun nodes' first => ?_
        exact ih.mono (fun _ h => h.of_unwinds first) fun _ h => .head first h
      · exact group

/-! ## Tokens -/

/-- The operands on the stack are those that wait for the operators, and one more if one is
complete. -/
def Balanced (s : State α) : Prop := s.nodes.length = held s.ops + s.ended.toNat

/-- Behind a complete operand there is one more than those that wait. -/
theorem Balanced.supplied (h : Balanced s) (ended : s.ended = true) :
    Supplied (s.ops, s.nodes) := by
  rw [Balanced, ended] at h
  exact h

/-- An operator behind an operand leaves the operands that it waits with. -/
theorem push_balanced (supplied : Supplied (s.ops, s.nodes)) :
    Ends (push b new s) (Stuck b false (s.ops, s.nodes)) fun s' =>
      s'.nodes.length + (new.operands - 1) = held s'.ops + 1 := by
  refine reduceBefore_unwinds.bind fun rest unwound => .pure ?_
  have left := supplied.unwound unwound
  simp only [Supplied] at left
  simp only [held_cons]
  omega

/-- How the parser can fail at a token. -/
inductive Halts (b : Builder α) (s : State α) (t : Token) (e : Failure) : Prop
  | operand (missing : e = .malformed (.operandBefore t.spelling t.pos))
  | operator (ended : s.ended = true) (stuck : Stuck b false (s.ops, s.nodes) e)
  | opening {nodes : List α} (ended : s.ended = true) (stop : t.kind = .op .closing)
    (unwound : ReflTransGen (Unwinds b false) (s.ops, s.nodes) ([], nodes))

/-- In front of an operand no more operands are on the stack than wait for the operators. -/
theorem implicitProduct_balanced (h : Balanced s) : Ends (implicitProduct b s) (Halts b s t)
    fun s' => s'.nodes.length = held s'.ops := by
  unfold implicitProduct
  split
  next ended =>
    refine (push_balanced (h.supplied ended)).mono (fun _ => .operator ended) fun s' count => ?_
    exact Nat.add_right_cancel count
  next awaits =>
    rw [Balanced, Bool.eq_false_iff.mpr awaits] at h
    exact .pure h

theorem operand_balanced {v : α} (h : Balanced s) :
    Ends (operand b v s) (Halts b s t) Balanced :=
  (implicitProduct_balanced h).bind fun _ count => .pure (congrArg (· + 1) count)

/-- Every token keeps the balance, except a negation behind a complete operand. -/
theorem step_balanced (h : Balanced s) (sign : t.kind = .negation → s.ended = false) :
    Ends (step b s t) (Halts b s t) Balanced := by
  have behind : ∀ {x : Calc (State α)}, (s.ended = true → Ends x (Halts b s t) Balanced) →
      Ends (if !s.ended then throw (.malformed (.operandBefore t.spelling t.pos)) else x)
        (Halts b s t) Balanced := by
    intro x onward
    cases ended : s.ended with
    | false => exact .throw (.operand rfl)
    | true => exact onward ended
  unfold step
  split
  next => exact operand_balanced h
  next => exact operand_balanced h
  next => exact operand_balanced h
  next kind =>
    rw [Balanced, sign kind] at h
    exact .pure (by simpa [Balanced, waitFor, Pending.operands] using h)
  next =>
    refine (implicitProduct_balanced h).bind fun s' count => .pure ?_
    simpa [Balanced, waitFor, Pending.operands] using count
  next =>
    refine (implicitProduct_balanced h).bind fun s' count => .pure ?_
    simpa [Balanced, waitFor, Pending.operands] using count
  next kind =>
    refine behind fun ended => ?_
    refine Ends.bind (closeGroup_unwinds.mono (fun e failed => ?_) fun _ => id)
      fun rest unwound => ?_
    · rcases failed with stuck | ⟨nodes, unwound⟩
      · exact .operator ended stuck
      · exact .opening ended kind unwound
    · have count := (h.supplied ended).unwound unwound
      exact .pure (by simpa [Supplied, Balanced, Pending.operands] using count)
  next =>
    refine behind fun ended => ?_
    refine Ends.bind ((push_balanced (h.supplied ended)).mono (fun _ => .operator ended)
      fun _ => id) fun s' count => ?_
    exact .pure count
  next =>
    refine behind fun ended => ?_
    refine Ends.bind ((push_balanced (h.supplied ended)).mono (fun _ => .operator ended)
      fun _ => id) fun s' count => ?_
    exact .pure (Nat.add_right_cancel count)

/-- Where the parser fails at one of the tokens, it has taken in those in front of it. -/
theorem foldlM_balanced (h : Balanced s) (signs : SignsAwait ts)
    (first : ∀ t ∈ ts.head?, t.kind = .negation → s.ended = false) :
    Ends (ts.foldlM (step b) s) (fun e => ∃ us t vs s', ts = us ++ t :: vs ∧
      us.foldlM (step b) s = .ok s' ∧ Halts b s' t e) Balanced := by
  induction ts generalizing s with
  | nil => exact .pure h
  | cons t ts ih =>
    obtain ⟨next, signs⟩ := List.isChain_cons.mp signs
    have now := step_balanced (b := b) h (first t rfl)
    rw [List.foldlM_cons]
    cases taken : step b s t with
    | error e => exact .throw ⟨[], t, ts, s, rfl, rfl, now.fails e taken⟩
    | ok s₁ =>
      -- a negation comes next only where the token leaves no complete operand
      have onward := ih (now.returns s₁ taken) signs fun u hu sign => by
        rw [step_ended taken]
        by_contra ends
        exact next u hu (by simpa using ends) sign
      refine onward.mono (fun e failed => ?_) fun _ => id
      obtain ⟨us, u, vs, s', rfl, before, halts⟩ := failed
      exact ⟨t :: us, u, vs, s', rfl, by rw [List.foldlM_cons, taken]; exact before, halts⟩

/-! ## Texts -/

/-- The stacks of the parser suffice while it parses the tokens. -/
structure Suffices (b : Builder α) (ts : List Token) : Prop where
  /-- An operator that is reduced has all its operands on the stack. -/
  operands {next : Option Token} {op : Pending} {ops : List Pending} {nodes : List α} :
    Reads b ts next (op :: ops, nodes) → op.operands ≤ nodes.length
  /-- A group that is closed has its opening parenthesis on the stack. -/
  opening {t : Token} {ops : List Pending} {nodes : List α} : t.kind = .op .closing →
    Reads b ts (some t) (ops, nodes) → .opening ∈ ops
  /-- At the end one operand is left. -/
  single {s : State α} : After b ts s → s.ended = true → ∃ v, finish b s.ops s.nodes = .ok [v]

/-- The count is right after any tokens at the front. -/
theorem After.balanced (run : After b us s) (front : us <+: ts) (signs : SignsAwait ts) :
    Balanced s := by
  obtain ⟨vs, rfl⟩ := front
  exact (foldlM_balanced (b := b) (s := ⟨[], [], false⟩) rfl (List.isChain_append.mp signs).1
    fun _ _ _ => rfl).returns s run

/-- Whatever a loop looks at, the operands are there. -/
theorem Reads.supplied {next : Option Token} {stack : Stacks α} (h : Reads b ts next stack)
    (signs : SignsAwait ts) : Supplied stack := by
  cases h with
  | before split after ended unwound =>
    subst split
    have balanced := after.balanced (List.prefix_append _ _) signs
    exact (balanced.supplied ended).unwound unwound
  | atEnd after ended unwound =>
    have balanced := after.balanced (List.prefix_refl ts) signs
    exact (balanced.supplied ended).unwound unwound

/-- Tokens without a negation behind a complete operand, of which no parenthesis closes what is not
open, leave no stack dry. -/
theorem suffices_of_balanced {depth : ℕ} (total : b.Total) (signs : SignsAwait ts)
    (balanced : unclosed? 0 ts = some depth) : Suffices b ts where
  operands reads := (reads.supplied signs).operands_le
  opening stop reads := by
    cases reads with
    | before split after ended unwound =>
      subst split
      have opened := opened_of_balanced (b := b) balanced _ _ _ _ rfl after stop
      exact opening_mem_of_unwinds unwound opened
  single {s} after ended := by
    have supplied := Reads.supplied (.atEnd after ended .refl) signs
    cases run : finish b s.ops s.nodes with
    | error e => exact absurd (finish_unwinds.fails e run) (supplied.not_stuck total)
    | ok rest =>
      have length : rest.length = 1 := supplied.unwound (finish_unwinds.returns rest run)
      obtain ⟨v, rfl⟩ := List.length_eq_one_iff.mp length
      exact ⟨v, rfl⟩

/-- Then what the parser refuses misses an operand in the text, and not on a stack. -/
theorem Suffices.failsAs (h : Suffices b ts) (total : b.Total) (signs : SignsAwait ts) :
    (parseTokens b ts).FailsAs fun e => ¬e.IsDry := by
  have fold := foldlM_balanced (b := b) (s := ⟨[], [], false⟩) rfl signs fun _ _ _ => rfl
  unfold parseTokens
  split
  · exact .throw (by simp [Failure.IsDry, Failure.kind])
  refine Calc.FailsAs.bind_ok (fun e failed => ?_) fun s after => ?_
  · obtain ⟨us, t, vs, s, split, before, halts⟩ := fold.fails e failed
    cases halts with
    | operand missing =>
      subst missing
      simp [Failure.IsDry, Failure.kind]
    | operator ended stuck =>
      obtain ⟨op, ops, nodes, unwound, inner, failed⟩ := stuck
      have enough := h.operands (.before split before ended unwound)
      obtain ⟨nodes', reduced⟩ := reduce_ok total inner enough
      rw [reduced] at failed
      cases failed
    | opening ended stop unwound =>
      exact absurd (h.opening stop (.before split before ended unwound)) List.not_mem_nil
  · split
    · exact .throw (by simp [Failure.IsDry, Failure.kind])
    next complete =>
      obtain ⟨v, finished⟩ := h.single after (by simpa using complete)
      rw [finished]
      exact .pure v

/-- **The stacks never run dry.** For the tokens of every text, however it is read and whatever
builder has a tree for all parts: an operator that is reduced has all its operands on the stack, a
parenthesis that closes a group finds one that opens it, and one operand is left at the end. So the
parser never fails because something is missing on a stack. -/
theorem parse_suffices (total : b.Total) (reading : Reading) (allowed : Option (List String))
    (text : String) :
    (∀ ts, Token.tokenize reading allowed text = .ok ts → Suffices b ts) ∧
      (parse b reading allowed text).FailsAs fun e => ¬e.IsDry := by
  have enough : ∀ ts, Token.tokenize reading allowed text = .ok ts → Suffices b ts := by
    intro ts run
    obtain ⟨depth, balanced⟩ := Token.unclosed?_tokenize run
    exact suffices_of_balanced total (Token.signsAwait_tokenize run) balanced
  refine ⟨enough, Calc.FailsAs.bind_ok ?_ fun ts run => ?_⟩
  · exact (Token.tokenize_failsAs text).mono fun _ h => h.not_isDry
  · exact (enough ts run).failsAs total (Token.signsAwait_tokenize run)

/-- Behind `x` two functions vanish, so the minus sign is a subtraction; two products have no sign.
The first group is closed in the text, and the second one at its end. -/
theorem parse_suffices_vanished :
    let text := "(z x ln e^ -y!) (y"
    Phrase.free.Total ∧
      (∃ ts, Token.tokenize .standard none text = .ok ts ∧
        ts.map Token.spelling = ["(", "z", "x", "-", "y", "!", ")", "(", "y"] ∧
        Suffices Phrase.free ts) ∧
      ((parse Phrase.free .standard none text).FailsAs fun e => ¬e.IsDry) ∧
      (parse Phrase.free .standard none text).toOption.isSome = true := by
  intro text
  have total : Phrase.free.Total := Phrase.free_total
  obtain ⟨sufficient, fails⟩ := parse_suffices total .standard none text
  obtain ⟨ts, run, spelled⟩ : ∃ ts, Token.tokenize .standard none text = .ok ts ∧
      ts.map Token.spelling = ["(", "z", "x", "-", "y", "!", ")", "(", "y"] :=
    Calc.map_eq_ok.mp (by decide +kernel)
  exact ⟨total, ⟨ts, run, spelled, sufficient ts run⟩, fails, by decide +kernel⟩

end Parser

end SymbolicAlgebra
