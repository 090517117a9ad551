import Mathlib
import SymbolicAlgebra.Parser

/-!
# The grammar of expressions

What the operator precedence parser reads, as a grammar. A `Phrase` is what tokens spell,
before anything is made of it, and `Derives c ts p` says that the grammar derives the tokens
`ts` as the phrase `p` in the category `c`:

* an equation, sum or product is a chain of operands of the next category, grouped to the
  left; a product may lack its sign before anything but a negation;
* a negation takes the operand behind it with its powers, a power groups to the right;
* a factorial follows its operand, a function takes the operand behind it without its powers,
  unless that operand has a sign.

The parser returns what the builder makes of the phrase, in the order of the text
(`Parser.parseTokens_derives`). The proof follows a derivation through the two stacks. Two
conditions carry it: that no operator of the derived tokens reduces what waits below them
(`Waits`), and that what the derivation leaves on the stack is reduced by whatever follows it
(`Settles`).
-/

namespace SymbolicAlgebra

/-- What tokens spell. -/
inductive Phrase where
  /-- A number. -/
  | number (z : Number)
  /-- A variable. -/
  | letter (name : String)
  /-- A minus sign in front of a phrase. -/
  | negate (p : Phrase)
  /-- An operator between two phrases. -/
  | combine (op : Binary) (p q : Phrase)
  /-- The factorial of a phrase. -/
  | factorial (p : Phrase)
  /-- A named function of a phrase. -/
  | apply (f : Func) (p : Phrase)

/-- What a builder makes of a phrase, left parts first. -/
def Phrase.build {α : Type} (b : Builder α) : Phrase → Calc α
  | number z => pure (b.number z)
  | letter name => pure (b.letter name)
  | negate p => do b.negate (← p.build b)
  | combine op p q => do b.combine op (← p.build b) (← q.build b)
  | factorial p => do b.factorial (← p.build b)
  | apply f p => do b.apply f (← p.build b)

/-! ## Categories -/

/-- The categories of the grammar, a looser one before a tighter one. -/
inductive Category where
  /-- A chain of `=`. -/
  | equation
  /-- A chain of `+` and `-`. -/
  | sum
  /-- A chain of `*` and `/`. -/
  | product
  /-- An operand of a product. -/
  | unary
  /-- An operand with a sign, maybe below functions. -/
  | signed
  /-- A power, or what can stand for one. -/
  | power
  /-- The base of a power, maybe with factorials behind it. -/
  | powerBase
  /-- What needs no parentheses anywhere. -/
  | atom
  deriving DecidableEq

namespace Category

/-- Which categories stand for others as they are. -/
inductive Within : Category → Category → Prop
  | sum : Within sum equation
  | product : Within product sum
  | unary : Within unary product
  | signed : Within signed unary
  | power : Within power unary
  | powerBase : Within powerBase power
  | atom : Within atom .powerBase

/-- The precedence from which on operators stand in a phrase of the category, outside of
parentheses and signs. -/
def prec : Category → Int
  | equation => 0
  | sum => 1
  | product => 2
  | unary | power => 3
  | powerBase => 4
  | signed | atom => 5

/-- The category of phrases that bind as tightly as operators of a precedence. -/
def ofPrec : ℕ → Category
  | 0 => equation
  | 1 => sum
  | 2 => product
  | 3 => power
  | 4 => powerBase
  | _ => atom

/-- What a phrase of the category may leave on the stack of operators. -/
def Leaves : Category → Parser.Pending → Prop
  | equation, old => old ≠ .opening
  | sum, old => old ≠ .opening ∧ 1 ≤ old.prec
  | product, old => old ≠ .opening ∧ 2 ≤ old.prec
  | unary, old | signed, old | power, old => old = .negation ∨ 3 ≤ old.prec
  | powerBase, old => 4 ≤ old.prec
  | atom, old => 5 ≤ old.prec

end Category

namespace Binary

/-- The category of what the operator makes. -/
def category : Binary → Category
  | equals => .equation
  | add | sub => .sum
  | mul | div => .product
  | pow => .power

/-- The category of the left operand. -/
def leftCategory : Binary → Category
  | pow => .powerBase
  | op => op.category

/-- The category of the right operand. -/
def rightCategory : Binary → Category
  | equals => .sum
  | add | sub => .product
  | mul | div | pow => .unary

end Binary

/-- The tokens spell the phrase, as one of the category. -/
inductive Derives : Category → List Token → Phrase → Prop
  | within {c d : Category} {ts : List Token} {p : Phrase} (h : c.Within d)
    (inner : Derives c ts p) : Derives d ts p
  | combine {op : Binary} {t : Token} {ts us : List Token} {p q : Phrase}
    (sign : t.kind = .op (.binary op)) (left : Derives op.leftCategory ts p)
    (right : Derives op.rightCategory us q) :
    Derives op.category (ts ++ t :: us) (.combine op p q)
  | multiply {t : Token} {ts us : List Token} {p q : Phrase} (start : t.kind ≠ .negation)
    (left : Derives .product ts p) (right : Derives .unary (t :: us) q) :
    Derives .product (ts ++ t :: us) (.combine .mul p q)
  | negate {t : Token} {ts : List Token} {p : Phrase} (sign : t.kind = .negation)
    (operand : Derives .unary ts p) : Derives .signed (t :: ts) (.negate p)
  | applySigned {f : Func} {t : Token} {ts : List Token} {p : Phrase}
    (name : t.kind = .op (.function f)) (argument : Derives .signed ts p) :
    Derives .signed (t :: ts) (.apply f p)
  | factorial {t : Token} {ts : List Token} {p : Phrase} (sign : t.kind = .op .factorial)
    (operand : Derives .powerBase ts p) : Derives .powerBase (ts ++ [t]) (.factorial p)
  | number {t : Token} {z : Number} (numeral : t.kind = .numeral z) :
    Derives .atom [t] (.number z)
  | constant {t : Token} {c : NamedConstant} (name : t.kind = .constant c) :
    Derives .atom [t] (.number c.number)
  | letter {t : Token} (name : t.kind = .letter) : Derives .atom [t] (.letter t.spelling)
  | group {t t' : Token} {ts : List Token} {p : Phrase} (start : t.kind = .op .opening)
    (inner : Derives .equation ts p) (stop : t'.kind = .op .closing) :
    Derives .atom (t :: ts ++ [t']) p
  | apply {f : Func} {t : Token} {ts : List Token} {p : Phrase}
    (name : t.kind = .op (.function f)) (argument : Derives .atom ts p) :
    Derives .atom (t :: ts) (.apply f p)

namespace Derives

variable {c d : Category} {ts : List Token} {p : Phrase}

/-- The last token completes an operand. -/
theorem endsTerm (h : Derives c ts p) : ∃ init last, ts = init ++ [last] ∧ last.endsTerm = true := by
  have single : ∀ {t : Token}, t.endsTerm = true →
      ∃ init last, [t] = init ++ [last] ∧ last.endsTerm = true :=
    fun {t} h => ⟨[], t, rfl, h⟩
  -- on the derivation: the last token is that of its last part, unless a sign stands behind
  induction h with
  | within _ _ ih => exact ih
  | @combine _ t ts _ _ _ _ _ _ _ ih =>
    obtain ⟨init, last, rfl, h⟩ := ih
    exact ⟨ts ++ t :: init, last, by simp, h⟩
  | @multiply _ ts _ _ _ _ _ _ _ ih =>
    obtain ⟨init, last, same, h⟩ := ih
    exact ⟨ts ++ init, last, by rw [same, List.append_assoc], h⟩
  | @negate t _ _ _ _ ih =>
    obtain ⟨init, last, rfl, h⟩ := ih
    exact ⟨t :: init, last, rfl, h⟩
  | @applySigned _ t _ _ _ _ ih =>
    obtain ⟨init, last, rfl, h⟩ := ih
    exact ⟨t :: init, last, rfl, h⟩
  | @factorial t ts _ sign => exact ⟨ts, t, rfl, by rw [Token.endsTerm, sign]⟩
  | number numeral => exact single (by rw [Token.endsTerm, numeral])
  | constant name => exact single (by rw [Token.endsTerm, name])
  | letter name => exact single (by rw [Token.endsTerm, name])
  | @group t t' ts _ _ _ stop => exact ⟨t :: ts, t', rfl, by rw [Token.endsTerm, stop]⟩
  | @apply _ t _ _ _ _ ih =>
    obtain ⟨init, last, rfl, h⟩ := ih
    exact ⟨t :: init, last, rfl, h⟩

/-- The kinds of token that a phrase can start with. -/
def Starts : Token.Kind → Prop
  | .numeral _ | .letter | .constant _ | .negation | .op .opening | .op (.function _) => True
  | _ => False

/-- A phrase has a first token, of a kind that can start one. -/
theorem starts (h : Derives c ts p) : ∃ t us, ts = t :: us ∧ Starts t.kind := by
  -- on the derivation: the first token is that of its first part, unless a sign stands in front
  induction h with
  | within _ _ ih => exact ih
  | combine _ _ _ ih _ =>
    obtain ⟨t, us, rfl, h⟩ := ih
    exact ⟨t, _, rfl, h⟩
  | multiply _ _ _ ih _ =>
    obtain ⟨t, us, rfl, h⟩ := ih
    exact ⟨t, _, rfl, h⟩
  | negate sign => exact ⟨_, _, rfl, by rw [sign]; exact True.intro⟩
  | applySigned name => exact ⟨_, _, rfl, by rw [name]; exact True.intro⟩
  | factorial _ _ ih =>
    obtain ⟨t, us, rfl, h⟩ := ih
    exact ⟨t, _, rfl, h⟩
  | number numeral => exact ⟨_, _, rfl, by rw [numeral]; exact True.intro⟩
  | constant name => exact ⟨_, _, rfl, by rw [name]; exact True.intro⟩
  | letter name => exact ⟨_, _, rfl, by rw [name]; exact True.intro⟩
  | group start => exact ⟨_, _, rfl, by rw [start]; exact True.intro⟩
  | apply name => exact ⟨_, _, rfl, by rw [name]; exact True.intro⟩

/-- A power does not start with a sign. -/
theorem starts_power (h : Derives c ts p) (hc : c = .power ∨ c = .powerBase ∨ c = .atom) :
    ∃ t us, ts = t :: us ∧ t.kind ≠ .negation := by
  -- the categories up to a power are closed under taking the first part, and have no negation
  induction h with
  | @within c d _ _ h _ ih =>
    refine ih ?_
    cases h <;> simp_all
  | @combine op _ _ _ _ _ _ _ _ ih _ =>
    have left : op.leftCategory = .powerBase := by
      cases op <;> simp_all [Binary.category, Binary.leftCategory]
    obtain ⟨t, us, rfl, h⟩ := ih (.inr (.inl left))
    exact ⟨t, _, rfl, h⟩
  | multiply => simp at hc
  | negate => simp at hc
  | applySigned => simp at hc
  | factorial _ _ ih =>
    obtain ⟨t, us, rfl, h⟩ := ih (.inr (.inl rfl))
    exact ⟨t, _, rfl, h⟩
  | number numeral => exact ⟨_, _, rfl, by simp [numeral]⟩
  | constant name => exact ⟨_, _, rfl, by simp [name]⟩
  | letter name => exact ⟨_, _, rfl, by simp [name]⟩
  | group start => exact ⟨_, _, rfl, by simp [start]⟩
  | apply name => exact ⟨_, _, rfl, by simp [name]⟩

end Derives

/-! ## The two stacks -/

namespace Parser

variable {α β : Type} {b : Builder α} {c d : Category} {ops : List Pending} {old new : Pending}
  {nodes : List α} {K : State α → Calc β}

/-- Whether an operator stands behind an operand. -/
def Pending.Follows : Pending → Prop
  | .binary _ | .factorial => True
  | _ => False

/-- The operators of a phrase of the category do not reduce what is on top of the stack. -/
def Waits (c : Category) (ops : List Pending) : Prop :=
  ∀ old ∈ ops.head?, ∀ new : Pending, new.Follows → c.prec ≤ new.prec → yields new old = false

/-- What goes on after a phrase of the category reduces what the phrase leaves on the stack. -/
def Settles (b : Builder α) (c : Category) (K : State α → Calc β) : Prop :=
  ∀ {old ops nodes}, c.Leaves old →
    K ⟨nodes, old :: ops, true⟩ = (reduce b old nodes >>= fun nodes => K ⟨nodes, ops, true⟩)

/-- A phrase of a tighter category leaves no more. -/
theorem leaves_within (h : c.Within d) (hold : c.Leaves old) : d.Leaves old := by
  cases h <;> cases old <;> simp_all [Category.Leaves, Pending.prec] <;> omega

/-- What waits for a looser phrase waits for a tighter one. -/
theorem Waits.within (h : c.Within d) (hw : Waits d ops) : Waits c ops := by
  intro old hold new follows hnew
  have looser : d.prec ≤ c.prec := by
    cases h <;> decide
  exact hw old hold new follows (Int.le_trans looser hnew)

/-- What reduces all that a looser phrase leaves reduces what a tighter one does. -/
theorem Settles.within (h : c.Within d) (hK : Settles b d K) : Settles b c K :=
  fun hold => hK (leaves_within h hold)

/-- Nothing that waits below a phrase is reduced by its operators. -/
theorem reduceBefore_waits (hw : Waits c ops) (follows : new.Follows) (h : c.prec ≤ new.prec) :
    reduceBefore b new ops nodes = pure (ops, nodes) := by
  cases ops with
  | nil => rfl
  | cons old ops =>
    unfold reduceBefore
    rw [hw old rfl new follows h, if_neg Bool.false_ne_true]

theorem reduceBefore_yields (h : yields new old = true) :
    reduceBefore b new (old :: ops) nodes =
      (reduce b old nodes >>= fun nodes => reduceBefore b new ops nodes) := by
  rw [reduceBefore, if_pos h]

/-- An operator is put on a stack that waits. -/
theorem push_waits {ended : Bool} (hw : Waits c ops) (follows : new.Follows)
    (h : c.prec ≤ new.prec) :
    push b new ⟨nodes, ops, ended⟩ = pure ⟨nodes, new :: ops, ended⟩ := by
  unfold push
  rw [reduceBefore_waits hw follows h]
  rfl

/-- Before an operator is put on the stack, the one that yields to it is reduced. -/
theorem push_yields {ended : Bool} (h : yields new old = true) :
    push b new ⟨nodes, old :: ops, ended⟩ =
      (reduce b old nodes >>= fun nodes => push b new ⟨nodes, ops, ended⟩) := by
  unfold push
  rw [reduceBefore_yields h, bind_assoc]

/-- What an operator pushes after its left operand. -/
theorem yields_leaves {op : Binary} (h : op.leftCategory.Leaves old) :
    yields (.binary op) old = true := by
  cases op <;> cases old with
  | binary old =>
    cases old <;> simp_all [Category.Leaves, Binary.leftCategory, Binary.category, Pending.prec,
      Binary.prec, yields]
  | _ => simp_all [Category.Leaves, Binary.leftCategory, Binary.category, Pending.prec,
      Binary.prec, yields]

/-- What binds as tightly as an operand yields to a factorial. -/
theorem yields_factorial (h : Category.powerBase.Leaves old) : yields .factorial old = true := by
  change 4 ≤ old.prec at h
  cases old with
  | binary op => cases op <;> exact absurd h (by decide)
  | factorial => rfl
  | function => rfl
  | _ => exact absurd h (by decide)

/-! ### Steps -/

variable {t : Token} {ts : List Token} {p : Phrase} {op : Binary} {f : Func}

/-- An operator between two operands, behind the first of them. -/
theorem step_binary (sign : t.kind = .op (.binary op)) :
    step b ⟨nodes, ops, true⟩ t =
      (push b (.binary op) ⟨nodes, ops, true⟩ >>= fun s => pure { s with ended := false }) := by
  rw [step, sign]
  rfl

/-- A factorial behind its operand. -/
theorem step_factorial (sign : t.kind = .op .factorial) :
    step b ⟨nodes, ops, true⟩ t =
      (push b .factorial ⟨nodes, ops, true⟩ >>= fun s => pure { s with ended := true }) := by
  rw [step, sign]
  rfl

/-- A closing parenthesis behind a complete operand. -/
theorem step_closing (stop : t.kind = .op .closing) :
    step b ⟨nodes, ops, true⟩ t =
      (closeGroup b ops nodes >>= fun s => pure ⟨s.2, s.1, true⟩) := by
  rw [step, stop]
  rfl

/-- What starts a phrase directly behind an operand comes after a product. -/
theorem step_implicit (start : Derives.Starts t.kind) (sign : t.kind ≠ .negation) :
    step b ⟨nodes, ops, true⟩ t =
      (push b (.binary .mul) ⟨nodes, ops, true⟩ >>= fun s => step b { s with ended := false } t) := by
  have free : ∀ s : State α, implicitProduct b { s with ended := false } =
      pure { s with ended := false } := fun _ => rfl
  have product : implicitProduct b ⟨nodes, ops, true⟩ = push b (.binary .mul) ⟨nodes, ops, true⟩ :=
    rfl
  unfold step
  split
  case h_4 => exact absurd ‹_› sign
  case h_7 kind => exact absurd start (by rw [kind]; exact id)
  case h_8 kind => exact absurd start (by rw [kind]; exact id)
  case h_9 kind => exact absurd start (by rw [kind]; exact id)
  all_goals simp only [operand, waitFor, free, product, pure_bind]

/-! ### Phrases -/

theorem waits_opening : Waits c (.opening :: ops) := by
  rintro old ⟨⟩ new - -
  rfl

theorem waits_negation : Waits .unary (.negation :: ops) := by
  rintro old ⟨⟩ new - hnew
  have looser : ¬new.prec ≤ Pending.negation.prec := Int.not_le.mpr hnew
  rw [yields, decide_eq_false looser, Bool.and_false, Bool.false_and]

/-- Nothing behind an operand binds as tightly as a function. -/
theorem waits_of_prec (h : c.prec = 5) : Waits c ops := by
  intro old _ new follows hnew
  rw [h] at hnew
  cases new with
  | binary op => cases op <;> exact absurd hnew (by decide)
  | factorial => exact absurd hnew (by decide)
  | _ => exact absurd follows id

/-- An operator waits for its right operand. -/
theorem waits_binary : Waits op.rightCategory (.binary op :: ops) := by
  rintro old ⟨⟩ new follows hnew
  cases new with
  | binary new => cases op <;> cases new <;> first | rfl | exact absurd hnew (by decide)
  | factorial => cases op <;> rfl
  | _ => exact absurd follows id

/-- What the right operand leaves on the stack, the whole phrase leaves. -/
theorem leaves_right (h : op.rightCategory.Leaves old) : op.category.Leaves old := by
  cases op <;> cases old <;> simp_all [Category.Leaves, Binary.category, Binary.rightCategory,
    Pending.prec] <;> omega

theorem leaves_binary : op.category.Leaves (.binary op) := by
  cases op <;> simp [Category.Leaves, Binary.category, Pending.prec, Binary.prec]

theorem category_prec : op.category.prec = (Pending.binary op).prec := by
  cases op <;> rfl

/-- An operator between two phrases, the right one of which may come without its sign. -/
theorem foldlM_combine {q : Phrase} {us vs : List Token}
    (sign : ∀ {nodes ops}, (vs.foldlM (step b) ⟨nodes, ops, true⟩ >>= K) =
      (push b (.binary op) ⟨nodes, ops, true⟩ >>= fun s =>
        us.foldlM (step b) { s with ended := false } >>= K))
    (left : ∀ {K : State α → Calc β}, Settles b op.leftCategory K →
      (ts.foldlM (step b) ⟨nodes, ops, false⟩ >>= K) =
        (p.build b >>= fun v => K ⟨v :: nodes, ops, true⟩))
    (right : ∀ {nodes}, (us.foldlM (step b) ⟨nodes, .binary op :: ops, false⟩ >>= K) =
      (q.build b >>= fun v => K ⟨v :: nodes, .binary op :: ops, true⟩))
    (hw : Waits op.category ops) (hK : Settles b op.category K) :
    ((ts ++ vs).foldlM (step b) ⟨nodes, ops, false⟩ >>= K) =
      ((p.combine op q).build b >>= fun v => K ⟨v :: nodes, ops, true⟩) := by
  have settles : Settles b op.leftCategory fun s => vs.foldlM (step b) s >>= K := by
    intro old ops nodes hold
    simp only [sign, push_yields (yields_leaves hold), bind_assoc]
  have pushed : ∀ {nodes : List α}, push b (.binary op) ⟨nodes, ops, true⟩ =
      pure ⟨nodes, .binary op :: ops, true⟩ :=
    push_waits hw True.intro (Int.le_of_eq category_prec)
  -- the left operand is read first, settled by the sign, and the right one read above it
  rw [List.foldlM_append, bind_assoc, left settles, Phrase.build]
  simp only [bind_assoc]
  refine bind_congr fun v => ?_
  rw [sign, pushed, pure_bind, right]
  refine bind_congr fun w => ?_
  rw [hK leaves_binary]
  simp only [reduce, bind_assoc, pure_bind]

/-- The steps over derived tokens put what the builder makes of the phrase on the stack, where
what follows takes it. -/
theorem foldlM_derives (h : Derives c ts p) (hw : Waits c ops) (hK : Settles b c K) :
    (ts.foldlM (step b) ⟨nodes, ops, false⟩ >>= K) =
      (p.build b >>= fun v => K ⟨v :: nodes, ops, true⟩) := by
  -- on the derivation, with any continuation that first reduces what the category leaves
  induction h generalizing nodes ops K with
  | within h _ ih => exact ih (hw.within h) (hK.within h)
  | @combine op t ts us p q sign _ _ ihl ihr =>
    have hl : Waits op.leftCategory ops := by
      cases op with
      | pow => exact (hw.within .power).within .powerBase
      | _ => exact hw
    refine foldlM_combine ?_ (fun hK => ihl hl hK)
      (ihr waits_binary fun hold => hK (leaves_right hold)) hw hK
    intro nodes ops
    rw [List.foldlM_cons, step_binary sign]
    simp only [bind_assoc, pure_bind]
  | @multiply t ts us p q start _ hr ihl ihr =>
    obtain ⟨_, _, ⟨rfl, rfl⟩, starts⟩ := hr.starts
    have waits : Waits Binary.mul.rightCategory (.binary .mul :: ops) := waits_binary
    refine foldlM_combine ?_ (fun hK => ihl hw hK)
      (ihr waits fun {old _ _} hold =>
        hK (leaves_right (show Binary.mul.rightCategory.Leaves old from hold))) hw hK
    intro nodes ops
    simp only [List.foldlM_cons, step_implicit starts start, bind_assoc]
  | @negate t ts p sign _ ih =>
    have first : step b ⟨nodes, ops, false⟩ t = pure ⟨nodes, .negation :: ops, false⟩ := by
      rw [step, sign]
      rfl
    rw [List.foldlM_cons, first, pure_bind, ih waits_negation fun hold => hK hold]
    simp only [Phrase.build, bind_assoc]
    refine bind_congr fun v => ?_
    rw [hK (.inl rfl)]
    simp only [reduce, bind_assoc, pure_bind]
  | @applySigned f t ts p name _ ih =>
    have first : step b ⟨nodes, ops, false⟩ t = pure ⟨nodes, .function f :: ops, false⟩ := by
      rw [step, name]
      rfl
    rw [List.foldlM_cons, first, pure_bind, ih (waits_of_prec rfl) hK]
    simp only [Phrase.build, bind_assoc]
    refine bind_congr fun v => ?_
    rw [hK (show Category.signed.Leaves (.function f) from .inr (show (3 : Int) ≤ 5 by decide))]
    simp only [reduce, bind_assoc, pure_bind]
  | @factorial t ts p sign _ ih =>
    have settles : Settles b .powerBase fun s => step b s t >>= K := by
      intro old ops nodes hold
      simp only [step_factorial sign, push_yields (yields_factorial hold), bind_assoc]
    have last : ∀ s, ([t].foldlM (step b) s >>= K) = (step b s t >>= K) := fun s => by
      simp only [List.foldlM_cons, List.foldlM_nil, bind_assoc, pure_bind]
    rw [List.foldlM_append, bind_assoc]
    simp only [last]
    rw [ih hw settles]
    simp only [Phrase.build, bind_assoc]
    refine bind_congr fun v => ?_
    rw [step_factorial sign, push_waits hw (show Pending.factorial.Follows from True.intro)
      (Int.le_refl 4), pure_bind, pure_bind, hK (show Category.powerBase.Leaves .factorial from
      Int.le_refl 4)]
    simp only [reduce, bind_assoc, pure_bind]
  | number numeral =>
    rw [List.foldlM_cons, step, numeral]
    rfl
  | constant name =>
    rw [List.foldlM_cons, step, name]
    rfl
  | letter name =>
    rw [List.foldlM_cons, step, name]
    rfl
  | @group t t' ts p start _ stop ih =>
    have first : step b ⟨nodes, ops, false⟩ t = pure ⟨nodes, .opening :: ops, false⟩ := by
      rw [step, start]
      rfl
    have settles : Settles b .equation fun s => step b s t' >>= K := by
      intro old ops nodes hold
      have closed : closeGroup b (old :: ops) nodes =
          (reduce b old nodes >>= fun nodes => closeGroup b ops nodes) := by
        rw [closeGroup]
        exact hold
      simp only [step_closing stop, closed, bind_assoc]
    have last : ∀ s, ([t'].foldlM (step b) s >>= K) = (step b s t' >>= K) := fun s => by
      simp only [List.foldlM_cons, List.foldlM_nil, bind_assoc, pure_bind]
    rw [List.cons_append, List.foldlM_cons, first, pure_bind, List.foldlM_append, bind_assoc]
    simp only [last]
    rw [ih waits_opening settles]
    refine bind_congr fun v => ?_
    rw [step_closing stop]
    rfl
  | @apply f t ts p name _ ih =>
    have first : step b ⟨nodes, ops, false⟩ t = pure ⟨nodes, .function f :: ops, false⟩ := by
      rw [step, name]
      rfl
    rw [List.foldlM_cons, first, pure_bind, ih (waits_of_prec rfl) hK]
    simp only [Phrase.build, bind_assoc]
    refine bind_congr fun v => ?_
    rw [hK (show Category.atom.Leaves (.function f) from Int.le_refl 5)]
    simp only [reduce, bind_assoc, pure_bind]

/-- The parser returns what the builder makes of the phrase that the tokens spell. -/
theorem parseTokens_derives (h : Derives .equation ts p) : parseTokens b ts = p.build b := by
  have waits : Waits .equation [] := by
    rintro old ⟨⟩
  obtain ⟨t, us, rfl, -⟩ := h.starts
  unfold parseTokens
  rw [if_neg (by simp)]
  refine (foldlM_derives h waits fun {old ops nodes} hold => ?_).trans (bind_pure _)
  have finished : finish b (old :: ops) nodes =
      (reduce b old nodes >>= fun nodes => finish b ops nodes) := by
    rw [finish]
    exact hold
  simp only [finished, bind_assoc]
  rfl

end Parser

end SymbolicAlgebra
