import SymbolicAlgebra.Proofs.Parse.Stacks

/-!
# The rules of the grammar, one by one

`Derives` has one derivation for each list of tokens, because it keeps apart the operands that
end in a signed argument of a function. Here the grammar is written down as it is explained:

* an equation is a chain of sums, a sum one of products, a product one of operands, with or
  without their signs;
* an operand is a power, or a negation of an operand;
* a power is a base with its factorials, and maybe an exponent, which is an operand again;
* a base is a number, a constant, a variable, a group, or a function of a base or of a negation.

That leaves open how much a negation takes behind a function: in `sin -x ^ 2` the exponent may
belong to the argument or to the sine. The argument is taken as far as possible
(`TakesAll`), so `Spells` looks at the tokens that follow. Both forms derive the same phrases
(`spells_iff`).
-/

namespace SymbolicAlgebra

/-- Whether an operand can start with the token and no sign: a number, a constant, a variable,
an opening parenthesis or a function. -/
def Token.startsOperand (t : Token) : Bool :=
  match t.kind with
  | .numeral _ | .letter | .constant _ | .op .opening | .op (.function _) => true
  | _ => false

/-- By the rules of the grammar the tokens, with others behind them, spell the phrase as one of
the category. Whether a negation that is the argument of a function may end between two lists of
tokens is left to a condition. -/
inductive Spells (ends : List Token → List Token → Prop) :
    Category → List Token → List Token → Phrase → Prop
  | within {c d : Category} {ts rest : List Token} {p : Phrase} (h : c.Within d)
    (inner : Spells ends c ts rest p) : Spells ends d ts rest p
  | combine {op : Binary} {t : Token} {ts us rest : List Token} {p q : Phrase}
    (sign : t.kind = .op (.binary op)) (left : Spells ends op.leftCategory ts (t :: us ++ rest) p)
    (right : Spells ends op.rightCategory us rest q) :
    Spells ends op.category (ts ++ t :: us) rest (.combine op p q)
  | multiply {t : Token} {ts us rest : List Token} {p q : Phrase} (start : t.startsOperand = true)
    (left : Spells ends .product ts (t :: us ++ rest) p)
    (right : Spells ends .unary (t :: us) rest q) :
    Spells ends .product (ts ++ t :: us) rest (.combine .mul p q)
  | negate {t : Token} {ts rest : List Token} {p : Phrase} (sign : t.kind = .negation)
    (operand : Spells ends .unary ts rest p) : Spells ends .unary (t :: ts) rest (.negate p)
  | factorial {t : Token} {ts rest : List Token} {p : Phrase} (sign : t.kind = .op .factorial)
    (operand : Spells ends .powerBase ts (t :: rest) p) :
    Spells ends .powerBase (ts ++ [t]) rest (.factorial p)
  | number {t : Token} {z : Number} {rest : List Token} (numeral : t.kind = .numeral z) :
    Spells ends .atom [t] rest (.number z)
  | constant {t : Token} {c : NamedConstant} {rest : List Token} (name : t.kind = .constant c) :
    Spells ends .atom [t] rest (.number c.number)
  | letter {t : Token} {rest : List Token} (name : t.kind = .letter) :
    Spells ends .atom [t] rest (.letter t.spelling)
  | group {t t' : Token} {ts rest : List Token} {p : Phrase} (start : t.kind = .op .opening)
    (inner : Spells ends .equation ts (t' :: rest) p) (stop : t'.kind = .op .closing) :
    Spells ends .atom (t :: ts ++ [t']) rest p
  | apply {f : Func} {t : Token} {ts rest : List Token} {p : Phrase}
    (name : t.kind = .op (.function f)) (argument : Spells ends .atom ts rest p) :
    Spells ends .atom (t :: ts) rest (.apply f p)
  | applyNegation {f : Func} {t t' : Token} {ts rest : List Token} {p : Phrase}
    (name : t.kind = .op (.function f)) (sign : t'.kind = .negation)
    (argument : Spells ends .unary ts rest p) (taken : ends ts rest) :
    Spells ends .atom (t :: t' :: ts) rest (.apply f (.negate p))

/-- The rules of the grammar, with arguments of functions of any length. -/
def Admits (c : Category) (ts : List Token) : Prop :=
  ∃ p, Spells (fun _ _ => True) c ts [] p

/-- The tokens go on as an operand as far as possible: with none of those behind them that follow
directly do they make a longer one. -/
def TakesAll (ts rest : List Token) : Prop :=
  ∀ more after, rest = more ++ after → more ≠ [] → ¬Admits .unary (ts ++ more)

namespace Spells

variable {ends : List Token → List Token → Prop} {c : Category} {t : Token}
  {ts us rest : List Token} {p q : Phrase}

/-- Where arguments may end anywhere, what follows does not matter. -/
theorem anywhere (h : Spells ends c ts rest p) (rest' : List Token) :
    Spells (fun _ _ => True) c ts rest' p := by
  induction h generalizing rest' with
  | within h _ ih => exact .within h (ih _)
  | combine sign _ _ ihl ihr => exact .combine sign (ihl _) (ihr _)
  | multiply start _ _ ihl ihr => exact .multiply start (ihl _) (ihr _)
  | negate sign _ ih => exact .negate sign (ih _)
  | factorial sign _ ih => exact .factorial sign (ih _)
  | number numeral => exact .number numeral
  | constant name => exact .constant name
  | letter name => exact .letter name
  | group start _ stop ih => exact .group start (ih _) stop
  | apply name _ ih => exact .apply name (ih _)
  | applyNegation name sign _ _ ih => exact .applyNegation name sign (ih _) True.intro

theorem admits (h : Spells ends c ts rest p) : Admits c ts := ⟨p, h.anywhere []⟩

theorem unary (h : Spells ends .power ts rest p) : Spells ends .unary ts rest p :=
  .within .power h

theorem base (h : Spells ends .powerBase ts rest p) : Spells ends .unary ts rest p :=
  .unary (.within .powerBase h)

end Spells

/-! ## Parentheses -/

namespace Token

/-- How many parentheses the tokens leave open, if each closing one has an opening one in front
of it. -/
def unclosed? (depth : ℕ) : List Token → Option ℕ
  | [] => some depth
  | t :: ts =>
    match t.kind, depth with
    | .op .closing, 0 => none
    | _, _ => unclosed? (depthAfter depth t) ts

/-- The groups left open are counted token by token. -/
theorem unclosed?_cons {depth : ℕ} {t : Token} {ts : List Token}
    (h : t.kind = .op .closing → depth ≠ 0) :
    unclosed? depth (t :: ts) = unclosed? (depthAfter depth t) ts := by
  rw [unclosed?]
  exact h

/-- And piece by piece. -/
theorem unclosed?_append (depth : ℕ) (ts us : List Token) :
    unclosed? depth (ts ++ us) = (unclosed? depth ts).bind fun d => unclosed? d us := by
  induction ts generalizing depth with
  | nil => rfl
  | cons t ts ih =>
    by_cases stuck : t.kind = .op .closing ∧ depth = 0
    · obtain ⟨kind, rfl⟩ := stuck
      simp [unclosed?, kind]
    · have opened : t.kind = .op .closing → depth ≠ 0 := fun kind zero => stuck ⟨kind, zero⟩
      rw [List.cons_append, unclosed?_cons opened, unclosed?_cons opened, ih]

/-- The token is no parenthesis. -/
def IsFlat (t : Token) : Prop := t.kind ≠ .op .opening ∧ t.kind ≠ .op .closing

/-- Tokens that are no parentheses are not counted. -/
theorem unclosed?_flat {depth : ℕ} {t : Token} {ts : List Token} (h : t.IsFlat) :
    unclosed? depth (t :: ts) = unclosed? depth ts := by
  have same : depthAfter depth t = depth := by
    unfold depthAfter
    split
    next kind => exact absurd kind h.1
    next kind => exact absurd kind h.2
    next => rfl
  rw [unclosed?_cons fun kind => absurd kind h.2, same]

/-- The tokens close the parentheses that they open, and no others. -/
structure Nested (ts : List Token) : Prop where
  closed : ∀ depth, unclosed? depth ts = some depth
  start : ∀ us, us <+: ts → ∃ k, ∀ depth, unclosed? depth us = some (depth + k)

variable {t t' : Token} {ts us : List Token}

/-- Two nested pieces are nested together. -/
theorem Nested.append (hts : Nested ts) (hus : Nested us) : Nested (ts ++ us) where
  closed depth := by rw [unclosed?_append, hts.closed, Option.bind_some, hus.closed]
  start ws h := by
    obtain ⟨vs, split⟩ := h
    rcases List.append_eq_append_iff.mp split with ⟨rest, inside, -⟩ | ⟨rest, rfl, after⟩
    · exact hts.start ws ⟨rest, inside.symm⟩
    · obtain ⟨k, hk⟩ := hus.start rest ⟨vs, after.symm⟩
      refine ⟨k, fun depth => ?_⟩
      rw [unclosed?_append, hts.closed, Option.bind_some, hk]

/-- A token that is no parenthesis is nested. -/
theorem Nested.flat (h : t.IsFlat) : Nested [t] where
  closed depth := by rw [unclosed?_flat h]; rfl
  start us hus := by
    refine ⟨0, fun depth => ?_⟩
    rcases List.prefix_cons_iff.mp hus with rfl | ⟨rest, rfl, nil⟩
    · rfl
    · rw [List.prefix_nil.mp nil, unclosed?_flat h]
      rfl

theorem Nested.cons (h : t.IsFlat) (hts : Nested ts) : Nested (t :: ts) :=
  (Nested.flat h).append hts

/-- Inside a group its parenthesis is open. -/
theorem Nested.inside (start : t.kind = .op .opening) (hts : Nested ts) (hus : us <+: ts) :
    ∃ k, ∀ depth, unclosed? depth (t :: us) = some (depth + 1 + k) := by
  obtain ⟨k, hk⟩ := hts.start us hus
  refine ⟨k, fun depth => ?_⟩
  rw [unclosed?_cons (by simp [start]), depthAfter, start]
  exact hk (depth + 1)

/-- A nested piece in parentheses is nested. -/
theorem Nested.group (start : t.kind = .op .opening) (hts : Nested ts)
    (stop : t'.kind = .op .closing) : Nested (t :: ts ++ [t']) := by
  have closed : ∀ depth, unclosed? depth (t :: ts ++ [t']) = some depth := by
    intro depth
    have opened : unclosed? depth (t :: ts) = some (depth + 1) := by
      rw [unclosed?_cons (by simp [start]), depthAfter, start]
      exact hts.closed (depth + 1)
    rw [unclosed?_append, opened, Option.bind_some, unclosed?_cons (by simp), depthAfter, stop]
    rfl
  refine ⟨closed, fun us hus => ?_⟩
  rcases List.prefix_concat_iff.mp hus with rfl | hus
  · exact ⟨0, closed⟩
  · rcases List.prefix_cons_iff.mp hus with rfl | ⟨rest, rfl, inner⟩
    · exact ⟨0, fun depth => rfl⟩
    · obtain ⟨k, hk⟩ := hts.inside start inner
      exact ⟨1 + k, fun depth => by rw [hk, Nat.add_assoc]⟩

end Token

open Token (Nested)

/-- What the grammar spells is nested. -/
theorem Spells.nested {ends : List Token → List Token → Prop} {c : Category}
    {ts rest : List Token} {p : Phrase} (h : Spells ends c ts rest p) : Nested ts := by
  induction h with
  | within _ _ ih => exact ih
  | combine sign _ _ ihl ihr => exact ihl.append (ihr.cons (by simp [Token.IsFlat, sign]))
  | multiply _ _ _ ihl ihr => exact ihl.append ihr
  | negate sign _ ih => exact ih.cons (by simp [Token.IsFlat, sign])
  | factorial sign _ ih => exact ih.append (.flat (by simp [Token.IsFlat, sign]))
  | number numeral => exact .flat (by simp [Token.IsFlat, numeral])
  | constant name => exact .flat (by simp [Token.IsFlat, name])
  | letter name => exact .flat (by simp [Token.IsFlat, name])
  | group start _ stop ih => exact ih.group start stop
  | apply name _ ih => exact ih.cons (by simp [Token.IsFlat, name])
  | applyNegation name sign _ _ ih =>
    exact (ih.cons (by simp [Token.IsFlat, sign])).cons (by simp [Token.IsFlat, name])

/-! ## How far an operand goes -/

/-- The token goes on with the operand in front of it: a power sign or a factorial. -/
def Token.Extends (t : Token) : Prop := t.kind = .op (.binary .pow) ∨ t.kind = .op .factorial

/-- Nothing follows directly that goes on with an operand. -/
def Stopped (rest : List Token) : Prop := ∀ t ∈ rest.head?, ¬t.Extends

/-- The tokens close what they open, and end an operand. -/
def Token.Completes (ts : List Token) : Prop :=
  unclosed? 0 ts = some 0 ∧ ∃ init last, ts = init ++ [last] ∧ last.endsTerm = true

namespace Token.Completes

variable {t : Token} {ts us : List Token}

theorem ne_nil (h : Completes ts) : ts ≠ [] := by
  obtain ⟨-, init, last, rfl, -⟩ := h
  simp

/-- A token in front that ends no operand may be left out. -/
theorem tail (h : Completes (t :: ts)) (flat : t.IsFlat) (ends : t.endsTerm = false) :
    Completes ts := by
  obtain ⟨closed, init, last, same, complete⟩ := h
  rw [unclosed?_flat flat] at closed
  cases init with
  | nil =>
    obtain ⟨rfl, rfl⟩ := List.cons.inj same
    rw [complete] at ends
    cases ends
  | cons s init =>
    obtain ⟨rfl, rfl⟩ := List.cons.inj same
    exact ⟨closed, init, last, rfl, complete⟩

/-- A nested piece in front may be left out. -/
theorem right (h : Completes (ts ++ us)) (nested : Nested ts) (hus : us ≠ []) : Completes us := by
  obtain ⟨closed, init, last, same, complete⟩ := h
  rw [unclosed?_append, nested.closed, Option.bind_some] at closed
  obtain ⟨init', last', rfl⟩ := (List.eq_nil_or_concat' us).resolve_left hus
  rw [← List.append_assoc] at same
  obtain ⟨-, ⟨⟩⟩ := List.append_inj' same rfl
  exact ⟨closed, init', _, rfl, complete⟩

/-- A single token is no complete operand with something behind it. -/
theorem ne_single {more : List Token} {u : Token} (h : Completes us) : [u] ≠ us ++ t :: more := by
  intro same
  obtain ⟨u', us', rfl⟩ := List.exists_cons_of_ne_nil h.ne_nil
  simp at same

/-- A token in front that ends no operand belongs to the complete operand. -/
theorem behind {more : List Token} {u : Token} (h : Completes us) (same : u :: ts = us ++ t :: more)
    (flat : u.IsFlat) (ends : u.endsTerm = false) :
    ∃ us', ts = us' ++ t :: more ∧ Completes us' := by
  obtain ⟨u', us', rfl⟩ := List.exists_cons_of_ne_nil h.ne_nil
  obtain ⟨rfl, rfl⟩ := List.cons.inj same
  exact ⟨us', rfl, h.tail flat ends⟩

end Token.Completes

/-- Where a list is split that has an element in its middle. -/
theorem split_middle {α : Type} {xs ys us vs : List α} {x v : α}
    (h : xs ++ x :: ys = us ++ v :: vs) :
    (∃ back, xs = us ++ v :: back) ∨ (us = xs ∧ v = x) ∨
      ∃ front, us = xs ++ x :: front ∧ ys = front ++ v :: vs := by
  rcases List.append_eq_append_iff.mp h with ⟨front, rfl, after⟩ | ⟨back, rfl, after⟩
  · cases front with
    | nil =>
      obtain ⟨rfl, -⟩ := List.cons.inj after
      exact .inr (.inl ⟨List.append_nil _, rfl⟩)
    | cons y front =>
      obtain ⟨rfl, rfl⟩ := List.cons.inj after
      exact .inr (.inr ⟨front, rfl, rfl⟩)
  · cases back with
    | nil =>
      obtain ⟨rfl, -⟩ := List.cons.inj after
      exact .inr (.inl ⟨(List.append_nil _).symm, rfl⟩)
    | cons y back =>
      obtain ⟨rfl, -⟩ := List.cons.inj after
      exact .inl ⟨back, rfl⟩

/-- Inside an operand, what follows a complete operand goes on with it. -/
theorem Spells.extends {ends : List Token → List Token → Prop} {c : Category}
    {ts us more rest : List Token} {t : Token} {p : Phrase} (h : Spells ends c ts rest p)
    (hc : c.fits .unary = true) (split : ts = us ++ t :: more) (complete : Token.Completes us) :
    t.Extends := by
  induction h generalizing us more with
  | within h _ ih =>
    refine ih (Category.fits_trans ?_ hc) split complete
    cases h <;> rfl
  | @combine op u ts vs _ _ _ sign hl _ ihl ihr =>
    obtain rfl : op = .pow := by
      cases op <;> first | rfl | exact absurd hc (by decide)
    -- the complete part ends in the base, in front of the sign, or in the exponent
    rcases split_middle split with ⟨back, rfl⟩ | ⟨-, rfl⟩ | ⟨front, rfl, rfl⟩
    · exact ihl rfl rfl complete
    · exact .inl sign
    · have rest := complete.right hl.nested (List.cons_ne_nil u front)
      refine ihr rfl rfl (rest.tail ?_ ?_) <;> simp [Token.IsFlat, Token.endsTerm, sign]
  | multiply => exact absurd hc (by decide)
  | negate sign _ ih =>
    obtain ⟨us, rfl, complete⟩ := complete.behind split (by simp [Token.IsFlat, sign])
      (by simp [Token.endsTerm, sign])
    exact ih rfl rfl complete
  | factorial sign _ ih =>
    rcases split_middle split with ⟨back, rfl⟩ | ⟨-, rfl⟩ | ⟨front, -, nil⟩
    · exact ih rfl rfl complete
    · exact .inr sign
    · simp at nil
  | number => exact absurd split complete.ne_single
  | constant => exact absurd split complete.ne_single
  | letter => exact absurd split complete.ne_single
  | @group u u' ts _ _ start hi stop _ =>
    -- the parenthesis in front is still open behind any of the tokens up to the last
    obtain ⟨v, us, rfl⟩ := List.exists_cons_of_ne_nil complete.ne_nil
    rw [List.cons_append, List.cons_append] at split
    obtain ⟨rfl, same⟩ := List.cons.inj split
    have inner : us <+: ts := by
      rcases split_middle same with ⟨back, rfl⟩ | ⟨rfl, -⟩ | ⟨front, -, nil⟩
      · exact List.prefix_append us _
      · exact List.prefix_rfl
      · simp at nil
    obtain ⟨k, opened⟩ := hi.nested.inside start inner
    have same := (opened 0).symm.trans complete.1
    simp at same
  | apply name _ ih =>
    obtain ⟨us, rfl, complete⟩ := complete.behind split (by simp [Token.IsFlat, name])
      (by simp [Token.endsTerm, name])
    exact ih rfl rfl complete
  | applyNegation name sign _ _ ih =>
    obtain ⟨us, same, complete⟩ := complete.behind split (by simp [Token.IsFlat, name])
      (by simp [Token.endsTerm, name])
    obtain ⟨us, rfl, complete⟩ := complete.behind same (by simp [Token.IsFlat, sign])
      (by simp [Token.endsTerm, sign])
    exact ih rfl rfl complete

/-! ## The two forms of the grammar -/

theorem not_extends_of_starts {t : Token} (h : Derives.Starts t.kind) : ¬t.Extends := by
  rintro (kind | kind) <;> simp [Derives.Starts, kind] at h

/-- A phrase starts with an operand, unless it starts with a sign. -/
theorem startsOperand_of_starts {t : Token} (h : Derives.Starts t.kind)
    (sign : t.kind ≠ .negation) : t.startsOperand = true := by
  unfold Derives.Starts at h
  unfold Token.startsOperand
  split at h <;> simp_all

theorem ne_negation_of_startsOperand {t : Token} (h : t.startsOperand = true) :
    t.kind ≠ .negation := by
  intro kind
  simp [Token.startsOperand, kind] at h

/-- An operand stops in front of a token that does not go on with it. -/
theorem stopped_cons {t : Token} {ts : List Token} (h : ¬t.Extends) : Stopped (t :: ts) := by
  rintro _ ⟨rfl⟩
  exact h

/-- The rules spell what the grammar derives: behind a signed argument nothing may follow that
goes on with it. -/
theorem Derives.spells {ends : List Token → List Token → Prop} {c : Category}
    {ts rest : List Token} {p : Phrase} (h : Derives c ts p)
    (hends : ∀ {ts rest p}, Derives .unary ts p → Stopped rest → ends ts rest)
    (hrest : c.fits .powerBase = true ∨ Stopped rest) :
    (c ≠ .signed → Spells ends c ts rest p) ∧
      (c = .signed → Spells ends .unary ts rest p ∧ ∀ {f : Func} {t : Token},
        t.kind = .op (.function f) → Spells ends .atom (t :: ts) rest (.apply f p)) := by
  induction h generalizing rest with
  | @within c d ts p h _ ih =>
    have before : c.fits .powerBase = true ∨ Stopped rest := by
      rcases hrest with tight | stopped
      · left
        cases h <;> first | rfl | exact absurd tight (by decide)
      · exact .inr stopped
    obtain ⟨plain, signed⟩ := ih before
    refine ⟨fun _ => ?_, fun same => by subst same; cases h⟩
    by_cases hc : c = .signed
    · subst hc
      cases h
      exact (signed rfl).1
    · exact .within h (plain hc)
  | @combine op t ts us p q sign _ _ ihl ihr =>
    have stopped : Stopped rest := by
      rcases hrest with tight | stopped
      · cases op <;> exact absurd tight (by decide)
      · exact stopped
    have left : op.leftCategory.fits .powerBase = true ∨ Stopped (t :: us ++ rest) := by
      by_cases hop : op = .pow
      · subst hop
        exact .inl rfl
      · exact .inr (stopped_cons (by simp [Token.Extends, sign, hop]))
    have plain : op.leftCategory ≠ .signed ∧ op.rightCategory ≠ .signed ∧
        op.category ≠ .signed := by
      cases op <;> decide
    exact ⟨fun _ => .combine sign ((ihl left).1 plain.1) ((ihr (.inr stopped)).1 plain.2.1),
      fun same => absurd same plain.2.2⟩
  | @multiply t ts us p q start _ hr ihl ihr =>
    have stopped : Stopped rest := hrest.resolve_left (by decide)
    obtain ⟨_, _, ⟨rfl, rfl⟩, starts⟩ := hr.starts
    have left : Stopped (t :: us ++ rest) := stopped_cons (not_extends_of_starts starts)
    exact ⟨fun _ => .multiply (startsOperand_of_starts starts start)
      ((ihl (.inr left)).1 (by decide)) ((ihr (.inr stopped)).1 (by decide)),
      fun same => absurd same (by decide)⟩
  | @negate t ts p sign operand ih =>
    -- a negation is an operand by itself, and behind a function its argument
    have stopped : Stopped rest := hrest.resolve_left (by decide)
    have spelled := (ih (.inr stopped)).1 (by decide)
    exact ⟨fun plain => absurd rfl plain, fun _ => ⟨.negate sign spelled, fun name =>
      .applyNegation name sign spelled (hends operand stopped)⟩⟩
  | applySigned name _ ih =>
    have argument := ((ih hrest).2 rfl).2 name
    exact ⟨fun plain => absurd rfl plain, fun _ => ⟨.base (.within .atom argument), fun outer =>
      .apply outer argument⟩⟩
  | factorial sign _ ih =>
    exact ⟨fun _ => .factorial sign ((ih (.inl rfl)).1 (by decide)),
      fun same => absurd same (by decide)⟩
  | number numeral => exact ⟨fun _ => .number numeral, fun same => absurd same (by decide)⟩
  | constant name => exact ⟨fun _ => .constant name, fun same => absurd same (by decide)⟩
  | letter name => exact ⟨fun _ => .letter name, fun same => absurd same (by decide)⟩
  | @group t t' ts p start _ stop ih =>
    have stopped : Stopped (t' :: rest) := stopped_cons (by simp [Token.Extends, stop])
    exact ⟨fun _ => .group start ((ih (.inr stopped)).1 (by decide)) stop,
      fun same => absurd same (by decide)⟩
  | apply name _ ih =>
    exact ⟨fun _ => .apply name ((ih (.inl rfl)).1 (by decide)),
      fun same => absurd same (by decide)⟩

/-- An operand goes on as far as possible where nothing behind it goes on with it. -/
theorem Derives.takesAll {ts rest : List Token} {p : Phrase} (h : Derives .unary ts p)
    (stopped : Stopped rest) : TakesAll ts rest := by
  rintro more after rfl ne ⟨q, longer⟩
  obtain ⟨t, more, rfl⟩ := List.exists_cons_of_ne_nil ne
  have spelled : Spells (fun _ _ => True) .unary ts [] p :=
    (h.spells (fun _ _ => True.intro) (.inr (by rintro _ ⟨⟩))).1 (by decide)
  have complete : Token.Completes ts := ⟨spelled.nested.closed 0, h.endsTerm⟩
  exact stopped t rfl (longer.extends rfl rfl complete)

/-- What goes on with a base goes on with the operand that it ends. -/
theorem Spells.admits_append {c : Category} {more ts rest : List Token} {p : Phrase}
    (h : Spells (fun _ _ => True) c ts rest p) (hc : c.fits .unary = true)
    (base : ∀ us, Admits .powerBase us → Admits .unary (us ++ more)) :
    Admits .unary (ts ++ more) := by
  have atom : ∀ {us q} (rest : List Token), Spells (fun _ _ => True) .atom us rest q →
      Admits .unary (us ++ more) := fun _ h => base _ (Spells.within .atom h).admits
  induction h with
  | within h _ ih =>
    refine ih (Category.fits_trans ?_ hc)
    cases h <;> rfl
  | @combine op t ts us rest _ _ sign left _ _ ihr =>
    obtain rfl : op = .pow := by
      cases op <;> first | rfl | exact absurd hc (by decide)
    obtain ⟨q, right⟩ := ihr rfl
    rw [List.append_assoc]
    exact ⟨_, .unary (.combine sign (left.anywhere _) right)⟩
  | multiply => exact absurd hc (by decide)
  | negate sign _ ih =>
    obtain ⟨q, operand⟩ := ih rfl
    exact ⟨_, .negate sign operand⟩
  | factorial sign operand => exact base _ (Spells.factorial sign operand).admits
  | number numeral => exact atom [] (.number numeral)
  | constant name => exact atom [] (.constant name)
  | letter name => exact atom [] (.letter name)
  | group start inner stop => exact atom _ (.group start inner stop)
  | apply name argument => exact atom _ (.apply name argument)
  | applyNegation name sign argument taken => exact atom _ (.applyNegation name sign argument taken)

/-- The factorial of an operand is one. -/
theorem Admits.factorial {t : Token} {ts : List Token} (sign : t.kind = .op .factorial)
    (h : Admits .unary ts) : Admits .unary (ts ++ [t]) := by
  obtain ⟨p, h⟩ := h
  refine h.admits_append rfl fun us base => ?_
  obtain ⟨p, base⟩ := base
  exact ⟨_, .base (.factorial sign (base.anywhere _))⟩

/-- The power of two operands is one. -/
theorem Admits.pow {t : Token} {ts us : List Token} (sign : t.kind = .op (.binary .pow))
    (h : Admits .unary ts) (exponent : Admits .unary us) : Admits .unary (ts ++ t :: us) := by
  obtain ⟨p, h⟩ := h
  obtain ⟨q, exponent⟩ := exponent
  refine h.admits_append rfl fun us base => ?_
  obtain ⟨p, base⟩ := base
  exact ⟨_, .unary (.combine sign (base.anywhere _) exponent)⟩

/-- The grammar derives what the rules spell, if a negation that is an argument goes on as far as
possible. A base that ends in such an argument is one of the signed operands. -/
theorem Spells.derives {c : Category} {ts rest : List Token} {p : Phrase}
    (h : Spells TakesAll c ts rest p) :
    Derives c ts p ∨ Derives .signed ts p ∧ (c = .power ∨ c.fits .powerBase = true ∧
      ∃ init us, ts = init ++ us ∧ Admits .unary us ∧ TakesAll us rest) := by
  -- only powers and their bases end in an argument
  have loose : ∀ {c ts q} {P : Prop}, (Derives c ts q ∨ Derives .signed ts q ∧
      (c = .power ∨ c.fits .powerBase = true ∧ P)) → c ≠ .power → c.fits .powerBase = false →
      Derives c ts q := by
    rintro c ts q P (derived | ⟨-, rfl | ⟨tight, -⟩⟩) power base
    · exact derived
    · exact absurd rfl power
    · exact absurd tight (by simp [base])
  induction h with
  | @within c d ts rest p h _ ih =>
    rcases ih with derived | ⟨signed, last⟩
    · exact .inl (.within h derived)
    · cases h with
      | power => exact .inl (.within .signed signed)
      | powerBase => exact .inr ⟨signed, .inl rfl⟩
      | atom => exact .inr ⟨signed, .inr ⟨rfl, (last.resolve_left (by decide)).2⟩⟩
      | _ => simp [Category.fits] at last
  | @combine op t ts us rest p q sign _ hr ihl ihr =>
    have right : Derives op.rightCategory us q := by
      refine loose ihr ?_ ?_ <;> cases op <;> decide
    refine .inl (.combine sign ?_ right)
    by_cases hop : op = .pow
    · subst hop
      rcases ihl with derived | ⟨-, last⟩
      · exact derived
      · -- an argument at the end of the base would have taken the exponent too
        obtain ⟨-, init, us', -, operand, taken⟩ := last.resolve_left (by decide)
        exact absurd (operand.pow sign hr.admits) (taken (t :: us) rest rfl (List.cons_ne_nil t us))
    · refine loose ihl ?_ ?_ <;> cases op <;> first | decide | exact absurd rfl hop
  | multiply start _ _ ihl ihr =>
    exact .inl (.multiply (ne_negation_of_startsOperand start) (loose ihl (by decide) rfl)
      (loose ihr (by decide) rfl))
  | negate sign _ ih => exact .inl (.within .signed (.negate sign (loose ih (by decide) rfl)))
  | @factorial t ts rest p sign _ ih =>
    rcases ih with derived | ⟨-, last⟩
    · exact .inl (.factorial sign derived)
    · obtain ⟨-, init, us, -, operand, taken⟩ := last.resolve_left (by decide)
      exact absurd (operand.factorial sign) (taken [t] rest rfl (List.cons_ne_nil t []))
  | number numeral => exact .inl (.number numeral)
  | constant name => exact .inl (.constant name)
  | letter name => exact .inl (.letter name)
  | group start _ stop ih => exact .inl (.group start (loose ih (by decide) rfl) stop)
  | @apply f t ts rest p name _ ih =>
    rcases ih with derived | ⟨signed, last⟩
    · exact .inl (.apply name derived)
    · obtain ⟨-, init, us, rfl, operand, taken⟩ := last.resolve_left (by decide)
      exact .inr ⟨.applySigned name signed, .inr ⟨rfl, t :: init, us, rfl, operand, taken⟩⟩
  | @applyNegation f t t' ts rest p name sign argument taken ih =>
    have derived := loose ih (by decide) rfl
    exact .inr ⟨.applySigned name (.negate sign derived),
      .inr ⟨rfl, [t, t'], ts, rfl, argument.admits, taken⟩⟩

/-- The rules spell the equations that the grammar derives, and no others. -/
theorem spells_iff {ts : List Token} {p : Phrase} :
    Spells TakesAll .equation ts [] p ↔ Derives .equation ts p := by
  constructor
  · intro h
    rcases h.derives with derived | ⟨-, last⟩
    · exact derived
    · simp [Category.fits] at last
  · intro h
    exact (h.spells Derives.takesAll (.inr (by rintro _ ⟨⟩))).1 (by decide)

end SymbolicAlgebra
