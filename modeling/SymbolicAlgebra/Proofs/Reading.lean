import SymbolicAlgebra.Expr.Read
import SymbolicAlgebra.Proofs.Combine.Shape
import SymbolicAlgebra.Proofs.Parse.Outcomes
import SymbolicAlgebra.Proofs.Parse.Words

/-!
# Trees that are read

What holds of every leaf, and of what the builder makes of trees of which it holds, holds of
every tree that is read (`Parser.parse_returns`).

Expressions that are read have the shape of combined trees, and no monomial in them has
power zero. This includes trees that a function was taken off again together with its
inverse, which are parts of trees with that shape. Their variables are letters that stand for
nothing else, and that are allowed; and if all that are found in a text are allowed, the text
is read in the same way whatever else is (`Token.tokenize_allowed`).
-/

namespace SymbolicAlgebra

/-! ## Letters -/

namespace Token

variable {reading : Reading} {allowed : Option (List String)} {read ts : List Token}
  {pos depth : ℕ} {c : Char} {s rest : List Char} {t new : Token} {before : Bool}

theorem nextNumeral_names (N : String → Prop) :
    Returns (nextNumeral reading pos s) (Names N) :=
  Returns.after fun _ => Returns.pure nofun

/-- A minus sign is no name, whichever minus it is. -/
theorem nextMinus_names (N : String → Prop) : Returns (nextMinus reading pos s) (Names N) := by
  unfold nextMinus
  dsimp only
  split
  · exact Returns.pure nofun
  · exact Returns.after fun _ => Returns.pure nofun

/-- The letters of a text without blanks stand for variables. -/
theorem next_names (blank : Text.isBlank c = false) :
    Returns (next reading allowed before pos depth c rest) (Names (IsVariable allowed)) := by
  unfold next
  split
  · exact nextMinus_names _
  split
  · exact nextNumeral_names _
  next numeral =>
    split
    · split
      · exact Returns.throw _
      · exact Returns.pure nofun
    next sign =>
      split
      next letter =>
        unfold nextWord
        split
        · exact Returns.pure nofun
        · split
          · exact Returns.pure nofun
          next constant =>
            split
            next isAllowed =>
              exact Returns.pure fun _ => ⟨c, rfl, blank, Bool.eq_false_iff.mpr numeral, sign,
                letter, constant, isAllowed⟩
            next => exact Returns.throw _
      next => exact Returns.throw _

/-- A token that is pushed joins the others, or goes away with the one before it. -/
theorem forall_mem_push {P : Token → Prop} {peephole : Bool} (hnew : P new)
    (hread : ∀ t ∈ read, P t) : ∀ t ∈ push peephole new read, P t := by
  cases read with
  | nil => exact List.forall_mem_cons.mpr ⟨hnew, hread⟩
  | cons last read =>
    rw [push]
    split
    · exact (List.forall_mem_cons.mp hread).2
    · exact List.forall_mem_cons.mpr ⟨hnew, hread⟩

/-- What holds of every token that is found at the characters of a text holds of its tokens. -/
theorem scan_forall {C : Char → Prop} {P : Token → Prop}
    (found : ∀ {before pos depth c rest}, C c →
      Returns (next reading allowed before pos depth c rest) P)
    (hread : ∀ t ∈ read, P t) (chars : ∀ c ∈ s, C c) :
    Returns (scan reading allowed read pos depth s) (∀ t ∈ ·, P t) := by
  -- the text gets shorter with every token
  induction h : s.length using Nat.strong_induction_on generalizing s read pos depth with
  | _ n ih =>
    cases s with
    | nil =>
      rw [scan]
      exact Returns.pure fun t ht => hread t (List.mem_reverse.mp ht)
    | cons c rest =>
      rw [List.forall_mem_cons] at chars
      rw [scan]
      refine Returns.bind (found chars.1) fun t ht => ?_
      refine ih _ ?_ (forall_mem_push ht hread) (fun c hc => chars.2 c (List.mem_of_mem_drop hc)) rfl
      rw [← h, List.length_drop, List.length_cons]
      omega

/-- The names among the tokens of a text are variables. -/
theorem tokenize_names (text : String) : Returns (tokenize reading allowed text)
    (∀ t ∈ ·, t.Names (IsVariable allowed)) := by
  refine scan_forall next_names (List.forall_mem_nil _) fun c hc => ?_
  have kept := (List.mem_filter.mp hc).2
  rwa [Bool.not_eq_true'] at kept

/-- A text whose letters are all allowed has the same tokens whatever else is allowed. -/
theorem tokenize_allowed {names : List String} (h : ∀ x ∈ names, isAllowed allowed x = true)
    {text : String} : Returns (tokenize reading (some names) text)
      fun ts => tokenize reading allowed text = .ok ts := by
  have word : ∀ {pos c rest}, Returns (nextWord (some names) pos c rest)
      fun t => nextWord allowed pos c rest = .ok t := by
    intro pos c rest t
    unfold nextWord
    split
    · exact id
    · split
      · exact id
      · split
        next isAllowed =>
          intro ht
          rw [if_pos (h _ (List.contains_iff_mem.mp isAllowed))]
          exact ht
        next => nofun
  have token : ∀ {before pos depth c rest}, Returns (next reading (some names) before pos depth c rest)
      fun t => next reading allowed before pos depth c rest = .ok t := by
    intro before pos depth c rest t
    unfold next
    split
    · exact id
    split
    · exact id
    split
    · exact id
    split
    · exact word t
    · exact id
  have tokens : ∀ (n : ℕ) {read pos depth s}, s.length = n →
      Returns (scan reading (some names) read pos depth s)
        fun ts => scan reading allowed read pos depth s = .ok ts := by
    intro n
    induction n using Nat.strong_induction_on with
    | _ n ih =>
      intro read pos depth s hs
      cases s with
      | nil =>
        rw [scan, scan]
        exact fun _ => id
      | cons c rest =>
        rw [scan, scan]
        refine Returns.bind token fun t ht => ?_
        rw [ht]
        refine ih _ ?_ rfl
        rw [← hs, List.length_drop, List.length_cons]
        omega
  exact tokens _ rfl

end Token

/-! ## Trees -/

variable {α : Type}

/-- A property of trees that the builder keeps, if letters have a property of names. -/
structure Builder.Keeps (b : Builder α) (N : String → Prop) (P : α → Prop) : Prop where
  number (z : Number) : P (b.number z)
  letter {name : String} : N name → P (b.letter name)
  negate {t : α} : P t → Returns (b.negate t) P
  combine {op : Binary} {l r : α} : P l → P r → Returns (b.combine op l r) P
  factorial {t : α} : P t → Returns (b.factorial t) P
  apply {f : Func} {t : α} : P t → Returns (b.apply f t) P

/-- What a builder keeps, it is confined to, however it fails. -/
theorem Builder.Keeps.confined {b : Builder α} {N : String → Prop} {P : α → Prop}
    (h : b.Keeps N P) : b.Confined N (fun _ => True) (fun _ => True) P where
  malformed _ := True.intro
  product := True.intro
  number := h.number
  letter := h.letter
  negate ht := .of_returns (h.negate ht)
  combine _ hl hr := .of_returns (h.combine hl hr)
  factorial ht := .of_returns (h.factorial ht)
  apply ht := .of_returns (h.apply ht)

theorem Parser.parseTokens_returns {b : Builder α} {N : String → Prop} {P : α → Prop}
    {tokens : List Token} (hb : b.Keeps N P) (ht : ∀ t ∈ tokens, t.Names N) :
    Returns (parseTokens b tokens) P :=
  (parseTokens_ends hb.confined ht (fun _ _ _ _ => True.intro) (.inl True.intro)).returns

/-- What the builder keeps holds of every tree that is read. -/
theorem Parser.parse_returns {b : Builder α} {P : α → Prop} {allowed : Option (List String)}
    (hb : b.Keeps (Token.IsVariable allowed) P) (reading : Reading) (text : String) :
    Returns (parse b reading allowed text) P :=
  Returns.bind (Token.tokenize_names text) fun _ ht => parseTokens_returns hb ht

namespace Expr

variable [Tolerance]

/-- The builder of expressions keeps the shape of combined trees. -/
theorem builder_keeps {N : String → Prop} {A : Leaf → Prop} (hA : Leaf.Closed A)
    (hN : ∀ x, N x → A (.ofName x)) (peephole : Bool) :
    (builder peephole).Keeps N (Shaped A) where
  number z := hA.number z
  letter h := hN _ h
  negate ht := negate_shaped hA ht
  combine hl hr := combine_shaped hA hl hr
  factorial ht := Returns.pure ⟨ht, True.intro, nofun, nofun⟩
  apply ht := Returns.pure (applyFunction_of ⟨True.intro, ht, nofun, nofun⟩
    (by rintro - _ _ _ rfl -; exact ht.2.1))

/-- Trees that are read have the shape of combined trees, and no monomial in them has power
zero. -/
theorem parse_shaped (reading : Reading) (allowed : Option (List String)) (text : String) :
    Returns (parse reading allowed text) (Shaped Leaf.HasPower) :=
  Parser.parse_returns (builder_keeps Leaf.closed_hasPower (fun _ _ => rfl) _) reading text

/-- The variables of a tree that is read are letters that stand for nothing else. -/
theorem parse_names (reading : Reading) (allowed : Option (List String)) (text : String) :
    Returns (parse reading allowed text) fun t => ∀ x ∈ t.names, Token.IsVariable allowed x :=
  have letter : ∀ x, Token.IsVariable allowed x →
      ∀ y ∈ (Leaf.ofName x).names, Token.IsVariable allowed y :=
    fun _ h => List.forall_mem_singleton.mpr h
  (Parser.parse_returns (builder_keeps (Leaf.closed_names _) letter _) reading text).mono
    fun _ h => h.names

end Expr

end SymbolicAlgebra
