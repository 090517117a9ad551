import SymbolicAlgebra.Expr.Read
import SymbolicAlgebra.Proofs.Combine.Sound
import SymbolicAlgebra.Proofs.Parse.Words

/-!
# Reading keeps the meaning

A phrase means what it spells (`Phrase.expr`), and the expression that is made of it while it
is read means the same (`Expr.build_exactly`), unless a coefficient stops being exact. Where
functions vanish with their inverses, this needs that they undo them.

`Spells` combines this with the judgement `Token.Reads`: a piece of text is read as a phrase
that means an element of the field.
-/

namespace SymbolicAlgebra

/-- What the phrase spells, as it stands. A minus sign is a product by minus one. -/
def Phrase.expr : Phrase → Expr
  | number z => .number z
  | letter name => .ofName name
  | negate p => .binary .mul .negOne p.expr
  | combine op p q => .binary op p.expr q.expr
  | factorial p => .factorial p.expr
  | apply f p => .apply f p.expr

variable {K : Type} [Field K] [Coefficients K] {I : Interpretation K} {σ : String → K} {v : K}

/-- Every function undoes its inverse. -/
def Interpretation.Inverts (I : Interpretation K) : Prop :=
  ∀ {f g : Func} {a b c : K}, f.inverse? = some g → I.function g a = some b →
    I.function f b = some c → c = a

namespace Expr

variable [Tolerance]

/-- A function applied to a tree means the function of it, also where it cancels with its inverse.
-/
theorem applyFunction_combined {peephole : Bool} {f : Func} {t : Expr} {a : K}
    (hI : peephole = true → I.Inverts) (ht : Combined I σ a t) (value : I.function f a = some v) :
    Combined I σ v (applyFunction peephole f t) := by
  refine applyFunction_of ⟨.apply ht.means value, True.intro, ht.flat, nofun, nofun⟩ ?_
  rintro peephole g l u rfl inverse
  cases ht.means with
  | apply argument inner =>
    rw [hI peephole inverse inner value]
    exact ⟨argument, ht.flat.2.1⟩

omit [Tolerance] in
/-- An exponent is an integer, and spelled as a number. -/
theorem means_pow {p q : Phrase} (hv : MeansStrictly I σ (binary .pow p.expr q.expr) v) :
    ∃ z a, ∃ n : ℤ, q = .number z ∧ MeansStrictly I σ p.expr a ∧ z.Is n ∧ (a ≠ 0 ∨ 0 ≤ n) ∧
      v = a ^ n := by
  generalize exponent : q.expr = r at hv
  cases hv with
  | @pow _ z a n base hz defined =>
    cases q with
    | number =>
      cases exponent
      exact ⟨z, a, n, rfl, base, hz, defined, rfl⟩
    | _ => cases exponent

/-- What is made of a phrase means what the phrase does. -/
theorem build_exactly {peephole : Bool} (hI : peephole = true → I.Inverts) (p : Phrase)
    (hv : MeansStrictly I σ p.expr v) :
    Exactly (fun _ => p.build (builder peephole)) (Combined I σ v) := by
  induction p generalizing v with
  | number z => exact Exactly.pure ⟨hv, True.intro⟩
  | letter name => exact Exactly.pure ⟨hv, True.intro⟩
  | negate p ih =>
    cases hv with
    | mul one operand =>
      rw [one.unique means_negOne, neg_one_mul]
      exact Exactly.bind (ih operand) fun t ht => negate_exactly ht
  | combine op p q ihp ihq =>
    by_cases hop : op = .pow
    · subst hop
      obtain ⟨z, a, n, rfl, base, exponent, defined, rfl⟩ := means_pow hv
      refine Exactly.bind (ihp base) fun l hl => ?_
      exact combine_exactly (r := number z) hl.flat True.intro (.pow hl.means exponent defined)
    · obtain ⟨a, b, hl, hr, hb, rfl⟩ := (MeansFrom.binary_iff hop).mp hv
      refine Exactly.bind (ihp hl) fun l hl => ?_
      refine Exactly.bind (ihq hr) fun r hr => ?_
      have node := (MeansFrom.binary_iff hop).mpr ⟨a, b, hl.means, hr.means, hb, rfl⟩
      exact combine_exactly hl.flat hr.flat node
  | factorial p ih =>
    cases hv with
    | factorial argument value =>
      refine Exactly.bind (ih argument) fun t ht => Exactly.pure ?_
      exact ⟨.factorial ht.means value, ht.flat, True.intro, nofun, nofun⟩
  | apply f p ih =>
    cases hv with
    | apply argument value =>
      refine Exactly.bind (ih argument) fun t ht => Exactly.pure ?_
      exact applyFunction_combined hI ht value

end Expr

/-! ## Phrases that mean something -/

namespace Phrase

/-- The phrase means this element of the field. -/
def Means (I : Interpretation K) (σ : String → K) (v : K) (p : Phrase) : Prop :=
  MeansStrictly I σ p.expr v

variable {p q : Phrase} {a b : K} {op : Binary}

/-- An operator means what it makes of its operands. -/
theorem means_binary (hop : op ≠ .pow) (hp : p.Means I σ a) (hq : q.Means I σ b)
    (hb : op = .div → b ≠ 0) : (combine op p q).Means I σ (op.value a b) :=
  (MeansFrom.binary_iff hop).mpr ⟨a, b, hp, hq, hb, rfl⟩

theorem of_means_binary (hop : op ≠ .pow) (h : (combine op p q).Means I σ v) :
    ∃ a b, p.Means I σ a ∧ q.Means I σ b ∧ (op = .div → b ≠ 0) ∧ v = op.value a b :=
  (MeansFrom.binary_iff hop).mp h

theorem means_negate (hp : p.Means I σ a) : (negate p).Means I σ (-a) := by
  rw [← neg_one_mul]
  exact .mul Expr.means_negOne hp

end Phrase

namespace Derives

variable {t : Token} {ts us : List Token} {p q : Phrase} {a b : K} {op : Binary}

/-- A chain behind a sign that turns nothing continues the chain before it. -/
theorem prepend {level : Level} (hop : op.level = some level) (turns : op.isInverted = false)
    (sign : t.kind = .op (.binary op)) (left : Derives op.category ts p)
    (hp : p.Means I σ a) (right : Derives op.category us q) (hq : q.Means I σ b) :
    ∃ r, Derives op.category (ts ++ t :: us) r ∧ r.Means I σ (op.value a b) := by
  have chain : op.leftCategory = op.category := by
    cases op <;> first | rfl | cases hop
  have plain : op ≠ .div := by
    rintro rfl
    cases turns
  generalize category : op.category = d at right
  induction right generalizing b with
  | @within c d us q h inner =>
    -- the chain is one operand
    have operand : c = op.rightCategory := by
      cases op <;> cases hop <;> cases turns <;> cases category <;> cases h <;> rfl
    subst operand category
    exact ⟨_, .combine sign (chain ▸ left) inner,
      Phrase.means_binary (Binary.ne_pow_of_level hop) hp hq fun h => absurd h plain⟩
  | @combine op' t' us vs q q' sign' _ right ih =>
    obtain ⟨inner, chain'⟩ : op'.level = some level ∧ op'.leftCategory = op'.category := by
      cases op <;> cases hop <;> cases op' <;> cases category <;> exact ⟨rfl, rfl⟩
    obtain ⟨b, b', hl, hr, hb, rfl⟩ :=
      Phrase.of_means_binary (Binary.ne_pow_of_level inner) hq
    obtain ⟨r, derives, hr'⟩ := ih hl (category.trans chain'.symm)
    refine ⟨.combine op' r q', ?_, ?_⟩
    · rw [← List.cons_append, ← List.append_assoc]
      exact .combine sign' derives right
    · have second : op.second op' = op' := by
        rw [Binary.second, turns]
        rfl
      rw [Binary.value_reassociate hop inner, second]
      exact Phrase.means_binary (Binary.ne_pow_of_level inner) hr' hr hb
  | @multiply t' us vs q q' start _ right ih =>
    obtain rfl : op = .mul := by
      cases op <;> cases category <;> first | rfl | cases turns
    obtain ⟨b, b', hl, hr, -, rfl⟩ := Phrase.of_means_binary (by decide) hq
    obtain ⟨r, derives, hr'⟩ := ih hl rfl
    refine ⟨.combine .mul r q', ?_, ?_⟩
    · rw [← List.cons_append, ← List.append_assoc]
      exact .multiply start derives right
    · rw [Binary.value_reassociate hop hop]
      exact Phrase.means_binary (by decide) hr' hr fun h => absurd h (by decide)
  | _ => cases op <;> cases hop <;> cases category

/-- A minus sign before a product is one before its first factor. -/
theorem negated (sign : t.kind = .negation) (h : Derives .product ts p) (hp : p.Means I σ a) :
    ∃ r, Derives .product (t :: ts) r ∧ r.Means I σ (-a) := by
  generalize category : Category.product = d at h
  induction h generalizing a with
  | @within c d us q h inner =>
    subst category
    cases h
    exact ⟨_, .within .unary (.within .signed (.negate sign inner)), Phrase.means_negate hp⟩
  | @combine op t' us vs q q' sign' _ right ih =>
    obtain ⟨factors, chain⟩ : (op = .mul ∨ op = .div) ∧ op.leftCategory = .product := by
      cases op <;> cases category <;> simp [Binary.leftCategory, Binary.category]
    have hop : op ≠ .pow := by
      rintro rfl
      cases category
    obtain ⟨b, b', hl, hr, hb, rfl⟩ := Phrase.of_means_binary hop hp
    obtain ⟨r, derives, hr'⟩ := ih hl chain.symm
    have value : -op.value b b' = op.value (-b) b' := by
      rcases factors with rfl | rfl
      · exact (neg_mul b b').symm
      · exact (neg_div b' b).symm
    rw [value]
    exact ⟨.combine op r q', .combine sign' derives right, Phrase.means_binary hop hr' hr hb⟩
  | @multiply t' us vs q q' start _ right ih =>
    obtain ⟨b, b', hl, hr, -, rfl⟩ := Phrase.of_means_binary (by decide) hp
    obtain ⟨r, derives, hr'⟩ := ih hl rfl
    have value : -Binary.mul.value b b' = Binary.mul.value (-b) b' := (neg_mul b b').symm
    rw [value]
    exact ⟨.combine .mul r q', .multiply start derives right,
      Phrase.means_binary (by decide) hr' hr fun h => absurd h (by decide)⟩
  | _ => cases category

end Derives

/-! ## Pieces of text that mean something -/

namespace Token.Reads

variable {reading : Reading} {allowed : Option (List String)} {before : List Token → Prop}
  {after : List Char → Prop} {c : Char} {s s' : List Char} {op : Binary} {a b : K}

/-- An operator between two operands. -/
theorem means_binary (sign : signOp? c = some (.binary op)) (hop : op ≠ .pow)
    (left : Reads reading allowed before Stops op.leftCategory s (Phrase.Means I σ a))
    (right : Reads reading allowed Awaits after op.rightCategory s' (Phrase.Means I σ b))
    (hb : op = .div → b ≠ 0) :
    Reads reading allowed before after op.category (s ++ c :: s')
      (Phrase.Means I σ (op.value a b)) :=
  left.combine sign right fun hp hq => Phrase.means_binary hop hp hq hb

/-- A power with an integer for an exponent. -/
theorem means_pow {z : Number} {n : ℤ}
    (left : Reads reading allowed before Stops .powerBase s (Phrase.Means I σ a))
    (right : Reads reading allowed Awaits after .unary s' (· = .number z)) (hz : z.Is n)
    (defined : a ≠ 0 ∨ 0 ≤ n) :
    Reads reading allowed before after .power (s ++ '^' :: s') (Phrase.Means I σ (a ^ n)) := by
  have sign : signOp? '^' = some (.binary .pow) := by decide
  refine combine sign left right ?_
  rintro p _ hp rfl
  exact .pow hp hz defined

/-- A chain behind a sign that turns nothing. -/
theorem means_prepend {level : Level} (sign : signOp? c = some (.binary op))
    (hop : op.level = some level) (turns : op.isInverted = false)
    (left : Reads reading allowed before Stops op.category s (Phrase.Means I σ a))
    (right : Reads reading allowed Awaits after op.category s' (Phrase.Means I σ b)) :
    Reads reading allowed before after op.category (s ++ c :: s')
      (Phrase.Means I σ (op.value a b)) :=
  left.sign sign right fun kind hl hp hr hq => hl.prepend hop turns kind hp hr hq

/-- A minus sign before a product that starts with no numeral. -/
theorem means_minus (numeral : isNumeralChar c = false)
    (h : Reads reading allowed Awaits after .product (c :: s) (Phrase.Means I σ a)) :
    Reads reading allowed Awaits after .product ('-' :: c :: s) (Phrase.Means I σ (-a)) :=
  h.minus numeral fun kind derives hp => derives.negated kind hp

/-- A function of what starts with a parenthesis. -/
theorem means_apply {f : Func} (value : I.function f a = some b)
    (h : Reads reading allowed Anything after .atom ('(' :: s) (Phrase.Means I σ a)) :
    Reads reading allowed Plain after .atom (f.symbol.toList ++ '(' :: s)
      (Phrase.Means I σ b) :=
  h.apply f fun hp => .apply hp value

theorem means_factorial (value : I.factorial a = some b)
    (h : Reads reading allowed before Stops .powerBase s (Phrase.Means I σ a)) :
    Reads reading allowed before Anything .powerBase (s ++ ['!']) (Phrase.Means I σ b) :=
  h.factorial fun hp => .factorial hp value

end Token.Reads

end SymbolicAlgebra
