import SymbolicAlgebra.Proofs.Display.Leaves
import SymbolicAlgebra.Proofs.Eval
import SymbolicAlgebra.Proofs.Reading

/-!
# Texts of expressions read back

-/

namespace SymbolicAlgebra

namespace Expr

/-- Whether the outermost operator is an equation. -/
def isEquation : Expr → Bool
  | binary .equals _ _ => true
  | _ => false

variable [Tolerance]

/-- The text of the expression shows how it was put together. -/
def Legible (layout : Layout) : Expr → Prop
  | node (.binary op) l r => l.Legible layout ∧ r.Legible layout ∧
    (op = .equals → r.isEquation = false) ∧ ∀ s, r.text layout = .ok s →
      (op = .div → ¬Joined s) ∧
      (op = .mul → l.isNegOne = .ok true → Token.EndsNumeral
        (Text.squeeze (wrap (r.prec s < 2 || startsNegative s) s).toList))
  | node .factorial t _ => t.Legible layout
  | node (.function _) _ t => t.Legible layout
  | _ => True

end Expr

namespace Token

variable {reading : Reading} {allowed : Option (List String)} {s : List Char}
  {d : Category} {P : Phrase → Prop}

/-- A text that is read is not empty. -/
theorem Reads.ne_nil (h : Reads reading allowed Awaits Stops d s P) : s ≠ [] := by
  rintro rfl
  obtain ⟨ts, p, derives, -, scans⟩ := h [] 0 0 [] ⟨nofun, rfl⟩ nofun
  obtain ⟨t, us, rfl, -⟩ := derives.starts
  rw [List.nil_append, List.append_nil, scan, scan, List.reverse_reverse] at scans
  cases scans

/-- A text in parentheses, if it needs them. -/
theorem reads_wrap {needed : Bool} {m n : ℕ} {s : String}
    (h : Reads reading allowed Awaits Stops (.ofPrec n) (Text.squeeze s.toList) P)
    (hm : m ≤ 9) (hn : needed = false → m ≤ n) :
    Reads reading allowed Awaits Stops (.ofPrec m) (Text.squeeze (Expr.wrap needed s).toList) P := by
  cases needed with
  | false => exact h.loosen (hn rfl)
  | true =>
    have group := (h.loosen (Nat.zero_le n)).group
    rw [Expr.wrap, if_pos rfl, Text.squeeze_parenthesized]
    exact (group.mono (fun _ _ => True.intro) fun _ _ => True.intro).loosen (n := 9) hm

end Token

namespace Expr

variable [Tolerance] {reading : Reading} {allowed : Option (List String)} {layout : Layout}
  {I : Interpretation GaussianRat} {σ : String → GaussianRat} {l r t : Expr} {a b v : GaussianRat}
  {op : Binary}

/-- The expression has a text, which is read as a phrase that means this element; and how
tightly it binds is told right, but for words of several letters. -/
def ReadsBack (reading : Reading) (allowed : Option (List String)) (layout : Layout)
    (I : Interpretation GaussianRat) (σ : String → GaussianRat) (t : Expr) (v : GaussianRat) :
    Prop :=
  ∃ s n, t.text layout = .ok s ∧
    Token.Reads reading allowed Token.Awaits Token.Stops (.ofPrec n) (Text.squeeze s.toList)
      (Phrase.Means I σ v) ∧ (t.prec s ≤ n ∨ n = 2 ∧ t.prec s ≤ 3 ∧ Joined s)

/-- Leaves read back, if numerals are fractions. -/
theorem readsBack_leaf (exact : reading.exact = true) {a : Leaf}
    (hnames : ∀ x ∈ a.names, Token.IsVariable allowed x) (hv : Means I σ (leaf a) v) :
    ReadsBack reading allowed layout I σ (leaf a) v := by
  cases hv with
  -- a leaf is read back as the phrase of its value, which need not be the leaf itself
  | number value =>
    obtain ⟨g, hz, rfl⟩ := value
    obtain ⟨n, reads, prec⟩ := Token.reads_gaussian exact hz.1.narrow hz.2.narrow
    refine ⟨_, n, hz.text_eq, reads.imp ?_, .inl prec⟩
    rintro _ rfl
    exact Token.means_gaussian hz.1.narrow hz.2.narrow
  | @monomial x m p c k mult power defined =>
    obtain ⟨g, hm, rfl⟩ := mult
    obtain ⟨n, reads, prec⟩ := Token.reads_monomial exact (hnames x List.mem_cons_self)
      power.narrow hm.1.narrow hm.2.narrow
    refine ⟨_, n, monomialText_eq hm power, reads.imp ?_,
      prec.imp_right fun joined => ⟨joined.1, joined.2.textPrec_le, joined.2⟩⟩
    rintro _ rfl
    exact Token.means_monomial hm.1.narrow hm.2.narrow power.narrow.natAbs defined

/-! ## Operators -/

omit [Tolerance] in
/-- The sign of an operator, with blanks or without. -/
theorem squeeze_sign (op : Binary) (c : Bool) : ∃ d,
    Text.squeeze (if c then " " ++ op.symbol ++ " " else op.symbol).toList = [d] ∧
      Token.signOp? d = some (.binary op) := by
  cases op <;> cases c <;> exact ⟨_, rfl, rfl⟩

/-- An operand is read in its place. -/
theorem readsBack_left (hl : ReadsBack reading allowed layout I σ l a) (op : Binary) :
    ∃ s, l.text layout = .ok s ∧ Token.Reads reading allowed Token.Awaits Token.Stops
      op.leftCategory (Text.squeeze (wrap
        (decide (l.prec s < op.prec) || (op == .pow && decide (l.prec s ≤ 3))) s).toList)
      (Phrase.Means I σ a) := by
  obtain ⟨s, n, text, reads, tight⟩ := hl
  refine ⟨s, text, ?_⟩
  -- a left operand that stands bare binds at least as tightly as its place asks
  have left : ∀ m, op.leftCategory = .ofPrec m → m ≤ 9 → ((decide (l.prec s < op.prec) ||
      (op == .pow && decide (l.prec s ≤ 3))) = false → m ≤ n) →
      Token.Reads reading allowed Token.Awaits Token.Stops op.leftCategory (Text.squeeze (wrap
        (decide (l.prec s < op.prec) || (op == .pow && decide (l.prec s ≤ 3))) s).toList)
        (Phrase.Means I σ a) := by
    intro m category hm hn
    rw [category]
    exact Token.reads_wrap reads hm hn
  by_cases hop : op = .pow
  · subst hop
    refine left 4 rfl (by decide) fun bare => ?_
    rw [Bool.or_eq_false_iff, decide_eq_false_iff_not] at bare
    have high : ¬l.prec s ≤ 3 := by simpa using bare.2
    omega
  · refine left op.prec ?_ ?_ fun bare => ?_
    · cases op <;> first | rfl | exact absurd rfl hop
    · cases op <;> decide
    · rw [Bool.or_eq_false_iff, decide_eq_false_iff_not] at bare
      have low : op.prec ≤ 2 := by
        cases op <;> first | decide | exact absurd rfl hop
      omega

/-- An operator between two operands is read as it stands, or as one more link of a chain that
the right operand goes on with. -/
theorem readsBack_binary (hop : op ≠ .pow) (hl : ReadsBack reading allowed layout I σ l a)
    (hr : ReadsBack reading allowed layout I σ r b)
    (equation : op = .equals → ∀ s, 1 ≤ r.prec s)
    (joined : op = .div → ∀ s, r.text layout = .ok s → ¬Joined s) (hb : op = .div → b ≠ 0) :
    ∃ s s', l.text layout = .ok s ∧ r.text layout = .ok s' ∧
      Token.Reads reading allowed Token.Awaits Token.Stops op.category
        (Text.squeeze (binaryText layout op l r s s').toList)
        (Phrase.Means I σ (op.value a b)) := by
  obtain ⟨s, text, left⟩ := readsBack_left hl op
  obtain ⟨s', n, text', reads, tight⟩ := hr
  refine ⟨s, s', text, text', ?_⟩
  unfold binaryText
  dsimp only
  obtain ⟨c, sign, signOp⟩ := squeeze_sign op (decide (op.prec < 2) || layout.spaces)
  rw [Text.squeeze_append, Text.squeeze_append, sign, List.append_assoc, List.singleton_append]
  generalize hneeded : (decide (r.prec s' < op.prec) || (r.prec s' == op.prec && op.isInverted) ||
    (op != .equals && startsNegative s')) = needed
  -- a right operand that stands bare does so too, unless its text looks like a product
  have right : ∀ m, m ≤ 9 → (needed = false → m ≤ r.prec s') → (m = 3 → ¬Joined s') →
      Token.Reads reading allowed Token.Awaits Token.Stops (.ofPrec m)
        (Text.squeeze (wrap needed s').toList) (Phrase.Means I σ b) := by
    refine fun m hm bare word => Token.reads_wrap reads hm fun h => ?_
    have low := bare h
    rcases tight with tight | ⟨rfl, long, joined⟩
    · exact low.trans tight
    · have power := mt word (not_not_intro joined)
      omega
  have bare : needed = false →
      op.prec ≤ r.prec s' ∧ (op.isInverted = true → op.prec < r.prec s') := by
    rintro rfl
    simp only [Bool.or_eq_false_iff, decide_eq_false_iff_not, not_lt, Bool.and_eq_false_iff,
      beq_eq_false_iff_ne] at hneeded
    obtain ⟨⟨low, inverted⟩, -⟩ := hneeded
    refine ⟨low, fun h => lt_of_le_of_ne low ?_⟩
    exact (inverted.resolve_right (by simp [h])).symm
  cases op with
  | equals =>
    exact Token.Reads.means_binary signOp nofun left
      (right 1 (by decide) (fun _ => equation rfl s') nofun) nofun
  | add =>
    exact Token.Reads.means_prepend signOp rfl rfl left
      (right 1 (by decide) (fun h => (bare h).1) nofun)
  | sub =>
    exact Token.Reads.means_binary signOp nofun left
      (right 2 (by decide) (fun h => (bare h).2 rfl) nofun) nofun
  | mul =>
    exact Token.Reads.means_prepend signOp rfl rfl left
      (right 2 (by decide) (fun h => (bare h).1) nofun)
  | div =>
    have factor := right 3 (by decide) (fun h => (bare h).2 rfl) fun _ => joined rfl s' text'
    exact Token.Reads.means_binary signOp nofun left (factor.within .power) fun _ => hb rfl
  | pow => exact absurd rfl hop

/-- A minus sign is read as one in front of the whole product behind it. -/
theorem readsBack_negation (hr : ReadsBack reading allowed layout I σ r b)
    (ends : ∀ s, r.text layout = .ok s → Token.EndsNumeral
      (Text.squeeze (wrap (r.prec s < 2 || startsNegative s) s).toList)) :
    ∃ s, r.text layout = .ok s ∧ Token.Reads reading allowed Token.Awaits Token.Stops .product
      (Text.squeeze ("-" ++ wrap (r.prec s < 2 || startsNegative s) s).toList)
      (Phrase.Means I σ (-b)) := by
  obtain ⟨s, n, text, reads, tight⟩ := hr
  refine ⟨s, text, ?_⟩
  -- in front of a numeral the minus would become part of it, and bind tighter
  have numeral := ends s text
  have operand : Token.Reads reading allowed Token.Awaits Token.Stops (.ofPrec 2)
      (Text.squeeze (wrap (r.prec s < 2 || startsNegative s) s).toList) (Phrase.Means I σ b) := by
    refine Token.reads_wrap reads (by decide) fun bare => ?_
    rw [Bool.or_eq_false_iff, decide_eq_false_iff_not] at bare
    omega
  have minus : Text.squeeze "-".toList = ['-'] := by decide
  obtain ⟨c, cs, behind⟩ := List.exists_cons_of_ne_nil operand.ne_nil
  rw [behind] at numeral operand
  rw [Text.squeeze_append, minus, behind]
  exact operand.means_minus (numeral c rfl)

omit [Tolerance] in
/-- Whatever is no equation binds at least as tightly as a sum. -/
theorem one_le_prec (h : Means I σ t v) (ht : t.isEquation = false) (s : String) :
    1 ≤ t.prec s := by
  have leaf : 1 ≤ textPrec s := by
    unfold textPrec atomPrec
    dsimp only
    split_ifs <;> decide
  cases h with
  | number => exact leaf
  | monomial => exact leaf
  | equals => cases ht
  | _ => exact Nat.le_of_ble_eq_true rfl

/-- Only a product by minus one is written as a sign. -/
theorem isNegation_eq (op : Binary) (h : Means I σ l a) :
    ∃ c, isNegation op l = .ok c ∧ (c = true → op = .mul ∧ l.isNegOne = .ok true ∧ a = -1) := by
  unfold isNegation
  split
  next hop =>
    obtain ⟨c, negOne, hc⟩ := h.isNegOne_eq
    refine ⟨c, negOne, fun yes => ⟨hop, ?_, hc yes⟩⟩
    rw [negOne, yes]
  next => exact ⟨false, rfl, nofun⟩

/-- An operator reads back, between operands that do. -/
theorem readsBack_operation (hop : op ≠ .pow) (ha : Means I σ l a) (hb : Means I σ r b)
    (divisor : op = .div → b ≠ 0) (legible : (binary op l r).Legible layout)
    (hl : ReadsBack reading allowed layout I σ l a)
    (hr : ReadsBack reading allowed layout I σ r b) :
    ReadsBack reading allowed layout I σ (binary op l r) (op.value a b) := by
  obtain ⟨-, -, equation, word⟩ := legible
  obtain ⟨c, negation, hc⟩ := isNegation_eq op ha
  cases c with
  -- a factor of minus one is printed as a sign alone
  | true =>
    obtain ⟨rfl, negOne, rfl⟩ := hc rfl
    obtain ⟨s, -, text, -⟩ := hl
    obtain ⟨s', text', reads⟩ := readsBack_negation hr fun s text => (word s text).2 rfl negOne
    have value : Binary.mul.value (-1) b = -b := neg_one_mul b
    refine ⟨_, 2, ?_, value ▸ reads, .inl le_rfl⟩
    rw [Expr.text, text, text']
    show (isNegation .mul l >>= _) = _
    rw [negation]
    rfl
  | false =>
    have category : op.category = .ofPrec op.prec := by
      cases op <;> rfl
    obtain ⟨s, s', text, text', reads⟩ := readsBack_binary hop hl hr
      (fun equals => one_le_prec hb (equation equals)) (fun div s text => (word s text).1 div) divisor
    refine ⟨_, op.prec, ?_, category ▸ reads, .inl le_rfl⟩
    rw [Expr.text, text, text']
    show (isNegation op l >>= _) = _
    rw [negation]
    rfl

/-- A power with an integer for an exponent, in parentheses if it has a sign. -/
theorem readsBack_pow (exact : reading.exact = true) {z : Number} {n : ℤ}
    (hl : ReadsBack reading allowed layout I σ l a) (hz : z.Is n) (defined : a ≠ 0 ∨ 0 ≤ n) :
    ReadsBack reading allowed layout I σ (binary .pow l (leaf (.number z))) (a ^ n) := by
  obtain ⟨s, text, left⟩ := readsBack_left hl .pow
  have hn : n.natAbs ≤ 2 ^ 53 := hz.1.narrow.natAbs
  have integer : gaussianText n = toString n := by
    rw [Token.gaussian_intCast, gaussianText, if_pos rfl, rationalText_intCast]
  have text' : (leaf (.number z)).text layout = .ok (toString n) := by
    rw [← integer]
    exact hz.text_eq
  refine ⟨binaryText layout .pow l (leaf (.number z)) s (toString n), 3, ?_, ?_, .inl le_rfl⟩
  · rw [Expr.text, text, text']
    rfl
  · unfold binaryText
    dsimp only
    obtain ⟨c, sign, signOp⟩ := squeeze_sign .pow (decide (Binary.pow.prec < 2) || layout.spaces)
    obtain rfl : c = '^' := by
      have symbol := Token.symbol_of_signOp? signOp
      cases symbol
      rfl
    rw [Text.squeeze_append, Text.squeeze_append, sign, List.append_assoc, List.singleton_append]
    -- the exponent is an integer, so it may stand with parentheses or without
    have right : ∀ needed, Token.Reads reading allowed Token.Awaits Token.Stops (.ofPrec 3)
        (Text.squeeze (wrap needed (toString n)).toList) (· = .number (.ofInt n)) := fun _ =>
      Token.reads_wrap (n := 9) (Token.reads_integer exact hn).stopping (by decide) fun _ => by decide
    exact Token.Reads.means_pow left ((right _).within .power) (Number.is_ofInt hn) defined

/-- A factorial reads back, with its operand in parentheses unless that is an atom. -/
theorem readsBack_factorial (ht : ReadsBack reading allowed layout I σ t a)
    (value : I.factorial a = some v) : ReadsBack reading allowed layout I σ (factorial t) v := by
  obtain ⟨s, n, text, reads, tight⟩ := ht
  have operand : Token.Reads reading allowed Token.Awaits Token.Stops (.ofPrec 4)
      (Text.squeeze (wrap (t.prec s < atomPrec) s).toList) (Phrase.Means I σ a) := by
    refine Token.reads_wrap reads (by decide) fun bare => ?_
    rw [decide_eq_false_iff_not, atomPrec] at bare
    omega
  have mark : Text.squeeze "!".toList = ['!'] := by decide
  refine ⟨wrap (t.prec s < atomPrec) s ++ "!", 4, ?_, ?_, .inl le_rfl⟩
  · rw [Expr.text, text]
    rfl
  · rw [Text.squeeze_append, mark]
    exact (operand.means_factorial value).mono (fun _ => id) fun _ _ => True.intro

/-- A function reads back, with its argument in parentheses. -/
theorem readsBack_apply {f : Func} (ht : ReadsBack reading allowed layout I σ t a)
    (value : I.function f a = some v) : ReadsBack reading allowed layout I σ (apply f t) v := by
  obtain ⟨s, n, text, reads, -⟩ := ht
  have group := (reads.loosen (Nat.zero_le n)).group
  have symbol : Text.squeeze f.symbol.toList = f.symbol.toList := by
    cases f <;> decide
  refine ⟨f.symbol ++ parenthesized s, 9, ?_, ?_, .inl le_rfl⟩
  · rw [Expr.text, text]
    rfl
  · rw [Text.squeeze_append, Text.squeeze_parenthesized, symbol]
    exact (group.means_apply value).mono (fun _ h => h.1) fun _ _ => True.intro

/-! ## Expressions -/

/-- The text of an expression is read as a phrase with the meaning of the expression. -/
theorem readsBack (exact : reading.exact = true) (hv : Means I σ t v) (legible : t.Legible layout)
    (hnames : ∀ x ∈ t.names, Token.IsVariable allowed x) :
    ReadsBack reading allowed layout I σ t v := by
  -- what the five operators share; the induction below only adds what sets each apart
  have operation : ∀ {op : Binary} {l r : Expr} {a b : GaussianRat}, op ≠ .pow → Means I σ l a →
      Means I σ r b → (op = .div → b ≠ 0) → (binary op l r).Legible layout →
      (∀ x ∈ (binary op l r).names, Token.IsVariable allowed x) →
      (l.Legible layout → (∀ x ∈ l.names, Token.IsVariable allowed x) →
        ReadsBack reading allowed layout I σ l a) →
      (r.Legible layout → (∀ x ∈ r.names, Token.IsVariable allowed x) →
        ReadsBack reading allowed layout I σ r b) →
      ReadsBack reading allowed layout I σ (binary op l r) (op.value a b) := by
    intro op l r a b hop ha hb divisor legible hnames ihl ihr
    rw [names, List.forall_mem_append] at hnames
    exact readsBack_operation hop ha hb divisor legible (ihl legible.1 hnames.1)
      (ihr legible.2.1 hnames.2)
  induction hv with
  | number value => exact readsBack_leaf exact hnames (.number value)
  | monomial mult power defined => exact readsBack_leaf exact hnames (.monomial mult power defined)
  | equals hl hr ihl ihr => exact operation (by decide) hl hr (by simp) legible hnames ihl ihr
  | add hl hr ihl ihr => exact operation (by decide) hl hr (by simp) legible hnames ihl ihr
  | sub hl hr ihl ihr => exact operation (by decide) hl hr (by simp) legible hnames ihl ihr
  | mul hl hr ihl ihr => exact operation (by decide) hl hr (by simp) legible hnames ihl ihr
  | div hl hr divisor ihl ihr =>
    exact operation (by decide) hl hr (fun _ => divisor) legible hnames ihl ihr
  | pow _ exponent defined ih =>
    rw [names, List.forall_mem_append] at hnames
    exact readsBack_pow exact (ih legible.1 hnames.1) exponent defined
  | factorial _ value ih =>
    rw [names, List.forall_mem_append] at hnames
    exact readsBack_factorial (ih legible hnames.1) value
  | apply _ value ih =>
    rw [names, List.forall_mem_append] at hnames
    exact readsBack_apply (ih legible hnames.2) value

/-- What the text of an expression is read as means what the expression does, and has no other
variables. -/
theorem parse_text_exactly (exact : reading.exact = true)
    (hI : reading.peephole = true → I.Inverts) (hv : Means I σ t v) (legible : t.Legible layout)
    (hnames : ∀ x ∈ t.names, Token.IsVariable allowed x) :
    ∃ s, t.text layout = .ok s ∧ Exactly (fun _ => parse reading allowed s) fun t' =>
      Means I σ t' v ∧ ∀ x ∈ t'.names, x ∈ t.names := by
  have own : ∀ x ∈ t.names, Token.IsVariable (some t.names) x := by
    intro x hx
    obtain ⟨c, rfl, blank, numeral, sign, letter, constant, -⟩ := hnames x hx
    exact ⟨c, rfl, blank, numeral, sign, letter, constant, List.contains_iff_mem.mpr hx⟩
  have isAllowed : ∀ x ∈ t.names, Token.isAllowed allowed x = true := by
    intro x hx
    obtain ⟨c, -, -, -, -, -, -, h⟩ := hnames x hx
    exact h
  have isOwn : ∀ x, Token.IsVariable (some t.names) x → ∀ y ∈ (Leaf.ofName x).names, y ∈ t.names := by
    rintro x ⟨c, -, -, -, -, -, -, h⟩ y hy
    rw [List.mem_singleton.mp hy]
    exact List.contains_iff_mem.mp h
  -- the text is read as if no other variables were allowed
  obtain ⟨s, n, text, reads, -⟩ := readsBack exact hv legible own
  obtain ⟨ts, p, tokens, derives, hp⟩ := Token.tokenize_reads (reads.loosen (Nat.zero_le n))
  have read : ∀ b : Builder Expr, Parser.parse b reading allowed s = p.build b := by
    intro b
    unfold Parser.parse
    rw [Token.tokenize_allowed isAllowed ts tokens]
    exact Parser.parseTokens_derives derives
  have built := build_exactly hI p hp
  have vars : Returns (p.build (builder reading.peephole)) fun t' => ∀ x ∈ t'.names, x ∈ t.names := by
    rw [← Parser.parseTokens_derives derives]
    exact (Parser.parseTokens_returns (builder_keeps (Leaf.closed_names _) isOwn _)
      (Token.tokenize_names s ts tokens)).mono fun _ h => h.names
  refine ⟨s, text, ?_⟩
  unfold parse
  simp only [read]
  exact (built.keep vars).mono fun t' h => ⟨h.1.means.mono zero_le_one, h.2⟩

/-- An expression that is read has a text, which is read as an expression with the same
value. -/
theorem evaluate_parse_text {text : String} {bindings : Bindings}
    (parsed : parse reading allowed text = .ok t) (exact : reading.exact = true)
    (legible : t.Legible layout) (hI : reading.peephole = true → I.Inverts) (hC : I.Computed)
    (hv : Means I σ t v) (hb : bindings.StandFor σ t.names)
    (stays : StaysExact fun _ => evaluate bindings t)
    (staysRead : StaysExact fun _ => do
      evaluate bindings (← parse reading allowed (← t.text layout))) :
    ∃ z z', evaluate bindings t = .ok z ∧
      (do evaluate bindings (← parse reading allowed (← t.text layout))) = .ok z' ∧
      z.same z' = .ok true := by
  obtain ⟨s, spelled, again⟩ := parse_text_exactly exact hI hv legible
    -- the text of a tree that was parsed has the names of that tree
    (parse_names reading allowed text t parsed)
  obtain ⟨z, value, hz⟩ := (evaluate_exactly hC hv hb).result stays
  have reread : Exactly (fun _ => do evaluate bindings (← parse reading allowed (← t.text layout)))
      (·.StandsFor v) :=
    Exactly.bind (Exactly.of_eq spelled rfl) fun s' hs => hs ▸ Exactly.bind again fun t' ht' =>
      evaluate_exactly hC ht'.1 fun x hx => hb x (ht'.2 x hx)
  obtain ⟨z', value', hz'⟩ := reread.result staysRead
  obtain ⟨c, same, hc⟩ := hz.same_eq hz'
  refine ⟨z, z', value, value', ?_⟩
  rw [same, hc.mpr rfl]

end Expr

end SymbolicAlgebra
