import SymbolicAlgebra.Proofs.Parse.Scan

/-!
# Functions that vanish with their inverses

A function directly in front of its inverse can be taken out of a list of tokens. `cancel` does
so until no such pair is left; in whatever order the pairs are taken out, the kinds of the tokens
that remain are the same (`kinds_of_vanish`).

The lexer takes them out while it still reads, and then what follows stands behind the token in
front of the pair. That matters for a minus sign only: it belongs to the operand behind it
behind a function, but it is a subtraction where the pair stood behind a complete operand, as in
`x ln e^-y`. If there is no such sign, and only then, the lexer finds what is left of the tokens
that it finds with all functions kept (`tokenize_peephole_iff`).
-/

namespace SymbolicAlgebra

namespace Token

open Relation (ReflTransGen)

variable {allowed : Option (List String)} {exact ended : Bool} {read ts us vs : List Token}
  {pos depth : ℕ} {c : Char} {s rest : List Char} {t u : Token}

/-! ## Cancelling -/

/-- The tokens without what vanishes, the last of them first. -/
def cancelled (ts : List Token) : List Token := ts.foldl (fun read t => push true t read) []

/-- The tokens without functions that stand in front of their inverses. -/
def cancel (ts : List Token) : List Token := (cancelled ts).reverse

/-- No function stands in front of its inverse. -/
def Reduced (ts : List Token) : Prop := ts.IsChain fun t u => t.undoes u = false

/-- One function is taken out with its inverse. -/
inductive Vanish : List Token → List Token → Prop
  | pair {t u : Token} (ts us : List Token) (h : t.undoes u = true) :
    Vanish (ts ++ t :: u :: us) (ts ++ us)

theorem cancelled_concat : cancelled (ts ++ [t]) = push true t (cancelled ts) := by
  rw [cancelled, List.foldl_append]
  rfl

theorem push_on_of_undoes (h : t.undoes u = true) : push true u (t :: read) = read := by
  rw [push, h]
  rfl

/-- Any other token is put in front. -/
theorem push_on_of_not_undoes (h : ∀ last ∈ read.head?, last.undoes t = false) :
    push true t read = t :: read := by
  cases read with
  | nil => rfl
  | cons last read =>
    rw [push, h last rfl]
    rfl

/-- Where no pair is left, a token more leaves none. -/
theorem isChain_push (h : read.IsChain fun t u => u.undoes t = false) :
    (push true t read).IsChain fun t u => u.undoes t = false := by
  rcases push_cases true t read with same | ⟨last, same, -⟩
  · cases read with
    | nil => exact .singleton t
    | cons last read =>
      by_cases vanish : last.undoes t = true
      · rw [push_on_of_undoes vanish]
        exact h.tail
      · rw [same]
        exact h.cons_cons (by simpa using vanish)
  · rw [same] at h
    exact h.tail

/-- What remains has no pair left. -/
theorem reduced_cancel (ts : List Token) : Reduced (cancel ts) := by
  refine List.isChain_reverse.mpr ?_
  induction ts using List.reverseRecOn with
  | nil => exact .nil
  | append_singleton ts t ih =>
    rw [cancelled_concat]
    exact isChain_push ih

/-- What vanishes does so in front of other tokens. -/
theorem Vanish.append (h : Vanish ts us) (vs : List Token) : Vanish (ts ++ vs) (us ++ vs) := by
  cases h with
  | @pair t u before after undoes =>
    rw [List.append_assoc, List.append_assoc]
    exact .pair before (after ++ vs) undoes

/-- What remains is found by taking out one pair after the other. -/
theorem vanish_cancel (ts : List Token) : ReflTransGen Vanish ts (cancel ts) := by
  induction ts using List.reverseRecOn with
  | nil => exact .refl
  | append_singleton ts t ih =>
    have before : ReflTransGen Vanish (ts ++ [t]) (cancel ts ++ [t]) :=
      ih.lift (· ++ [t]) fun _ _ h => h.append [t]
    refine before.trans ?_
    unfold cancel
    rw [cancelled_concat]
    -- the next token stays, or forms a pair with the last one that is left
    rcases push_cases true t (cancelled ts) with same | ⟨last, same, undoes⟩
    · rw [same, List.reverse_cons]
    · have step := Vanish.pair (push true t (cancelled ts)).reverse [] undoes
      rw [List.append_nil] at step
      nth_rewrite 1 [same]
      rw [List.reverse_cons, List.append_assoc]
      exact .single step

/-! ## The order does not matter -/

/-- Whether a token undoes another depends on their kinds only. -/
theorem undoes_congr {t' u' : Token} (ht : t.kind = t'.kind) (hu : u.kind = u'.kind) :
    t.undoes u = t'.undoes u' := by
  unfold undoes function?
  rw [ht, hu]

/-- Which kinds remain depends on kinds only. -/
theorem kinds_push (same : t.kind = u.kind) (kinds : ts.map Token.kind = us.map Token.kind) :
    (push true t ts).map Token.kind = (push true u us).map Token.kind := by
  cases ts with
  | nil =>
    obtain rfl := List.map_eq_nil_iff.mp kinds.symm
    exact congrArg (fun kind => [kind]) same
  | cons last ts =>
    cases us with
    | nil => cases kinds
    | cons last' us =>
      obtain ⟨kind, below⟩ := List.cons.inj kinds
      rw [push, push, undoes_congr kind same]
      split
      · exact below
      · simp only [List.map_cons, same, kind, below]

/-- So it does for more than one token. -/
theorem kinds_foldl (kinds : us.map Token.kind = vs.map Token.kind) :
    (ts.foldl (fun read t => push true t read) us).map Token.kind =
      (ts.foldl (fun read t => push true t read) vs).map Token.kind := by
  induction ts generalizing us vs with
  | nil => exact kinds
  | cons t ts ih => exact ih (kinds_push rfl kinds)

/-- A pair leaves what is in front of it, or puts a token of the same kind in the last place. -/
theorem kinds_push_pair (h : t.undoes u = true)
    (reduced : read.IsChain fun t u => u.undoes t = false) :
    (push true u (push true t read)).map Token.kind = read.map Token.kind := by
  rcases push_cases true t read with same | ⟨last, same, undoes⟩
  · rw [same, push_on_of_undoes h]
  · -- the first token of the pair removes the last one, whose kind the second has again
    obtain ⟨f, g, hf, hg, inverse⟩ := inverse?_of_undoes undoes
    obtain ⟨g', f', hg', hf', inverse'⟩ := inverse?_of_undoes h
    obtain ⟨⟩ := hg.symm.trans hg'
    obtain ⟨⟩ := (Func.inverse?_inverse? inverse).symm.trans inverse'
    have kind : u.kind = last.kind := hf'.trans hf.symm
    rw [same] at reduced
    have stays : ∀ before ∈ (push true t read).head?, before.undoes u = false := by
      intro before mem
      rw [undoes_congr rfl kind]
      exact (List.isChain_cons.mp reduced).1 before mem
    rw [push_on_of_not_undoes stays, List.map_cons, kind]
    nth_rewrite 2 [same]
    rfl

/-- What remains has the same kinds without a pair. -/
theorem kinds_cancel (h : Vanish ts us) :
    (cancel ts).map Token.kind = (cancel us).map Token.kind := by
  obtain ⟨before, after, undoes⟩ := h
  have reduced := List.isChain_reverse.mp (reduced_cancel before)
  simp only [cancel, cancelled, List.map_reverse, List.foldl_append, List.foldl_cons,
    List.reverse_inj]
  exact kinds_foldl (kinds_push_pair undoes reduced)

/-- Where there is no pair, everything remains. -/
theorem cancel_of_reduced (h : Reduced ts) : cancel ts = ts := by
  suffices cancelled ts = ts.reverse by rw [cancel, this, List.reverse_reverse]
  induction ts using List.reverseRecOn with
  | nil => rfl
  | append_singleton ts t ih =>
    obtain ⟨before, -, last⟩ := List.isChain_append.mp h
    rw [cancelled_concat, ih before, List.reverse_append]
    refine push_on_of_not_undoes fun u mem => last u ?_ t rfl
    rwa [List.head?_reverse] at mem

/-- Whatever pairs are taken out, when none is left the kinds of the tokens are the same. -/
theorem kinds_of_vanish (h : ReflTransGen Vanish ts us) (reduced : Reduced us) :
    us.map Token.kind = (cancel ts).map Token.kind := by
  induction h using ReflTransGen.head_induction_on with
  | refl => rw [cancel_of_reduced reduced]
  | head step _ ih => exact ih.trans (kinds_cancel step).symm

/-! ## Cancelling while reading -/

/-- No minus sign belongs to the operand behind it that stands behind a complete operand when
the functions in front of it have vanished. -/
def SignsKept (ts : List Token) : Prop :=
  ∀ us t vs, ts = us ++ t :: vs → t.IsSign → continues (cancelled us) = false

/-- Whether an operand is complete only matters for the minus sign. -/
theorem next_congr {ended' : Bool} (h : c = '-' → ended = ended') :
    next ⟨exact, true⟩ allowed ended' pos depth c rest =
      next ⟨exact, false⟩ allowed ended pos depth c rest := by
  by_cases minus : c = '-'
  · rw [h minus]
    rfl
  · unfold next
    rw [decide_eq_false minus, Bool.false_and, Bool.false_and]
    rfl

/-- Behind a token that completes an operand nothing has vanished. -/
theorem continues_cancelled (h : continues read = true) :
    continues (cancelled read.reverse) = true := by
  cases read with
  | nil => cases h
  | cons last before =>
    have plain : last.function? = none := by
      cases name : last.function? with
      | none => rfl
      | some f =>
        have ends : last.endsTerm = true := h
        unfold function? at name
        split at name
        next kind => simp [endsTerm, kind] at ends
        next => cases name
    rw [List.reverse_cons, cancelled_concat, push_of_function? plain]
    exact h

theorem IsSign.function?_eq (h : t.IsSign) : t.function? = none := by
  rcases h.2 with kind | ⟨z, kind⟩ <;> simp [function?, kind]

/-- What ends in a token that is no function stays. -/
theorem suffix_push {peephole : Bool} (plain : Plain us) (h : us <:+ read) :
    us <:+ push peephole t read := by
  rcases push_cases peephole t read with same | ⟨last, same, undoes⟩
  · rw [same]
    exact h.trans (List.suffix_cons t read)
  · rw [same] at h
    rcases List.suffix_cons_iff.mp h with rfl | inner
    · obtain ⟨f, g, name, -⟩ := inverse?_of_undoes undoes
      simp [Plain, function?, name] at plain
    · exact inner

/-- What has been read stays, if nothing vanishes or it ends in no function. -/
theorem prefix_scan {reading : Reading} (stays : reading.peephole = false ∨ Plain read)
    (run : scan reading allowed read pos depth s = .ok ts) : read.reverse <+: ts := by
  have step : ∀ {read' depth c t}, read <:+ read' → Found (continues read') depth c t →
      read <:+ push reading.peephole t read' := by
    intro read' depth c t h _
    rcases stays with off | plain
    · rw [off, push_off]
      exact h.trans (List.suffix_cons t read')
    · exact suffix_push plain h
  obtain ⟨-, h⟩ := scan_invariant (I := fun read' _ => read <:+ read') step List.suffix_rfl run
  rwa [← List.reverse_suffix, List.reverse_reverse]

/-- Up to a token that is no function, what remains is settled. -/
theorem prefix_cancel (plain : t.function? = none) :
    (cancelled us).reverse ++ [t] <+: cancel (us ++ t :: vs) := by
  suffices t :: cancelled us <:+ cancelled (us ++ t :: vs) by
    rwa [cancel, ← List.reverse_cons, List.reverse_prefix]
  induction vs using List.reverseRecOn with
  | nil =>
    rw [cancelled_concat, push_of_function? plain]
  | append_singleton vs v ih =>
    rw [← List.cons_append, ← List.append_assoc, cancelled_concat]
    refine suffix_push ?_ ih
    rintro _ ⟨⟩
    exact plain

/-! ### One token -/

/-- The same token is found with the functions in front of it and without, unless it is a minus
sign that they separate from a complete operand. -/
theorem next_cancelled
    (found : next ⟨exact, false⟩ allowed (continues read) pos depth c rest = .ok t)
    (kept : t.IsSign → continues (cancelled read.reverse) = false) :
    next ⟨exact, true⟩ allowed (continues (cancelled read.reverse)) pos depth c rest = .ok t := by
  rw [next_congr fun minus => ?_, found]
  cases ends : continues read with
  | true => exact (continues_cancelled ends).symm
  | false => exact (kept ((next_found found).isSign_iff.mpr ⟨minus, ends⟩)).symm

/-- Without such a sign, the rest of the text is read behind what remains. -/
theorem scan_cancelled
    (found : next ⟨exact, false⟩ allowed (continues read) pos depth c rest = .ok t)
    (kept : t.IsSign → continues (cancelled read.reverse) = false) :
    scan ⟨exact, true⟩ allowed (cancelled read.reverse) pos depth (c :: rest) =
      scan ⟨exact, true⟩ allowed (cancelled (t :: read).reverse) (pos + t.text.length)
        (depthAfter depth t) (rest.drop (t.text.length - 1)) := by
  rw [scan, next_cancelled found kept, List.reverse_cons, cancelled_concat]
  rfl

/-- At such a sign the tokens differ. -/
theorem sign_kept
    (found : next ⟨exact, false⟩ allowed (continues read) pos depth c rest = .ok t)
    (front : (t :: read).reverse <+: ts)
    (run : scan ⟨exact, true⟩ allowed (cancelled read.reverse) pos depth (c :: rest) =
      .ok (cancel ts)) (sign : t.IsSign) : continues (cancelled read.reverse) = false := by
  by_contra ends
  rw [Bool.not_eq_false] at ends
  obtain ⟨rfl, -⟩ := (next_found found).isSign_iff.mp sign
  rw [scan] at run
  obtain ⟨t', found', run⟩ := Calc.bind_eq_ok.mp run
  rw [ends] at found'
  have subtraction := (next_found found').subtraction
  have plain : t'.function? = none := by simp [function?, subtraction]
  obtain ⟨vs, rfl⟩ := front
  rw [push_of_function? plain] at run
  have stays : Plain (t' :: cancelled read.reverse) := by
    rintro _ ⟨⟩
    exact plain
  -- both lists start with what remains of the tokens, and go on with different ones
  have first := prefix_scan (.inr stays) run
  rw [List.reverse_cons, List.reverse_cons, List.append_assoc] at first
  have second : (cancelled read.reverse).reverse ++ [t] <+:
      cancel (read.reverse ++ ([t] ++ vs)) := prefix_cancel sign.function?_eq
  have same := List.prefix_of_prefix_length_le first second (by simp)
  have equal : t' = t := by simpa using same.eq_of_length (by simp)
  rw [equal] at subtraction
  rcases sign.2 with kind | ⟨z, kind⟩ <;> rw [subtraction] at kind <;> cases kind

/-! ### Whole texts -/

/-- If no sign is separated, the text is read as the tokens that remain. -/
theorem scan_of_signsKept
    (run : scan ⟨exact, false⟩ allowed read pos depth s = .ok ts) (signs : SignsKept ts) :
    scan ⟨exact, true⟩ allowed (cancelled read.reverse) pos depth s = .ok (cancel ts) := by
  fun_induction scan ⟨exact, false⟩ allowed read pos depth s with
  | case1 read pos depth =>
    obtain ⟨⟩ := run
    rw [scan]
    rfl
  | case2 read pos depth c rest ih =>
    obtain ⟨t, found, run⟩ := Calc.bind_eq_ok.mp run
    have onward := ih t run
    rw [push_off] at run onward
    obtain ⟨vs, split⟩ := prefix_scan (.inl rfl) run
    rw [List.reverse_cons, List.append_assoc] at split
    rw [scan_cancelled found (signs read.reverse t vs split.symm), onward]

/-- And if the text is read so, no sign is. -/
theorem signsKept_of_scan
    (run : scan ⟨exact, false⟩ allowed read pos depth s = .ok ts)
    (run' : scan ⟨exact, true⟩ allowed (cancelled read.reverse) pos depth s = .ok (cancel ts))
    (split : ts = us ++ t :: vs) (behind : read.reverse <+: us) (sign : t.IsSign) :
    continues (cancelled us) = false := by
  fun_induction scan ⟨exact, false⟩ allowed read pos depth s with
  | case1 read pos depth =>
    obtain ⟨⟩ := run
    have short := behind.length_le
    simp [split] at short
  | case2 read pos depth c rest ih =>
    obtain ⟨t', found, run⟩ := Calc.bind_eq_ok.mp run
    have onward := ih t' run
    rw [push_off] at run onward
    have front := prefix_scan (.inl rfl) run
    have kept := sign_kept found front run'
    rw [scan_cancelled found kept] at run'
    obtain ⟨after, same⟩ := front
    obtain ⟨between, rfl⟩ := behind
    rw [split, List.reverse_cons, List.append_assoc, List.append_assoc] at same
    have next := List.append_cancel_left same
    cases between with
    | nil =>
      obtain ⟨rfl, -⟩ := List.cons.inj next
      rw [List.append_nil]
      exact kept sign
    | cons u between =>
      obtain ⟨rfl, -⟩ := List.cons.inj next
      refine onward run' ⟨between, ?_⟩
      rw [List.reverse_cons, List.append_assoc]
      rfl

/-- With functions that vanish the lexer finds what remains of the tokens that it finds without,
if and only if no minus sign that belongs to an operand stands behind a complete one then. -/
theorem tokenize_peephole_iff {text : String}
    (run : tokenize ⟨exact, false⟩ allowed text = .ok ts) :
    tokenize ⟨exact, true⟩ allowed text = .ok (cancel ts) ↔ SignsKept ts := by
  refine ⟨fun run' us t vs split sign => ?_, fun signs => scan_of_signsKept run signs⟩
  exact signsKept_of_scan run run' split (List.nil_prefix) sign

/-- In `x ln e^-y` the sign belongs to `y`, but behind `x` alone it is a subtraction. -/
example : ¬SignsKept [⟨.letter, ['x'], 0⟩, ⟨.op (.function .ln), ['l', 'n'], 1⟩,
    ⟨.op (.function .exp), ['e', '^'], 3⟩, ⟨.negation, ['-'], 5⟩, ⟨.letter, ['y'], 6⟩] := by
  intro signs
  have kept := signs [_, _, _] _ [_] rfl ⟨rfl, .inl rfl⟩
  cases kept

/-- Without signs directly behind functions, what vanishes changes nothing else. -/
theorem tokenize_peephole {text : String} (run : tokenize ⟨exact, false⟩ allowed text = .ok ts)
    (apart : ts.IsChain fun t u => u.IsSign → t.function? = none) :
    tokenize ⟨exact, true⟩ allowed text = .ok (cancel ts) := by
  have behind : ts.IsChain fun t u => t.endsTerm = true → ¬u.IsSign :=
    isChain_tokenize (fun found sign => absurd (found.isSign_iff.mp sign).2 (by decide)) run
  refine scan_of_signsKept run fun us t vs split sign => ?_
  rcases List.eq_nil_or_concat' us with rfl | ⟨us, last, rfl⟩
  · rfl
  subst split
  rw [List.append_assoc] at apart behind
  have plain : last.function? = none := (List.isChain_append.mp apart).2.1.rel sign
  rw [cancelled_concat, push_of_function? plain, continues]
  by_contra ends
  exact (List.isChain_append.mp behind).2.1.rel (by simpa using ends) sign

/-- With functions that vanish no function stands in front of its inverse in the tokens. -/
theorem reduced_tokenize {text : String} (run : tokenize ⟨exact, true⟩ allowed text = .ok ts) :
    Reduced ts := by
  obtain ⟨-, h⟩ := tokenize_invariant
    (I := fun read _ => read.IsChain fun t u => u.undoes t = false) .nil
    (fun h _ => isChain_push h) run
  exact List.isChain_reverse.mp h

end Token

end SymbolicAlgebra
