import SymbolicAlgebra.Definition
import SymbolicAlgebra.Proofs.Derivative.Formed
import SymbolicAlgebra.Proofs.Parse.Failures
import SymbolicAlgebra.Proofs.Simplify.Formed

/-!
# No operation invents a variable

What is read from a text has no other variables than the allowed ones, and neither has anything
that is made of it by simplifying, negating, combining with operators and functions and
differentiating, in any order (`Expr.Derived`). All these trees have their operands, so evaluation
reaches every leaf of them: it succeeds only where every variable has a value.

A definition gets its expression from a text in which only its parameters may occur, and its
derivatives have the same parameters. A call that gives every parameter a value never finds one
without.
-/

namespace SymbolicAlgebra

variable [Tolerance]

/-! ## Expressions -/

namespace Expr

/-- What texts with these variables are read as, and what is made of it. -/
inductive Derived (allowed : List String) : Expr → Prop
  | parse {reading : Reading} {text : String} {t : Expr}
    (result : parse reading (some allowed) text = .ok t) : Derived allowed t
  | simplify {depth : ℕ} {t t' : Expr} (argument : Derived allowed t)
    (result : simplify depth t = .ok t') : Derived allowed t'
  | negate {t t' : Expr} (argument : Derived allowed t) (result : negate t = .ok t') :
    Derived allowed t'
  | combine {op : Binary} {l r t : Expr} (left : Derived allowed l) (right : Derived allowed r)
    (result : combine op l r = .ok t) : Derived allowed t
  | apply {f : Func} {t : Expr} (argument : Derived allowed t) : Derived allowed (apply f t)
  | factorial {t : Expr} (argument : Derived allowed t) : Derived allowed (factorial t)
  | differentiate {name : String} {t t' : Expr} (argument : Derived allowed t)
    (result : differentiate name t = .ok t') : Derived allowed t'

variable {allowed : List String} {t : Expr}

/-- A tree that is read has the allowed variables only, and all its operands. -/
theorem parse_formed (reading : Reading) (text : String) :
    Returns (Expr.parse reading (some allowed) text)
      (Formed fun a => ∀ x ∈ a.names, x ∈ allowed) := by
  refine (parse_ends reading (some allowed) text).returns.mono fun t ht =>
    ht.mono fun a ha x hx => ?_
  obtain ⟨-, -, -, -, -, -, -, isAllowed⟩ := ha x hx
  exact List.contains_iff_mem.mp isAllowed

/-- So does every tree that is made of such trees. -/
theorem Derived.formed (h : Derived allowed t) :
    t.Formed fun a => ∀ x ∈ a.names, x ∈ allowed := by
  have hA := Leaf.closed_names (· ∈ allowed)
  induction h with
  | parse result => exact parse_formed _ _ _ result
  | simplify _ result ih => exact (simplify_formed hA _ ih).returns _ result
  | negate _ result ih => exact (negate_formed hA ih).returns _ result
  | combine _ _ result ihl ihr => exact (combine_formed hA ihl ihr).returns _ result
  | apply _ ih => exact ⟨rfl, ih⟩
  | factorial _ ih => exact ⟨ih, rfl⟩
  | differentiate _ result ih => exact (differentiate_formed _ ih).returns _ result

end Expr

/-! ## Definitions -/

namespace Definition

variable {β : Type}

/-- The definitions of texts, and their derivatives of any order. -/
inductive OfText : Definition → Prop
  | ofText {reading : Reading} {name text : String} {parameters : List String} {f : Definition}
    (result : ofText reading name parameters text = .ok f) : OfText f
  | derive {f g : Definition} {name : Option String} (argument : OfText f)
    (result : f.derive name = .ok g) : OfText g

variable {f : Definition}

/-- Only parameters occur in the expression of a definition. -/
theorem OfText.formed (h : OfText f) :
    f.body.Formed fun a => ∀ x ∈ a.names, x ∈ f.parameters := by
  induction h with
  | ofText result =>
    obtain ⟨t, read, ⟨⟩⟩ := Calc.bind_eq_ok.mp result
    exact Expr.parse_formed _ _ _ read
  | @derive f g name _ result ih =>
    -- whichever variable it is
    have derived : ∀ x, (do return ⟨f.name ++ "\x27", f.parameters, ← f.body.differentiate x⟩ :
        Calc Definition) = .ok g → g.body.Formed fun a => ∀ x ∈ a.names, x ∈ g.parameters := by
      intro x run
      obtain ⟨t, derivative, ⟨⟩⟩ := Calc.bind_eq_ok.mp run
      exact (Expr.differentiate_formed x ih).returns t derivative
    unfold Definition.derive at result
    split at result
    next => exact derived _ result
    next => exact derived _ result
    next => cases result

/-! ### Calls -/

omit [Tolerance] in
/-- After an assignment its name has a value, and all others as before. -/
theorem isSome_lookup_assign (name x : String) (v : β) (values : List (String × β)) :
    ((assign name v values).lookup x).isSome = (x == name || (values.lookup x).isSome) := by
  have head : ∀ (y : String) (w : β) (rest : List (String × β)),
      (((y, w) :: rest).lookup x).isSome = (x == y || (rest.lookup x).isSome) := by
    intro y w rest
    rw [List.lookup_cons]
    cases x == y <;> rfl
  induction values with
  | nil => exact head name v []
  | cons p values ih =>
    obtain ⟨y, w⟩ := p
    rw [assign]
    split
    next same =>
      obtain rfl := beq_iff_eq.mp same
      rw [head, head]
      cases x == y <;> rfl
    next => rw [head, head, ih, Bool.or_left_comm]

omit [Tolerance] in
/-- After several assignments a name has a value if one of them is to it, or if it had one. -/
theorem isSome_lookup_foldl (x : String) (new values : List (String × β)) :
    ((new.foldl (fun acc p => assign p.1 p.2 acc) values).lookup x).isSome = true ↔
      x ∈ new.map Prod.fst ∨ (values.lookup x).isSome = true := by
  induction new generalizing values with
  | nil => simp
  | cons p new ih =>
    rw [List.foldl_cons, ih, isSome_lookup_assign, Bool.or_eq_true, beq_iff_eq, List.map_cons,
      List.mem_cons, ← or_assoc, or_comm (a := x ∈ _)]

omit [Tolerance] in
/-- The parameters that get a value by position. -/
theorem map_fst_zip (names : List String) (args : List β) :
    (names.zip args).map Prod.fst = names.take args.length := by
  induction names generalizing args with
  | nil => simp
  | cons x names ih =>
    cases args with
    | nil => rfl
    | cons v args => exact congrArg (x :: ·) (ih args)

omit [Tolerance] in
/-- A call that gives every parameter a value, by position or by name, gets them all. -/
theorem assignments_ends {args : List β} {byName : List (String × β)}
    (bound : ∀ p ∈ f.parameters,
      p ∈ f.parameters.take args.length ∨ p ∈ byName.map Prod.fst) :
    Ends (f.assignments args byName) (∀ x, · ≠ .unbound x)
      fun values => ∀ p ∈ f.parameters, (values.lookup p).isSome = true := by
  have positions : (f.parameters.zip args).map Prod.fst = f.parameters.take args.length :=
    map_fst_zip _ _
  have values : ∀ p ∈ f.parameters, ((byName.foldl (fun acc p => assign p.1 p.2 acc)
      ((f.parameters.zip args).foldl (fun acc p => assign p.1 p.2 acc) [])).lookup p).isSome
        = true := by
    intro p hp
    rw [isSome_lookup_foldl, isSome_lookup_foldl, positions]
    rcases bound p hp with position | name
    · exact .inr (.inl position)
    · exact .inl name
  unfold assignments
  split
  · exact .throw nofun
  dsimp only
  split
  next x missing =>
    have free := List.find?_some missing
    have given := values x (List.mem_of_find?_eq_some missing)
    rw [Option.isNone_iff_eq_none] at free
    rw [free] at given
    cases given
  next => exact .pure values

/-- A call that gives every parameter a value does not find a variable without one. -/
theorem OfText.call_failsAs (h : OfText f) {args : List Number} {byName : Bindings}
    (bound : ∀ p ∈ f.parameters,
      p ∈ f.parameters.take args.length ∨ p ∈ byName.map Prod.fst) :
    (f.call args byName).FailsAs (∀ x, · ≠ .unbound x) := by
  refine (assignments_ends bound).bind (R := fun _ => True) (fun values given => ?_) |>.fails
  refine .of_failsAs ((Expr.evaluate_failsAs h.formed.isWellFormed).mono ?_)
  rintro e ((numeric | ⟨s, rfl⟩) | ⟨y, hy, free, -⟩) x same
  · rw [same] at numeric
    exact numeric
  · cases same
  · have value := given y (h.formed.names y hy)
    rw [Bindings.find?] at free
    rw [free] at value
    cases value

end Definition

namespace Expr

/-- **No operation invents a variable.** A text is read with the allowed variables only, and what is
made of what is read has no others; it has a value only where all of its variables have one. And a
call of a definition that a text spells, or of a derivative of it of any order, does not find a
variable without a value if it gives every parameter one. -/
theorem variables_kept :
    (∀ {reading : Reading} {allowed : List String} {text : String} {t : Expr},
        parse reading (some allowed) text = .ok t → ∀ x ∈ t.names, x ∈ allowed) ∧
      (∀ {allowed : List String} {t : Expr}, Derived allowed t → (∀ x ∈ t.names, x ∈ allowed) ∧
        ∀ {bindings : Bindings} {z : Number}, evaluate bindings t = .ok z →
          ∀ x ∈ t.names, ∃ v, bindings.find? x = some v) ∧
      ∀ {f : Definition} {args : List Number} {byName : Bindings}, f.OfText →
        (∀ p ∈ f.parameters, p ∈ f.parameters.take args.length ∨ p ∈ byName.map Prod.fst) →
        ∀ x, f.call args byName ≠ .error (.unbound x) := by
  refine ⟨fun read => (parse_formed _ _ _ read).names, fun derived =>
    ⟨derived.formed.names, fun value => ?_⟩, fun text bound x failed => ?_⟩
  · exact evaluate_bound derived.formed.isWellFormed _ value
  · exact text.call_failsAs bound _ failed x rfl

omit [Tolerance] in
/-- The square of `x` times `y`, its simplification, and its derivative as a definition. -/
theorem variables_kept_square :
    letI := Double.standardTolerance
    let read := binary .mul (leaf (.monomial "x" .one (.ofInt 2))) (ofName "y")
    let slope := binary .mul (leaf (.monomial "x" (.ofInt 2) .one)) (ofName "y")
    let f : Definition := ⟨"f\x27", ["x", "y"], slope⟩
    let bindings : Bindings := [("x", .ofInt 3), ("y", .ofInt 4)]
    (∀ x ∈ read.names, x ∈ ["x", "y"]) ∧ (∀ x ∈ slope.names, x ∈ ["x", "y"]) ∧
      (∀ x ∈ slope.names, ∃ v, bindings.find? x = some v) ∧
      ∀ x, f.call [.ofInt 3] [("y", .ofInt 4)] ≠ .error (.unbound x) := by
  let := Double.standardTolerance
  intro read slope f bindings
  have text : parse .standard (some ["x", "y"]) "x^2*y" = .ok read := by decide +kernel
  have derivative : differentiate "x" read = .ok slope := by decide +kernel
  have simplified : simplify 2 slope = .ok slope := by decide +kernel
  have derived : Derived ["x", "y"] slope :=
    .simplify (.differentiate (.parse text) derivative) simplified
  have first : Definition.ofText .standard "f" ["x", "y"] "x^2*y" =
      .ok ⟨"f", ["x", "y"], read⟩ := Calc.bind_eq_ok.mpr ⟨_, text, rfl⟩
  have second : Definition.derive ⟨"f", ["x", "y"], read⟩ (some "x") = .ok f :=
    Calc.bind_eq_ok.mpr ⟨_, rfl, Calc.bind_eq_ok.mpr ⟨_, derivative, rfl⟩⟩
  have value : evaluate bindings slope = .ok (.ofInt 24) := by decide +kernel
  exact ⟨variables_kept.1 text, (variables_kept.2.1 derived).1, (variables_kept.2.1 derived).2 value,
    variables_kept.2.2 (.derive (.ofText first) second) (by decide)⟩

end Expr

end SymbolicAlgebra
