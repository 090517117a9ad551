import SymbolicAlgebra.CommandLine.Run
import SymbolicAlgebra.Proofs.Failures.Evaluation
import SymbolicAlgebra.Proofs.Parse.Failures

/-!
# How a run ends

A run of the command line ends with a status of at most two, and one that is refused, for wrong
options or a wrong binding, has status two and writes nothing to the output
(`CommandLine.run_ends`).

Two failures leave a run: a factorial without a value, and a fraction that became a double where
only a fraction will do. Both come from the bindings. These are read and evaluated before the
first expression, and not everything that can go wrong there is reported
(`CommandLine.isReported`), while whatever goes wrong in an expression is.
-/

namespace SymbolicAlgebra

/-! ## Sessions -/

/-- The session writes messages only, and its result is reached or missed as told. -/
structure Session.Reports {α : Type} (x : Session α) (P : Failure → Prop) (Q : α → Prop) :
    Prop where
  silent : ∀ line ∈ x.lines, line.output = ""
  ends : Ends x.result P Q

namespace Session.Reports

variable {α β : Type} {P : Failure → Prop} {Q : α → Prop} {R : β → Prop}

theorem pure {a : α} (h : Q a) : Reports (Pure.pure a : Session α) P Q := ⟨nofun, .pure h⟩

/-- A calculation in a session writes nothing, and ends as it does by itself. -/
theorem lift {x : Calc α} (h : Ends x P Q) : Reports (monadLift x : Session α) P Q := ⟨nofun, h⟩

theorem write {line : Line} (silent : line.output = "") :
    Reports (Session.write line) P fun _ => True :=
  ⟨fun _ hl => List.mem_singleton.mp hl ▸ silent, .pure True.intro⟩

/-- What comes after the first session is asked for its results only. -/
theorem bind {x : Session α} {f : α → Session β} (hx : x.Reports P Q)
    (hf : ∀ a, Q a → (f a).Reports P R) : Reports (x >>= f) P R := by
  obtain ⟨lines, result⟩ := x
  cases result with
  | error e => exact ⟨hx.silent, .throw (hx.ends.fails e rfl)⟩
  | ok a =>
    have rest := hf a (hx.ends.returns a rfl)
    refine ⟨fun line hl => ?_, rest.ends⟩
    rcases List.mem_append.mp hl with hl | hl
    · exact hx.silent line hl
    · exact rest.silent line hl

end Session.Reports

/-! ## Failures -/

/-- The failures that leave a run. -/
def Failure.LeavesRun (f : Failure) : Prop := (∃ s, f = .factorial s) ∨ ∃ part, f = .widened part

namespace CommandLine

/-- A failure of the bindings. -/
def IsBinding (f : Failure) : Prop := isReported f = true ∨ f.LeavesRun

/-- What goes wrong in arithmetic is reported, or leaves the run. -/
theorem isBinding_of_numeric {f : Failure} (h : f.IsNumeric) : IsBinding f := by
  cases f with
  | widened part => exact .inr (.inr ⟨part, rfl⟩)
  | undefined | tooWide | doubleByZero | outsideDomain => exact .inl rfl
  | _ => cases h

theorem isBinding_of_reading {f : Failure} (h : f.IsReading) : IsBinding f := by
  cases f with
  | malformed | variableNotAllowed | wholeNumeral | decimalNumeral => exact .inl rfl
  | _ => exact isBinding_of_numeric h

/-- What goes wrong in evaluating, where no variable has a value. -/
theorem isBinding_of_evaluation {f : Failure} {names : List String}
    (h : f.IsEvaluation [] names) : IsBinding f := by
  rcases h with (numeric | factorial) | ⟨x, -, -, rfl⟩
  · exact isBinding_of_numeric numeric
  · exact .inr (.inl factorial)
  · exact .inl rfl

end CommandLine

/-! ## Bindings -/

variable [Tolerance]

/-- The description of a tree fails in arithmetic only, at its coefficients. -/
theorem Expr.describe_failsAs (t : Expr) : t.describe.FailsAs Failure.IsNumeric := by
  induction t with
  | absent => exact .pure _
  | leaf a =>
    cases a with
    | number z =>
      refine Number.describe_failsAs.bind fun text => ?_
      exact .pure _
    | monomial x m p =>
      refine Number.describe_failsAs.bind fun mult => ?_
      refine Value.describe_failsAs.bind fun power => ?_
      exact .pure _
  | node op l r ihl ihr =>
    refine ihl.bind fun left => ?_
    refine ihr.bind fun right => ?_
    exact .pure _

namespace CommandLine

variable (settings : Settings)

/-- What is read has all its operands. -/
theorem readExpr_reports (allowed : Option (List String)) (text : String) :
    (readExpr settings allowed text).Reports IsBinding (·.isWellFormed = true) := by
  have parsed : Ends (Expr.parse settings.reading allowed text) IsBinding (·.isWellFormed = true) :=
    (Expr.parse_ends settings.reading allowed text).mono (fun _ => isBinding_of_reading)
      fun _ h => h.isWellFormed
  refine Session.Reports.bind (.lift parsed) fun t ht => ?_
  have done : (pure t : Session Expr).Reports IsBinding (·.isWellFormed = true) := .pure ht
  dsimp only
  split
  · -- the tree is described in a message before it is returned
    have described := t.describe_failsAs.mono fun _ => isBinding_of_numeric
    refine Session.Reports.bind (.lift (.of_failsAs described)) fun text _ => ?_
    refine Session.Reports.bind (.write rfl) fun _ _ => ?_
    exact done
  · exact done

omit [Tolerance] in
/-- A piece without a name is refused with a failure that is reported. -/
theorem splitBinding_failsAs (piece : List Char) : (splitBinding piece).FailsAs IsBinding := by
  have refused : Calc.FailsAs IsBinding
      (throw (.binding (String.ofList piece)) : Calc (String × String)) := .throw (.inl rfl)
  unfold splitBinding
  dsimp only
  split
  · split
    · exact .pure _
    · exact refused
  · exact refused

/-- Every binding is read and evaluated without variables. -/
theorem readBindings_reports (pieces : List (List Char)) (bindings : Bindings) :
    (readBindings settings pieces bindings).Reports IsBinding fun _ => True := by
  induction pieces generalizing bindings with
  | nil => exact .pure True.intro
  | cons piece rest ih =>
    refine .bind (.lift (.of_failsAs (splitBinding_failsAs piece))) fun (name, text) _ => ?_
    refine .bind (readExpr_reports settings none text) fun t ht => ?_
    have evaluated : (t.evaluate []).FailsAs IsBinding :=
      (Expr.evaluate_failsAs ht).mono fun _ => isBinding_of_evaluation
    refine .bind (.lift (.of_failsAs evaluated)) fun z _ => ?_
    exact ih _

/-- A factorial without a value, which is not reported. -/
example :
    letI := Double.standardTolerance
    (readBindings .standard ["x=(1/2)!".toList] []).result = .error (.factorial "1/2") ∧
      isReported (.factorial "1/2") = false := by
  decide +kernel

/-- All bindings that are asked for are read, the later ones in place of the earlier. -/
theorem gatherBindings_reports (requests : List Request) (found : Option Bindings) :
    (gatherBindings settings requests found).Reports IsBinding fun _ => True := by
  induction requests generalizing found with
  | nil => exact .pure True.intro
  | cons request rest ih =>
    cases request with
    | bindings text =>
      refine .bind (readBindings_reports settings _ []) fun bindings _ => ?_
      exact ih _
    | _ => exact ih found

/-! ## Runs -/

/-- The run is refused: its options are wrong, or it handles expressions and a binding has no
value. -/
def Refused (settings : Settings) (words : List String) : Prop :=
  match Options.read grammar (words.map String.toList) with
  | .error _ => True
  | .ok (given, _) =>
    match plan settings .empty (given.filterMap Request.ofGiven?) with
    | (_, .display _) => False
    | (settings, .work _) =>
      ∃ f, (gatherBindings settings (given.filterMap Request.ofGiven?) none).result = .error f

omit [Tolerance] in
/-- Lines that are only messages leave the output empty. -/
theorem output_of_silent {lines : List Line} (h : ∀ line ∈ lines, line.output = "")
    (status : ℕ) : (Outcome.mk lines status).output = "" := by
  unfold Outcome.output
  dsimp only
  induction lines with
  | nil => rfl
  | cons line rest ih =>
    rw [List.forall_mem_cons] at h
    rw [List.map_cons, String.join_cons, h.1, ih h.2]
    rfl

variable [Printer]

/-- An expression that fails counts as a failed run, and never as a refused one. -/
theorem handleAll_status (job : Job) (texts : List String) :
    (handleAll settings job texts).status ≤ 1 := by
  unfold handleAll
  dsimp only
  split <;> omega

/-- The work of a run has status two just if the bindings fail. -/
theorem work_ends (job : Job) (requests : List Request) (arguments : List String) (input : String) :
    Ends (work settings job requests arguments input) Failure.LeavesRun fun o =>
      o.status ≤ 2 ∧ (o.status = 2 → o.output = "") ∧
        (o.status = 2 ↔ ∃ f, (gatherBindings settings requests none).result = .error f) := by
  have reports := gatherBindings_reports settings requests none
  unfold work
  dsimp only
  split
  next f failed =>
    -- a failure of the bindings refuses the run if it is reported, and leaves it otherwise
    split
    next =>
      refine .pure ⟨le_rfl, fun _ => output_of_silent ?_ 2, ⟨fun _ => ⟨f, failed⟩, fun _ => rfl⟩⟩
      exact List.forall_mem_append.mpr ⟨reports.silent, List.forall_mem_singleton.mpr rfl⟩
    next unreported => exact .throw ((reports.ends.fails f failed).resolve_left unreported)
  next bindings read =>
    have status := handleAll_status settings { job with bindings := bindings }
      (if arguments.isEmpty = true then inputTexts input else arguments)
    have worked := Nat.ne_of_lt (Nat.lt_succ_of_le status)
    refine .pure ⟨status.trans one_le_two, fun h => absurd h worked, fun h => absurd h worked, ?_⟩
    rintro ⟨f, failed⟩
    cases read.symm.trans failed

/-- **How a run ends**: with a status of at most two, which is two just if the run is refused, and
then nothing has been written to the output; or with one of two failures that the bindings do not
report. -/
theorem run_ends (settings : Settings) (words : List String) (input : String) :
    Ends (run settings words input).2 Failure.LeavesRun fun o =>
      o.status ≤ 2 ∧ (o.status = 2 → o.output = "") ∧ (o.status = 2 ↔ Refused settings words) := by
  rcases read : Options.read grammar (words.map String.toList) with fault | ⟨given, arguments⟩
  · simp only [run, Refused, read]
    exact .pure ⟨le_rfl, fun _ => rfl, fun _ => True.intro, fun _ => rfl⟩
  · rcases planned : plan settings .empty (given.filterMap Request.ofGiven?) with
      ⟨settings', text | job⟩
    · simp only [run, Refused, read, planned]
      exact .pure ⟨Nat.zero_le 2, nofun, nofun, False.elim⟩
    · simp only [run, Refused, read, planned]
      exact work_ends ..

end CommandLine

end SymbolicAlgebra
