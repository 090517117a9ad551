import SymbolicAlgebra.Proofs.CommandLine

/-!
# Runs line by line

A run on several expressions writes what the runs on each of them write, one after the other, and
its status is one if that of any of them is (`CommandLine.run_lines`). It makes no difference
whether the expressions are arguments or lines of the input.

Two facts carry this. The words of the options read the same whatever stands behind the two dashes
that end them (`Options.read_append`), so that all these runs plan the same work under the same
settings. And an expression is handled under the job and the settings alone, which no expression
changes: what it writes before it fails stays written, and what comes after it starts afresh.
-/

namespace SymbolicAlgebra

/-! ## The words of options -/

namespace Options

variable {g : Grammar} {given : List Given} {words rest rest' : Words}

/-- The words are options with their arguments and nothing else: what each word of options gives,
in order. -/
inductive Reads (g : Grammar) : Words → List Given → Prop
  | none : Reads g [] []
  | word {word : List Char} {rest rest' : Words} {given more : List Given}
      (read : readWord g word rest = .ok (some (given, rest'))) (reads : Reads g rest' more) :
      Reads g (word :: rest) (given ++ more)

/-- A word of options takes some of the words behind it and does not look at the others. -/
theorem readShort_takes (cs : List Char) (h : readShort g rest cs = .ok (given, rest')) :
    ∃ taken, rest = taken ++ rest' ∧
      ∀ tail, readShort g (taken ++ tail) cs = .ok (given, tail) := by
  induction cs generalizing given with
  | nil =>
    cases h
    exact ⟨[], rfl, fun _ => rfl⟩
  | cons c cs ih =>
    unfold readShort at h ⊢
    split at h
    · cases h
    · -- an option without an argument, and the rest of its word
      cases hmore : readShort g rest cs with
      | error fault =>
        rw [hmore] at h
        cases h
      | ok more =>
        rw [hmore] at h
        cases h
        obtain ⟨taken, parts, reads⟩ := ih hmore
        exact ⟨taken, parts, fun tail => by rw [reads]; rfl⟩
    · cases cs with
      | cons =>
        cases h
        exact ⟨[], rfl, fun _ => rfl⟩
      | nil =>
        cases rest with
        | nil => cases h
        | cons argument rest =>
          cases h
          exact ⟨[argument], rfl, fun _ => rfl⟩

/-- A long option takes the word behind it, if it is to have an argument and none is attached. -/
theorem readLong_takes (word : List Char) {option : Given}
    (h : readLong g word rest = .ok (option, rest')) :
    ∃ taken, rest = taken ++ rest' ∧
      ∀ tail, readLong g word (taken ++ tail) = .ok (option, tail) := by
  unfold readLong at h ⊢
  generalize splitArgument word = split at h ⊢
  -- the text of an option only decides which option it is, and how it was attached
  obtain ⟨start, attached⟩ := split
  dsimp only at h ⊢
  generalize resolve g start = found at h ⊢
  rcases found with fault | ⟨name, _ | _⟩
  · cases h
  · cases attached with
    | some => cases h
    | none =>
      cases h
      exact ⟨[], rfl, fun _ => rfl⟩
  · -- an argument that is not attached is the next word
    cases attached with
    | some =>
      cases h
      exact ⟨[], rfl, fun _ => rfl⟩
    | none =>
      cases rest with
      | nil => cases h
      | cons argument rest =>
        cases h
        exact ⟨[argument], rfl, fun _ => rfl⟩

/-- A word of options takes what its one long option or its short ones take. -/
theorem readWord_takes (word : List Char)
    (h : readWord g word rest = .ok (some (given, rest'))) :
    ∃ taken, rest = taken ++ rest' ∧
      ∀ tail, readWord g word (taken ++ tail) = .ok (some (given, tail)) := by
  unfold readWord at h ⊢
  -- a word that is no option ends them, so nothing is taken
  split at h
  · cases h
  next name _ =>
    cases hlong : readLong g name rest with
    | error fault =>
      rw [hlong] at h
      cases h
    | ok long =>
      rw [hlong] at h
      cases h
      obtain ⟨taken, parts, reads⟩ := readLong_takes name hlong
      exact ⟨taken, parts, fun tail => by dsimp only; rw [reads]; rfl⟩
  next c cs _ _ =>
    cases hshort : readShort g rest (c :: cs) with
    | error fault =>
      rw [hshort] at h
      cases h
    | ok short =>
      rw [hshort] at h
      cases h
      obtain ⟨taken, parts, reads⟩ := readShort_takes (c :: cs) hshort
      exact ⟨taken, parts, fun tail => by rw [reads]; rfl⟩
  · cases h

/-- What one word of options gives stands in front of what the next ones give. -/
theorem readFrom_cons {n : ℕ} {word : List Char} (h : readWord g word rest = .ok (some (given, rest')))
    {more : List Given} {arguments : Words} (next : readFrom g n rest' = .ok (more, arguments)) :
    readFrom g (n + 1) (word :: rest) = .ok (given ++ more, arguments) := by
  simp only [readFrom, h, next, bind, Except.bind, pure, Except.pure]

/-- Options are read up to where they end. -/
theorem Reads.readFrom_append (h : Reads g words given) {tail arguments : Words}
    (ends : ∀ n, readFrom g n tail = .ok ([], arguments)) (n : ℕ) (enough : words.length ≤ n) :
    readFrom g n (words ++ tail) = .ok (given, arguments) := by
  induction h generalizing n with
  | none => exact ends n
  | @word word rest rest' given more read _ ih =>
    obtain ⟨taken, rfl, reads⟩ := readWord_takes word read
    simp only [List.length_cons, List.length_append] at enough
    obtain ⟨n, rfl⟩ : ∃ m, n = m + 1 := ⟨n - 1, by omega⟩
    rw [List.cons_append, List.append_assoc]
    exact readFrom_cons (reads _) (ih n (by omega))

/-- **Options read the same whatever stands behind the dashes that end them.** -/
theorem Reads.read_append (h : Reads g words given) (arguments : Words) :
    read g (words ++ ['-', '-'] :: arguments) = .ok (given, arguments) := by
  refine h.readFrom_append (fun n => ?_) _ (by simp)
  cases n <;> rfl

theorem Reads.read_eq (h : Reads g words given) : read g words = .ok (given, []) := by
  have ends (n : ℕ) : readFrom g n [] = .ok ([], []) := by cases n <;> rfl
  have read := h.readFrom_append ends words.length le_rfl
  rwa [List.append_nil] at read

/-- Where no arguments are left there is nothing, or the dashes that end the options. -/
theorem exists_reads_of_argumentsFrom (h : argumentsFrom words = []) :
    ∃ options, Reads g options [] ∧ (words = options ∨ words = options ++ [['-', '-']]) := by
  refine ⟨[], .none, ?_⟩
  unfold argumentsFrom at h
  split at h
  · exact .inr (by rw [h]; rfl)
  · exact .inl h

/-- Words that leave no arguments are read word by word, as options are. -/
theorem exists_reads_of_readFrom (n : ℕ) (h : readFrom g n words = .ok (given, [])) :
    ∃ options, Reads g options given ∧ (words = options ∨ words = options ++ [['-', '-']]) := by
  -- on the fuel, each word of an option using up at least one of it
  induction n generalizing words given with
  | zero =>
    simp only [readFrom, pure, Except.pure, Except.ok.injEq, Prod.mk.injEq] at h
    obtain ⟨rfl, last⟩ := h
    exact exists_reads_of_argumentsFrom last
  | succ n ih =>
    cases words with
    | nil =>
      cases h
      exact ⟨[], .none, .inl rfl⟩
    | cons word rest =>
      rcases first : readWord g word rest with fault | _ | ⟨some, rest'⟩ <;>
        rw [readFrom, first] at h
      · cases h
      · simp only [bind, Except.bind, pure, Except.pure, Except.ok.injEq, Prod.mk.injEq] at h
        obtain ⟨rfl, last⟩ := h
        exact exists_reads_of_argumentsFrom last
      · rcases next : readFrom g n rest' with fault | ⟨more, arguments⟩ <;>
          simp only [bind, Except.bind, next] at h <;> cases h
        obtain ⟨options, reads, shape⟩ := ih next
        obtain ⟨taken, rfl, takes⟩ := readWord_takes word first
        refine ⟨word :: (taken ++ options), .word (takes options) reads, ?_⟩
        rcases shape with rfl | rfl <;> simp

/-- Words that leave no arguments are options, perhaps with two dashes that end them. -/
theorem exists_reads_of_read (h : read g words = .ok (given, [])) :
    ∃ options, Reads g options given ∧ (words = options ∨ words = options ++ [['-', '-']]) :=
  exists_reads_of_readFrom _ h

end Options

/-! ## What the options ask for -/

namespace CommandLine

variable {requests : List Request} {job : Job} {settings : Settings}

/-- The requests neither ask for help nor for the version. -/
def AreWork (requests : List Request) : Prop := ∀ r ∈ requests, r ≠ .help ∧ r ≠ .version

instance (requests : List Request) : Decidable (AreWork requests) :=
  inferInstanceAs (Decidable (∀ r ∈ requests, r ≠ .help ∧ r ≠ .version))

/-- Without a request for help or the version, all requests are taken in. -/
theorem plan_of_areWork (h : AreWork requests) : plan settings job requests =
    (requests.foldl configure settings, .work (requests.foldl Job.take job)) := by
  induction requests generalizing settings job with
  | nil => rfl
  | cons request rest ih =>
    obtain ⟨first, others⟩ := List.forall_mem_cons.mp h
    have go : plan (configure settings request) (job.take request) rest = _ := ih others
    cases request with
    | help => exact absurd rfl first.1
    | version => exact absurd rfl first.2
    | _ => exact go

/-- Whether numerals are fractions, as a request tells. -/
def Request.exact? : Request → Option Bool
  | .exact on => some on
  | _ => none

/-- Whether inverse functions cancel, as a request tells. -/
def Request.peephole? : Request → Option Bool
  | .peephole on => some on
  | _ => none

/-- The last answer that requests give to a question, if any of them does. -/
def lastAnswer (answer : Request → Option Bool) : List Request → Option Bool
  | [] => none
  | request :: rest => (lastAnswer answer rest).or (answer request)

/-- The settings that requests leave behind, each by what was asked for last. -/
theorem foldl_configure (requests : List Request) (settings : Settings) :
    requests.foldl configure settings =
      { settings with
        reading :=
          ⟨(lastAnswer Request.exact? requests).getD settings.reading.exact,
            (lastAnswer Request.peephole? requests).getD settings.reading.peephole⟩
        debug := settings.debug || requests.contains .debug } := by
  induction requests generalizing settings with
  | nil => simp [lastAnswer]
  | cons request rest ih =>
    rw [List.foldl_cons, ih]
    cases request <;>
      simp [configure, lastAnswer, Request.exact?, Request.peephole?]

/-- To ask for the same once more changes nothing. -/
theorem foldl_configure_again (requests : List Request) (settings : Settings) :
    requests.foldl configure (requests.foldl configure settings) =
      requests.foldl configure settings := by
  rw [foldl_configure, foldl_configure]
  cases lastAnswer Request.exact? requests <;> cases lastAnswer Request.peephole? requests <;>
    simp

end CommandLine

/-! ## Silent sessions -/

namespace Session

variable {α β : Type}

/-- The session writes nothing. -/
def Silent (x : Session α) : Prop := x.lines = []

theorem silent_pure (a : α) : Silent (pure a : Session α) := rfl

theorem silent_lift (x : Calc α) : Silent (monadLift x : Session α) := rfl

/-- One silent session after another is silent. -/
theorem Silent.bind {x : Session α} {f : α → Session β} (hx : x.Silent)
    (hf : ∀ a, (f a).Silent) : Silent (x >>= f) := by
  obtain ⟨lines, result⟩ := x
  cases hx
  cases result with
  | error e => rfl
  | ok a => exact hf a

/-- What has been written stays written, whatever follows. -/
theorem prefix_bind (x : Session α) (f : α → Session β) : x.lines <+: (x >>= f).lines := by
  obtain ⟨lines, result⟩ := x
  cases result with
  | error e => exact List.prefix_refl _
  | ok a => exact List.prefix_append _ _

/-- A silent session adds nothing to the lines. -/
theorem lines_bind {x : Session α} {f : α → Session β} (h : ∀ a, (f a).Silent) :
    (x >>= f).lines = x.lines := by
  obtain ⟨lines, result⟩ := x
  cases result with
  | error e => rfl
  | ok a => exact (congrArg (lines ++ ·) (h a)).trans (List.append_nil lines)

/-- After the same beginning, more is written where more is written behind it. -/
theorem bind_mono (x : Session α) {f g : α → Session β} (h : ∀ a, (f a).lines <+: (g a).lines) :
    (x >>= f).lines <+: (x >>= g).lines := by
  obtain ⟨lines, result⟩ := x
  cases result with
  | error e => exact List.prefix_refl _
  | ok a => exact (List.prefix_append_right_inj lines).mpr (h a)

end Session

namespace CommandLine

variable [Tolerance] {requests : List Request} {job : Job} {settings : Settings}

/-- Unless trees are reported, nothing is written when an expression is read. -/
theorem readExpr_silent (quiet : settings.debug = false) (allowed : Option (List String))
    (text : String) : (readExpr settings allowed text).Silent := by
  refine Session.Silent.bind (Session.silent_lift _) fun t => ?_
  rw [quiet]
  exact Session.silent_pure t

/-- Unless trees are reported, nothing is written about the pieces of one request. -/
theorem readBindings_silent (quiet : settings.debug = false) (pieces : List (List Char))
    (bindings : Bindings) : (readBindings settings pieces bindings).Silent := by
  induction pieces generalizing bindings with
  | nil => exact Session.silent_pure bindings
  | cons piece rest ih =>
    refine Session.Silent.bind (Session.silent_lift _) fun (name, text) => ?_
    refine Session.Silent.bind (readExpr_silent quiet none text) fun t => ?_
    exact Session.Silent.bind (Session.silent_lift _) fun z => ih _

/-- Unless trees are reported, nothing is written about bindings that have a value. -/
theorem gatherBindings_silent (quiet : settings.debug = false) (requests : List Request)
    (found : Option Bindings) : (gatherBindings settings requests found).Silent := by
  induction requests generalizing found with
  | nil => exact Session.silent_pure found
  | cons request rest ih =>
    cases request with
    | bindings text => exact (readBindings_silent quiet _ []).bind fun _ => ih _
    | _ => exact ih found

/-! ## Expressions -/

variable [Printer]

/-- The first expression is handled, and then the others. -/
theorem handleAll_cons (settings : Settings) (job : Job) (t : String) (texts : List String) :
    handleAll settings job (t :: texts) =
      ⟨(handleAll settings job [t]).lines ++ (handleAll settings job texts).lines,
        if (handleAll settings job [t]).status = 1 then 1
        else (handleAll settings job texts).status⟩ := by
  unfold handleAll
  by_cases empty : t = ""
  · simp [empty]
  · cases fine : (handled settings job t).2 <;> simp [empty, fine]

/-- Expressions are handled one by one, each as if it were alone. -/
theorem handleAll_lines (settings : Settings) (job : Job) (texts : List String) :
    (handleAll settings job texts).lines =
      texts.flatMap fun t => (handleAll settings job [t]).lines := by
  induction texts with
  | nil => rfl
  | cons t texts ih => rw [handleAll_cons, List.flatMap_cons, ih]

/-- The status is one if that of any expression is. -/
theorem handleAll_status_eq (settings : Settings) (job : Job) (texts : List String) :
    (handleAll settings job texts).status =
      if ∃ t ∈ texts, (handleAll settings job [t]).status = 1 then 1 else 0 := by
  induction texts with
  | nil => simp [handleAll]
  | cons t texts ih =>
    rw [handleAll_cons]
    by_cases failed : (handleAll settings job [t]).status = 1 <;> simp [failed, ih]

/-- Empty expressions make no difference. -/
theorem handleAll_filter (settings : Settings) (job : Job) (texts : List String) :
    handleAll settings job (texts.filter (· != "")) = handleAll settings job texts := by
  unfold handleAll
  rw [List.filter_filter]
  simp only [Bool.and_self]

omit [Printer] in
/-- Every derivative is shown behind the ones before it. -/
theorem differentiateAll_keeps (settings : Settings) {job job' : Job}
    (same : job.simplify = job'.simplify) (t : Expr) {names more : List String}
    (h : names <+: more) : (differentiateAll settings job t names).lines <+:
      (differentiateAll settings job' t more).lines := by
  have simplified (t : Expr) : simplifyIf settings job t = simplifyIf settings job' t := by
    unfold simplifyIf
    rw [same]
  -- the derivatives are taken one after another, each from the one before
  induction more generalizing t names with
  | nil =>
    rw [List.prefix_nil.mp h]
    exact List.nil_prefix
  | cons name more ih =>
    cases names with
    | nil => exact List.nil_prefix
    | cons name' names =>
      obtain ⟨rfl, others⟩ := List.cons_prefix_cons.mp h
      unfold differentiateAll
      simp only [simplified]
      refine Session.bind_mono _ fun derivative => ?_
      refine Session.bind_mono _ fun simplified => ?_
      refine Session.bind_mono _ fun shown => ?_
      exact ih simplified others

/-- What is shown of an expression does not depend on the derivatives and the value that are asked
for behind it, nor on whether they exist. -/
theorem handle_keeps (settings : Settings) (job : Job) (text : String) {names : List String}
    (h : names <+: job.derivatives) :
    (handle settings { job with derivatives := names, bindings := none } text).lines <+:
      (handle settings job text).lines := by
  have behind (t : Expr) (k : Expr → Session Unit) :
      (differentiateAll settings { job with derivatives := names, bindings := none } t names >>=
          fun _ => pure ()).lines <+:
        (differentiateAll settings job t job.derivatives >>= k).lines := by
    rw [Session.lines_bind fun _ => Session.silent_pure ()]
    exact (differentiateAll_keeps settings (by rfl) t h).trans (Session.prefix_bind _ k)
  refine Session.bind_mono _ fun read => ?_
  refine Session.bind_mono _ fun t => ?_
  dsimp only
  -- the tree and the term are shown in front of the derivatives, if they are asked for
  split
  · refine Session.bind_mono _ fun description => ?_
    refine Session.bind_mono _ fun _ => ?_
    refine Session.bind_mono _ fun _ => ?_
    split
    · refine Session.bind_mono _ fun term => ?_
      refine Session.bind_mono _ fun _ => ?_
      exact behind t _
    · exact behind t _
  · refine Session.bind_mono _ fun _ => ?_
    split
    · refine Session.bind_mono _ fun term => ?_
      refine Session.bind_mono _ fun _ => ?_
      exact behind t _
    · exact behind t _

/-! ## Output -/

namespace Outcome

/-- What comes after some lines. -/
def behind (lines : List Line) (o : Outcome) : Outcome := { o with lines := lines ++ o.lines }

omit [Tolerance] [Printer] in
theorem output_append (first second : List Line) (status status' : ℕ) :
    (mk (first ++ second) status).output = (mk first status').output ++ (mk second status').output := by
  simp [output]

omit [Tolerance] [Printer] in
theorem output_behind {lines : List Line} (silent : ∀ line ∈ lines, line.output = "")
    (o : Outcome) : (o.behind lines).output = o.output := by
  rw [behind, output_append lines o.lines o.status o.status, output_of_silent silent]
  exact String.empty_append

end Outcome

/-- The output of a run is that of its expressions. -/
theorem output_handleAll (settings : Settings) (job : Job) (texts : List String) :
    (handleAll settings job texts).output =
      String.join (texts.map fun t => (handleAll settings job [t]).output) := by
  induction texts with
  | nil => rfl
  | cons t texts ih =>
    rw [handleAll_cons, Outcome.output_append _ _ _ 0, List.map_cons, String.join_cons, ← ih]
    rfl

/-- A failure is reported behind what the expression has written, and not in the output. -/
theorem output_handleAll_one (settings : Settings) (job : Job) {t : String} (filled : t ≠ "") :
    (handleAll settings job [t]).output =
      String.join ((handle settings job t).lines.map Line.output) := by
  have lines : (handleAll settings job [t]).lines = (handled settings job t).1 := by
    simp [handleAll, filled]
  unfold Outcome.output
  rw [lines]
  unfold handled
  dsimp only
  split <;> simp [Line.output]

/-! ## Runs -/

variable {words : List String} {given : List Options.Given} {bindings : Option Bindings}

/-- What a run does that neither shows the help text nor the version. -/
theorem run_eq_work (settings : Settings) (arguments : List String) (input : String)
    (read : Options.read grammar (words.map String.toList) =
      .ok (given, arguments.map String.toList))
    (areWork : AreWork (given.filterMap Request.ofGiven?)) :
    let requests := given.filterMap Request.ofGiven?
    let after := requests.foldl configure settings
    run settings words input =
      (after, work after (requests.foldl Job.take .empty) requests arguments input) := by
  unfold run
  rw [read]
  dsimp only
  rw [plan_of_areWork areWork]
  simp

omit [Printer] in
/-- Bindings that are not refused have values. -/
theorem exists_bindings (read : Options.read grammar (words.map String.toList) = .ok (given, []))
    (areWork : AreWork (given.filterMap Request.ofGiven?)) (accepted : ¬Refused settings words) :
    let requests := given.filterMap Request.ofGiven?
    ∃ bindings, (gatherBindings (requests.foldl configure settings) requests none).result =
      .ok bindings := by
  intro requests
  unfold Refused at accepted
  rw [read] at accepted
  dsimp only at accepted
  rw [plan_of_areWork areWork] at accepted
  cases found : (gatherBindings (requests.foldl configure settings) requests none).result with
  | error f => exact absurd ⟨f, found⟩ accepted
  | ok bindings => exact ⟨bindings, rfl⟩

/-- With accepted bindings, the work of a run comes to its end. -/
theorem work_eq (arguments : List String) (input : String)
    (found : (gatherBindings settings requests none).result = .ok bindings) :
    work settings job requests arguments input =
      .ok ((handleAll settings { job with bindings := bindings }
        (if arguments.isEmpty then inputTexts input else arguments)).behind
          (gatherBindings settings requests none).lines) := by
  unfold work
  dsimp only
  rw [found]
  rfl

/-- **Runs line by line.** A run on expressions writes what the runs on each of them write, in
order, and its status is one if one of theirs is; on the lines of the input, it is the same as on
the expressions in them. Each of these runs may come before or after others with these options.
What an expression writes before it fails stays written. -/
theorem run_lines {options : List String} (settings : Settings) (texts : List String)
    (valid : Options.Reads grammar (options.map String.toList) given)
    (areWork : AreWork (given.filterMap Request.ofGiven?)) (accepted : ¬Refused settings options)
    (nonempty : texts ≠ []) :
    let requests := given.filterMap Request.ofGiven?
    let after := requests.foldl configure settings
    ∃ (bindings : Option Bindings) (alone : String → Outcome) (whole : Outcome),
      (gatherBindings after requests none).result = .ok bindings ∧
      (∀ s, s = settings ∨ s = after → ∀ input,
        (∀ t ∈ texts, run s (options ++ ["--", t]) input = (after, .ok (alone t))) ∧
        run s (options ++ "--" :: texts) input = (after, .ok whole) ∧
        ((inputTexts input).filter (· != "") = texts → run s options input = (after, .ok whole))) ∧
      whole.output = String.join (texts.map fun t => (alone t).output) ∧
      (settings.debug = false → .debug ∉ requests →
        whole.lines = texts.flatMap fun t => (alone t).lines) ∧
      whole.status = (if ∃ t ∈ texts, (alone t).status = 1 then 1 else 0) ∧
      ∀ t ∈ texts, t ≠ "" → (alone t).output = String.join ((handle after
        { requests.foldl Job.take .empty with bindings := bindings } t).lines.map Line.output) := by
  intro requests after
  obtain ⟨bindings, found⟩ := exists_bindings valid.read_eq areWork accepted
  have silent := (gatherBindings_reports after requests none).silent
  have same (s : Settings) (hs : s = settings ∨ s = after) :
      requests.foldl configure s = after := by
    rcases hs with rfl | rfl
    · rfl
    · exact foldl_configure_again requests settings
  set written := (gatherBindings after requests none).lines with hwritten
  set job : Job := { requests.foldl Job.take .empty with bindings := bindings }
  have behindDashes (s : Settings) (hs : s = settings ∨ s = after) (t : String)
      (texts : List String) (input : String) : run s (options ++ "--" :: t :: texts) input =
        (after, .ok ((handleAll after job (t :: texts)).behind written)) := by
    have read := valid.read_append ((t :: texts).map String.toList)
    rw [run_eq_work s (t :: texts) input (by simpa using read) areWork, same s hs,
      work_eq _ _ found]
    rfl
  have fromInput (s : Settings) (hs : s = settings ∨ s = after) (input : String) :
      run s options input =
        (after, .ok ((handleAll after job (inputTexts input)).behind written)) := by
    rw [run_eq_work s [] input valid.read_eq areWork, same s hs, work_eq _ _ found]
    rfl
  -- every run is the outcome of `handleAll` behind what the bindings have written
  refine ⟨bindings, fun t => (handleAll after job [t]).behind written,
    (handleAll after job texts).behind written, found,
    fun s hs input => ⟨fun t _ => ?alone, ?whole, fun h => ?input⟩,
    ?output, fun quiet unasked => ?lines, ?status, fun t _ filled => ?kept⟩
  case alone => exact behindDashes s hs t [] input
  case whole =>
    obtain ⟨t, texts, rfl⟩ := List.exists_cons_of_ne_nil nonempty
    exact behindDashes s hs t texts input
  case input => rw [fromInput s hs, ← h, handleAll_filter]
  case output =>
    simp only [Outcome.output_behind silent]
    exact output_handleAll after job texts
  case lines =>
    have calm : after.debug = false := by
      rw [show after = _ from foldl_configure requests settings]
      simp [quiet, unasked]
    have nothing : written = [] := gatherBindings_silent calm requests none
    simp only [nothing, Outcome.behind, List.nil_append]
    exact handleAll_lines after job texts
  case status => exact handleAll_status_eq after job texts
  case kept =>
    rw [Outcome.output_behind silent]
    exact output_handleAll_one after job filled

omit [Tolerance] [Printer] in
/-- The derivative of the first expression does not exist: what had been shown of it stays, and the
second one is handled all the same. -/
theorem run_lines_of_factorial :
    letI := Double.standardTolerance
    letI := Printer.absent
    let options := ["-x", "x", "--eval", "x=2"]
    let failure := "error: IncompatibleOperandsError: " ++
      "can not differentiate the factorial of an expression in \"x\""
    let first : Outcome := ⟨[.out "x!", .log failure], 1⟩
    let second : Outcome := ⟨[.out "2x", .out "2", .out "2"], 0⟩
    let whole : Outcome := ⟨first.lines ++ second.lines, 1⟩
    run .standard (options ++ ["--", "x!"]) "" = (.standard, .ok first) ∧
      run .standard (options ++ ["--", "x + x"]) "" = (.standard, .ok second) ∧
      run .standard (options ++ ["--", "x!", "x + x"]) "" = (.standard, .ok whole) ∧
      run .standard options " x!\n\nx + x " = (.standard, .ok whole) ∧
      whole.output = "x!\n2x\n2\n2\n" := by
  let standard := Double.standardTolerance
  let absent := Printer.absent
  intro options failure first second whole
  have derivative :
      Options.readWord grammar "-x".toList ["x".toList, "--eval".toList, "x=2".toList] =
        .ok (some ([("-x".toList, "x".toList)], ["--eval".toList, "x=2".toList])) := by
    decide +kernel
  have binding : Options.readWord grammar "--eval".toList ["x=2".toList] =
      .ok (some ([("--eval".toList, "x=2".toList)], [])) := by
    decide +kernel
  have valid : Options.Reads grammar (options.map String.toList)
      [("-x".toList, "x".toList), ("--eval".toList, "x=2".toList)] :=
    .word derivative (.word binding .none)
  have accepted : ¬Refused .standard options := by
    unfold Refused
    rw [valid.read_eq]
    rintro ⟨f, failed⟩
    have failed : _ = false := congrArg Except.isOk failed
    exact absurd failed (by decide +kernel)
  obtain ⟨-, alone, all, -, runs, -, lines, status, -⟩ :=
    run_lines .standard ["x!", "x + x"] valid (by decide +kernel) accepted (by decide)
  have runFirst : run .standard (options ++ ["--", "x!"]) "" = (.standard, .ok first) := by
    decide +kernel
  have runSecond : run .standard (options ++ ["--", "x + x"]) "" = (.standard, .ok second) := by
    decide +kernel
  -- what the two runs write is what the whole run is made of
  have before := runs .standard (.inl rfl) ""
  have isFirst : alone "x!" = first := by
    have same := runFirst.symm.trans (before.1 "x!" (by simp))
    exact (Except.ok.inj (congrArg Prod.snd same)).symm
  have isSecond : alone "x + x" = second := by
    have same := runSecond.symm.trans (before.1 "x + x" (by simp))
    exact (Except.ok.inj (congrArg Prod.snd same)).symm
  have isWhole : all = whole := by
    have lines := lines rfl (by decide +kernel)
    simp only [List.flatMap_cons, List.flatMap_nil, List.append_nil, isFirst, isSecond] at lines
    have status : all.status = 1 := by rw [status]; simp [isFirst, first]
    cases all
    cases lines
    cases status
    rfl
  subst isWhole
  exact ⟨runFirst, runSecond, before.2.1,
    (runs .standard (.inl rfl) " x!\n\nx + x ").2.2 (by decide +kernel), by decide +kernel⟩

end CommandLine

end SymbolicAlgebra
