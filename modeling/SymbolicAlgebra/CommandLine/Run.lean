import SymbolicAlgebra.CommandLine.Options
import SymbolicAlgebra.CommandLine.Session
import SymbolicAlgebra.Derivative
import SymbolicAlgebra.Expr.Read
import SymbolicAlgebra.Settings
import SymbolicAlgebra.Simplify
import SymbolicAlgebra.Term.Exchange
import SymbolicAlgebra.Text.Characters

/-!
# The command line

A run reads its options, then handles expressions one by one: each is read, simplified if
asked for, shown, differentiated as often as asked for and evaluated under the given
bindings. The expressions are the arguments, or the lines of the standard input if there are
no arguments. An expression that fails is reported and the next one is handled; wrong
options and bindings end the run before the first.

`CommandLine.run` is all of it as a function: from settings, arguments and input to the
lines written and the status, and the settings that the options leave behind. What another system
prints for an expression, if that is asked for, is given from outside (`Printer`).
-/

namespace SymbolicAlgebra

namespace CommandLine

/-- The version. -/
def version : String := "1.0.0"

/-- The help text, without the end of its last line. -/
def help : String :=
  "usage: symtree [options] [expression ...]\n" ++
  "\n" ++
  "  -h, --help                 - Show help information\n" ++
  "  -v, --version              - Show version string\n" ++
  "  -d, --debug                - Dump debug info to stderr\n" ++
  "  -s, --simplify             - Run global simplification on the parsed tree\n" ++
  "  -p, --py                   - Also print the expression as SymPy sees it\n" ++
  "  -x VAR, --diff=VAR         - Differentiate with respect to VAR, repeat for higher derivatives\n" ++
  "  -e BINDS, --eval=BINDS     - Evaluate with bindings given as \"x=1,y=2i\"\n" ++
  "  -a VARS, --allow=VARS      - Only allow the variables named in VARS, e.g. \"xy\"\n" ++
  "  --exact, --noexact         - Read decimal literals as exact rationals or as floats\n" ++
  "  --peephole, --nopeephole   - Cancel adjacent inverse function pairs while parsing\n" ++
  "\n" ++
  "Expressions are read one per line from stdin if none are given on the command line."

/-- The options that a run takes. -/
def grammar : Options.Grammar where
  short := [('h', false), ('v', false), ('d', false), ('s', false), ('p', false), ('x', true),
    ('e', true), ('a', true)]
  long := [("help".toList, false), ("version".toList, false), ("debug".toList, false),
    ("simplify".toList, false), ("py".toList, false), ("diff".toList, true),
    ("eval".toList, true), ("allow".toList, true), ("exact".toList, false),
    ("noexact".toList, false), ("peephole".toList, false), ("nopeephole".toList, false)]

/-- What an option asks for. -/
inductive Request where
  /-- Show the help text. -/
  | help
  /-- Show the version. -/
  | version
  /-- Report trees as they are read. -/
  | debug
  /-- Simplify. -/
  | simplify
  /-- Show the expression as another system prints it, too. -/
  | term
  /-- Differentiate with respect to a variable. -/
  | derivative (name : String)
  /-- Evaluate under bindings. -/
  | bindings (text : String)
  /-- Allow only the variables of a text. -/
  | allow (names : String)
  /-- Read numerals as fractions, or as doubles. -/
  | exact (on : Bool)
  /-- Cancel inverse functions, or not. -/
  | peephole (on : Bool)
  deriving DecidableEq, Repr

/-- What a given option asks for. -/
def Request.ofGiven? (given : Options.Given) : Option Request :=
  let argument := String.ofList given.2
  match String.ofList given.1 with
  | "-h" | "--help" => some .help
  | "-v" | "--version" => some .version
  | "-d" | "--debug" => some .debug
  | "-s" | "--simplify" => some .simplify
  | "-p" | "--py" => some .term
  | "-x" | "--diff" => some (.derivative argument)
  | "-e" | "--eval" => some (.bindings argument)
  | "-a" | "--allow" => some (.allow argument)
  | "--exact" => some (.exact true)
  | "--noexact" => some (.exact false)
  | "--peephole" => some (.peephole true)
  | "--nopeephole" => some (.peephole false)
  | _ => none

/-- What is done with every expression. -/
structure Job where
  /-- Whether to simplify. -/
  simplify : Bool
  /-- Whether to show what another system prints. -/
  term : Bool
  /-- The variables to differentiate with respect to, in order. -/
  derivatives : List String
  /-- The bindings to evaluate under. -/
  bindings : Option Bindings
  /-- The variables that are allowed; all are, if this is none. -/
  allowed : Option (List String)

/-- Nothing but to show the expression. -/
def Job.empty : Job := ⟨false, false, [], none, none⟩

/-- Take in a request that is not about bindings. -/
def Job.take (job : Job) : Request → Job
  | .simplify => { job with simplify := true }
  | .term => { job with term := true }
  | .derivative name => { job with derivatives := job.derivatives ++ [name] }
  | .allow names => { job with allowed := some (names.toList.map String.singleton) }
  | _ => job

/-- Change the settings as a request asks. -/
def configure (settings : Settings) : Request → Settings
  | .debug => { settings with debug := true }
  | .exact on => { settings with reading := { settings.reading with exact := on } }
  | .peephole on => { settings with reading := { settings.reading with peephole := on } }
  | _ => settings

/-- What the requests come to: a text to show and nothing else, or a job. -/
inductive Plan where
  /-- Show a text. -/
  | display (text : String)
  /-- Handle expressions. -/
  | work (job : Job)

/-- Go through the requests in order. The first one for help or the version ends it; the
settings changed by then stay changed. -/
def plan (settings : Settings) (job : Job) : List Request → Settings × Plan
  | [] => (settings, .work job)
  | .help :: _ => (settings, .display (help ++ "\n"))
  | .version :: _ => (settings, .display version)
  | request :: rest => plan (configure settings request) (job.take request) rest

variable [Tolerance] [Printer]

/-- Read an expression, and report it if trees are reported. -/
def readExpr (settings : Settings) (allowed : Option (List String)) (text : String) :
    Session Expr := do
  let t ← Expr.parse settings.reading allowed text
  if settings.debug then Session.write (.note ("parse: " ++ (← t.describe)))
  pure t

/-! ## Bindings -/

/-- The variable and the expression text of a binding `x=1`. -/
def splitBinding (piece : List Char) : Calc (String × String) :=
  let name := Text.strip (piece.takeWhile (· != '='))
  match piece.dropWhile (· != '='), name with
  | _ :: text, [c] =>
    if Text.isLetter c then pure (String.singleton c, String.ofList text)
    else throw (.binding (String.ofList piece))
  | _, _ => throw (.binding (String.ofList piece))

/-- Put a value under a name, over an older one. -/
def bind (name : String) (z : Number) (bindings : Bindings) : Bindings :=
  (name, z) :: bindings.filter fun p => p.1 != name

/-- Read and evaluate bindings one after the other. -/
def readBindings (settings : Settings) : List (List Char) → Bindings → Session Bindings
  | [], bindings => pure bindings
  | piece :: rest, bindings => do
    let (name, text) ← splitBinding piece
    let t ← readExpr settings none text
    let z ← t.evaluate []
    readBindings settings rest (bind name z bindings)

/-- The pieces of a text of bindings: those between commas that are not blank. -/
def bindingPieces (text : String) : List (List Char) :=
  ((Text.pieces ',' text.toList).map Text.strip).filter fun piece => !piece.isEmpty

/-- The bindings that the requests give. Later ones replace earlier ones as a whole. -/
def gatherBindings (settings : Settings) : List Request → Option Bindings →
    Session (Option Bindings)
  | [], found => pure found
  | .bindings text :: rest, _ => do
    let bindings ← readBindings settings (bindingPieces text) []
    gatherBindings settings rest (some bindings)
  | _ :: rest, found => gatherBindings settings rest found

/-- Whether a failure in the bindings is reported; any other one leaves the run. -/
def isReported (f : Failure) : Bool :=
  f.isValue || f.isName || f.isArithmetic || f.isMalformed

/-! ## Expressions -/

/-- Simplify, if that is asked for. -/
def simplifyIf (settings : Settings) (job : Job) (t : Expr) : Calc Expr :=
  if job.simplify then t.simplify settings.depth else pure t

/-- Show an expression. -/
def showExpr (settings : Settings) (t : Expr) : Session Unit := do
  Session.print (← t.text settings.layout)

/-- Differentiate with respect to one variable after the other, and show each result. -/
def differentiateAll (settings : Settings) (job : Job) (t : Expr) :
    List String → Session Expr
  | [] => pure t
  | name :: rest => do
    let t ← simplifyIf settings job (← t.differentiate name)
    showExpr settings t
    differentiateAll settings job t rest

/-- Handle one expression. -/
def handle (settings : Settings) (job : Job) (text : String) : Session Unit := do
  let t ← readExpr settings job.allowed text
  let t ← simplifyIf settings job t
  if settings.debug then Session.write (.log ("tree: " ++ (← t.describe)))
  showExpr settings t
  if job.term then Session.print (← Printer.expr t)
  let t ← differentiateAll settings job t job.derivatives
  match job.bindings with
  | some bindings => Session.print (← (← t.evaluate bindings).text)
  | none => pure ()

/-- The lines of one expression; a failure is reported behind them. -/
def handled (settings : Settings) (job : Job) (text : String) : List Line × Bool :=
  let session := handle settings job text
  match session.result with
  | .ok _ => (session.lines, true)
  | .error f => (session.lines ++ [.log ("error: " ++ f.kind ++ ": " ++ f.message)], false)

/-! ## Runs -/

/-- What a run writes, and its status. -/
structure Outcome where
  /-- The lines, in order. -/
  lines : List Line
  /-- The status: `0` if all went well, `1` if an expression failed, `2` if the options or
  bindings are wrong. -/
  status : Nat
  deriving DecidableEq, Repr

/-- All that goes to the output. -/
def Outcome.output (o : Outcome) : String := String.join (o.lines.map Line.output)

/-- All that goes to the messages. -/
def Outcome.messages (stamp : String) (o : Outcome) : String :=
  String.join (o.lines.map (Line.messages stamp))

/-- Handle expressions; empty ones are left out. -/
def handleAll (settings : Settings) (job : Job) (texts : List String) : Outcome :=
  let results := (texts.filter (· != "")).map (handled settings job)
  ⟨results.flatMap Prod.fst, if results.all Prod.snd then 0 else 1⟩

/-- The expressions of the standard input: its lines without the blanks around them. -/
def inputTexts (input : String) : List String :=
  (Text.pieces '\n' input.toList).map fun line => String.ofList (Text.strip line)

/-- Handle the arguments, or the standard input if there are none, under the bindings that
the requests give. -/
def work (settings : Settings) (job : Job) (requests : List Request) (arguments : List String)
    (input : String) : Calc Outcome :=
  let session := gatherBindings settings requests none
  match session.result with
  | .error f =>
    if isReported f then
      pure ⟨session.lines ++ [.log ("error: " ++ f.message)], 2⟩
    else throw f
  | .ok bindings =>
    let texts := if arguments.isEmpty then inputTexts input else arguments
    let outcome := handleAll settings { job with bindings := bindings } texts
    pure { outcome with lines := session.lines ++ outcome.lines }

/-- Whether a run handles expressions and has none among its arguments. -/
def readsInput (settings : Settings) (words : List String) : Bool :=
  match Options.read grammar (words.map String.toList) with
  | .ok (given, []) =>
    match (plan settings .empty (given.filterMap Request.ofGiven?)).2 with
    | .work _ => true
    | .display _ => false
  | _ => false

/-- A run of the command line: the settings it leaves behind, and what it writes. -/
def run (settings : Settings) (words : List String) (input : String) :
    Settings × Calc Outcome :=
  match Options.read grammar (words.map String.toList) with
  | .error fault =>
    (settings, .ok ⟨[.note (fault.message ++ "\n\n" ++ help)], 2⟩)
  | .ok (given, arguments) =>
    let requests := given.filterMap Request.ofGiven?
    match plan settings .empty requests with
    | (settings, .display text) => (settings, .ok ⟨[.out text], 0⟩)
    | (settings, .work job) =>
      (settings, work settings job requests (arguments.map String.ofList) input)

end CommandLine

end SymbolicAlgebra
