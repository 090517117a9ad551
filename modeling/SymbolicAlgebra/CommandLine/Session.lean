import SymbolicAlgebra.Failure

/-!
# Sessions

A computation that writes lines as it goes and may fail: what was written before a failure
stays written. A `Session` is the list of lines together with the result, so a run is a
value that can be compared and put behind another one.
-/

namespace SymbolicAlgebra

/-- A line that a run writes. -/
inductive Line where
  /-- A line of the output. -/
  | out (text : String)
  /-- A line of the messages, as it is. -/
  | note (text : String)
  /-- A line of the messages, with the time in front. -/
  | log (text : String)
  deriving DecidableEq, Repr

namespace Line

/-- The part of a line that goes to the output. -/
def output : Line → String
  | out text => text ++ "\n"
  | _ => ""

/-- The part of a line that goes to the messages, with the time given as text. -/
def messages (stamp : String) : Line → String
  | out _ => ""
  | note text => text ++ "\n"
  | log text => stamp ++ text ++ "\n"

end Line

/-- The lines that a computation writes, and its result. -/
structure Session (α : Type) where
  /-- The lines, in order. -/
  lines : List Line
  /-- The result. -/
  result : Calc α

namespace Session

/-- A computation that writes nothing. -/
def ofCalc {α : Type} (x : Calc α) : Session α := ⟨[], x⟩

/-- Write one line. -/
def write (line : Line) : Session Unit := ⟨[line], .ok ()⟩

/-- Go on with a result; the lines follow each other. -/
def andThen {α β : Type} (x : Session α) (f : α → Session β) : Session β :=
  match x.result with
  | .ok a => ⟨x.lines ++ (f a).lines, (f a).result⟩
  | .error e => ⟨x.lines, .error e⟩

instance : Monad Session where
  pure a := ⟨[], .ok a⟩
  bind := andThen

instance : MonadLift Calc Session where
  monadLift := ofCalc

/-- Write a line of output. -/
def print (text : String) : Session Unit := write (.out text)

end Session

end SymbolicAlgebra
