import Std.Time.Zoned
import SymbolicAlgebra.CommandLine.Run

/-!
# The program

The command line as a program: `CommandLine.run` on the arguments and the standard input,
with the time put in front of the messages that carry it.
-/

namespace SymbolicAlgebra.CommandLine

/-- The names of the months. -/
def months : List String :=
  ["Jan", "Feb", "Mar", "Apr", "May", "Jun", "Jul", "Aug", "Sep", "Oct", "Nov", "Dec"]

/-- A number with zeros in front, up to a width. -/
def padded (width n : Nat) : String :=
  let digits := toString n
  String.ofList (List.replicate (width - digits.length) '0') ++ digits

/-- A date and time in brackets. -/
def stampText (year month day hour minute second : Nat) : String :=
  "[" ++ padded 2 day ++ "/" ++ (months[month - 1]?).getD "" ++ "/" ++ padded 4 year ++ " " ++
    padded 2 hour ++ ":" ++ padded 2 minute ++ ":" ++ padded 2 second ++ "] "

/-- The present time in brackets. -/
def stamp : IO String := do
  let now ← Std.Time.PlainDateTime.now
  pure (stampText now.date.year.toInt.toNat now.date.month.val.toNat now.date.day.val.toNat
    now.time.hour.val.toNat now.time.minute.val.toNat now.time.second.val.toNat)

/-- The whole standard input, behind what has been read of it. -/
partial def readAll (input : IO.FS.Stream) (read : String) : IO String := do
  let line ← input.getLine
  if line.isEmpty then pure read else readAll input (read ++ line)

end SymbolicAlgebra.CommandLine

open SymbolicAlgebra in
/-- Run the command line; the exit code is the status of the run. -/
def main (words : List String) : IO UInt32 := do
  let _ : Tolerance := Double.standardTolerance
  let settings := Settings.standard
  let input ←
    if CommandLine.readsInput settings words then CommandLine.readAll (← IO.getStdin) ""
    else pure ""
  match (CommandLine.run settings words input).2 with
  | .ok outcome =>
    IO.print outcome.output
    IO.eprint (outcome.messages (← CommandLine.stamp))
    pure (UInt32.ofNat outcome.status)
  | .error f =>
    IO.eprintln (f.kind ++ ": " ++ f.message)
    pure 1
