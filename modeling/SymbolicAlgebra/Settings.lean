import SymbolicAlgebra.Expr.Display
import SymbolicAlgebra.Token.Lexer

/-!
# Settings

What a run of the command line goes by, apart from its arguments: how texts are read and
laid out, how deep simplification searches, and whether trees are reported as they are
read. The tolerance of comparisons is not among them; it is ambient to all arithmetic.
-/

namespace SymbolicAlgebra

/-- The settings of a run. -/
structure Settings where
  /-- How texts are read. -/
  reading : Reading
  /-- How expressions are laid out. -/
  layout : Layout
  /-- How many levels of candidates simplification explores. -/
  depth : Nat
  /-- Whether trees are reported as they are read. -/
  debug : Bool
  deriving DecidableEq, Repr

namespace Settings

/-- The settings of a run that nothing has changed. -/
def standard : Settings := ⟨.standard, ⟨false⟩, 2, false⟩

end Settings

end SymbolicAlgebra
