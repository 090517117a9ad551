import SymbolicAlgebra.Derivative
import SymbolicAlgebra.Eval
import SymbolicAlgebra.Expr.Display
import SymbolicAlgebra.Expr.Read

/-!
# Definitions of functions

A definition `f(x, y) = …` has a name, parameters and an expression in them. It is called
with values for its parameters, by position or by name, and its derivative is a definition
again, with a prime behind the name.
-/

namespace SymbolicAlgebra

/-- A named function of declared parameters. -/
structure Definition where
  /-- The name. -/
  name : String
  /-- The parameters, in order. -/
  parameters : List String
  /-- The expression in the parameters. -/
  body : Expr

namespace Definition

/-- The value of a name in a list of assignments, replaced or put at the end. -/
def assign {β : Type} (name : String) (v : β) : List (String × β) → List (String × β)
  | [] => [(name, v)]
  | p :: rest => if p.1 == name then (name, v) :: rest else p :: assign name v rest

/-- The first parameter without a value. -/
def missing? {β : Type} (f : Definition) (values : List (String × β)) : Option String :=
  f.parameters.find? fun name => (values.lookup name).isNone

/-- The values of the parameters in a call: those given by position, in order, and over
them those given by name. Every parameter has to get one. -/
def assignments {β : Type} (f : Definition) (args : List β) (byName : List (String × β)) :
    Calc (List (String × β)) :=
  if f.parameters.length < args.length then
    throw (.tooManyArguments f.name f.parameters.length args.length)
  else
    let positional := (f.parameters.zip args).foldl (fun acc p => assign p.1 p.2 acc) []
    let values := byName.foldl (fun acc p => assign p.1 p.2 acc) positional
    match f.missing? values with
    | some name => throw (.unbound name)
    | none => pure values

variable [Tolerance]

/-- The definition whose expression a text spells; only the parameters may occur in it. -/
def ofText (reading : Reading) (name : String) (parameters : List String) (text : String) :
    Calc Definition :=
  return ⟨name, parameters, ← Expr.parse reading (some parameters) text⟩

/-- The value of a call. -/
def call (f : Definition) (args : List Number) (byName : Bindings) : Calc Number := do
  f.body.evaluate (← f.assignments args byName)

/-- The derivative with respect to a variable, or else to the first parameter. -/
def derive (f : Definition) (name : Option String) : Calc Definition := do
  let name ← match name, f.parameters with
    | some name, _ => pure name
    | none, first :: _ => pure first
    | none, [] => throw .noParameter
  return ⟨f.name ++ "\x27", f.parameters, ← f.body.differentiate name⟩

/-- The definition as an equation. -/
def text (layout : Layout) (f : Definition) : Calc String :=
  return f.name ++ "(" ++ ", ".intercalate f.parameters ++ ") = " ++ (← f.body.text layout)

/-- The parameters in parentheses, each in quotes; a single one has a comma behind it. -/
def describeParameters : List String → String
  | [p] => "(" ++ Text.quote p ++ ",)"
  | ps => "(" ++ ", ".intercalate (ps.map Text.quote) ++ ")"

/-- The form of a definition in messages. -/
def describe (layout : Layout) (f : Definition) : Calc String :=
  return "Function (" ++ Text.quote f.name ++ ", " ++ describeParameters f.parameters ++ ", " ++
    Text.quote (← f.body.text layout) ++ ")"

end Definition

end SymbolicAlgebra
