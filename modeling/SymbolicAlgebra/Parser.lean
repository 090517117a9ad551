import SymbolicAlgebra.Token.Lexer

/-!
# From tokens to trees

An operator precedence parser with two stacks, of finished operands and of operators that
wait for their right operand. An operator that arrives first reduces all waiting ones that
bind at least as tightly; the power is the exception and waits for another power, so it
groups to the right. An operand, function or opening parenthesis directly behind a complete
operand brings a product with it. What is left open at the end is closed.

The parser builds nothing itself: it is given a `Builder`, which makes leaves and combines
them, and works for any type of tree.
-/

namespace SymbolicAlgebra

/-- How trees are made from their parts. -/
structure Builder (α : Type) where
  /-- A number. -/
  number : Number → α
  /-- A variable. -/
  letter : String → α
  /-- The opposite. -/
  negate : α → Calc α
  /-- An operator between two operands. -/
  combine : Binary → α → α → Calc α
  /-- The factorial. -/
  factorial : α → Calc α
  /-- A named function. -/
  apply : Func → α → Calc α

namespace Parser

/-- What waits on the stack of operators. -/
inductive Pending where
  /-- An opening parenthesis. -/
  | opening
  /-- A minus sign in front of an operand. -/
  | negation
  /-- An operator between two operands. -/
  | binary (op : Binary)
  /-- The factorial. -/
  | factorial
  /-- A named function. -/
  | function (f : Func)
  deriving DecidableEq, Repr

namespace Pending

/-- How tightly an operator binds. A negation binds like a product. -/
def prec : Pending → Int
  | opening => -1
  | negation => 2
  | binary op => op.prec
  | factorial => 4
  | function _ => 5

/-- The name in messages. -/
def describe : Pending → String
  | opening => "Op.OPR"
  | negation => "Op.NEG"
  | binary op => "Op." ++ op.name
  | factorial => "Op.FAC"
  | function f => "Op." ++ f.name

end Pending

/-- The two stacks, their tops first, and whether an operand is complete. -/
structure State (α : Type) where
  /-- The finished operands. -/
  nodes : List α
  /-- The operators that wait. -/
  ops : List Pending
  /-- Whether the last token completed an operand. -/
  ended : Bool

variable {α : Type} (b : Builder α)

/-- Apply an operator to the operands on top of the stack. -/
def reduce (op : Pending) (nodes : List α) : Calc (List α) :=
  match op, nodes with
  | .negation, t :: rest => do return (← b.negate t) :: rest
  | .factorial, t :: rest => do return (← b.factorial t) :: rest
  | .function f, t :: rest => do return (← b.apply f t) :: rest
  | .binary op, r :: l :: rest => do return (← b.combine op l r) :: rest
  | op, _ => throw (.malformed (.operandsOf op.describe))

/-- Whether an operator on the stack is reduced before a new one is put on it. -/
def yields (new old : Pending) : Bool :=
  old != .opening && new.prec ≤ old.prec && !(new == .binary .pow && old == .binary .pow)

/-- Reduce the operators on top of the stack that bind at least as tightly as a new one. -/
def reduceBefore (new : Pending) : List Pending → List α → Calc (List Pending × List α)
  | [], nodes => pure ([], nodes)
  | old :: ops, nodes =>
    if yields new old then do reduceBefore new ops (← reduce b old nodes)
    else pure (old :: ops, nodes)

/-- Put a binary operator or the factorial on the stack. -/
def push (new : Pending) (s : State α) : Calc (State α) := do
  let (ops, nodes) ← reduceBefore b new s.ops s.nodes
  pure { s with ops := new :: ops, nodes := nodes }

/-- Reduce down to the opening parenthesis, and take that off. The stack is not asked whether it
holds one. -/
def closeGroup : List Pending → List α → Calc (List Pending × List α)
  | [], _ => throw .noOpening
  | .opening :: ops, nodes => pure (ops, nodes)
  | old :: ops, nodes => do closeGroup ops (← reduce b old nodes)

/-- The product that stands between a complete operand and what follows it directly. -/
def implicitProduct (s : State α) : Calc (State α) :=
  if s.ended then push b (.binary .mul) s else pure s

/-- Put an operator on the stack that waits for what follows it. -/
def waitFor (op : Pending) (s : State α) : State α :=
  { s with ops := op :: s.ops, ended := false }

/-- Put an operand on the stack. -/
def operand (t : α) (s : State α) : Calc (State α) := do
  let s ← implicitProduct b s
  pure { s with nodes := t :: s.nodes, ended := true }

/-- Take in one token. -/
def step (s : State α) (t : Token) : Calc (State α) :=
  match t.kind with
  | .numeral z => operand b (b.number z) s
  | .letter => operand b (b.letter t.spelling) s
  | .constant c => operand b (b.number c.number) s
  | .negation => pure (waitFor .negation s)
  | .op .opening => do return waitFor .opening (← implicitProduct b s)
  | .op (.function f) => do return waitFor (.function f) (← implicitProduct b s)
  | .op .closing =>
    if !s.ended then throw (.malformed (.operandBefore t.spelling t.pos))
    else do
      let (ops, nodes) ← closeGroup b s.ops s.nodes
      pure { s with ops := ops, nodes := nodes, ended := true }
  | .op .factorial =>
    if !s.ended then throw (.malformed (.operandBefore t.spelling t.pos))
    else do return { ← push b .factorial s with ended := true }
  | .op (.binary op) =>
    if !s.ended then throw (.malformed (.operandBefore t.spelling t.pos))
    else do return { ← push b (.binary op) s with ended := false }

/-- Reduce all operators that are left; open parentheses close here. -/
def finish : List Pending → List α → Calc (List α)
  | [], nodes => pure nodes
  | .opening :: ops, nodes => finish ops nodes
  | old :: ops, nodes => do finish ops (← reduce b old nodes)

/-- The tree of a list of tokens. -/
def parseTokens (tokens : List Token) : Calc α := do
  if tokens.isEmpty then throw (.malformed .empty)
  else
    let s ← tokens.foldlM (step b) ⟨[], [], false⟩
    if !s.ended then throw (.malformed .operandAtEnd)
    else
      match ← finish b s.ops s.nodes with
      | [t] => pure t
      | _ => throw (.malformed .leftOver)

/-- The tree of a text. -/
def parse (reading : Reading) (allowed : Option (List String)) (text : String) : Calc α := do
  parseTokens b (← Token.tokenize reading allowed text)

end Parser

end SymbolicAlgebra
