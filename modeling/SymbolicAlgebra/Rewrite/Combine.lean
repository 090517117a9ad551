import SymbolicAlgebra.Rewrite.Leaves

/-!
# Building simplified trees

`Expr.combine` builds the tree for `l op r` and simplifies on the way: identities and equal
operands vanish, signs move out of right operands, and a leaf joins the first leaf of a
chain that it combines with. Parser, differentiation and simplification all build their
trees with it, so a tree stays in simplified form.

The rewrite rules call each other: to move a sign out of an operand is to negate it, to
negate a product is to combine its parts again, and to combine two chains is to combine
one part after the other. Here every rule takes the combination it calls as an argument,
a `Combiner`, and is by itself plain recursion on one tree:

* `negateWith` negates a tree;
* `atomicWith` applies the identities at the root;
* `spliceWith` joins a leaf into a chain;
* `combineStep` is one round of the whole.

`combineFrom bottom n` is `n` rounds on top of a combination that is left to do the rest,
and `combine` starts from enough of them, with a node that only nests its chains to the left
at the bottom. A call is on fewer leaves and operators than its caller has, or on as many
with fewer of them in the right operand, or on as many there too after a sign has moved. So
the calls go only as deep as a polynomial in the size of the operands, `combineDepth`, and
the bottom is not reached.

`build` is the same for every symbol that can stand between two places. It leaves alone what
does not stand between two operands.
-/

namespace SymbolicAlgebra

/-- A way to build the tree for `l op r`. -/
abbrev Combiner := Binary → Expr → Expr → Calc Expr

namespace Expr

variable [Tolerance] [Exactness]

/-- The opposite of a tree. The sign goes into the first factor of a product and the first
summand of a sum, a difference changes sides, and anything else is multiplied by minus
one. -/
def negateWith (rec : Combiner) : Expr → Calc Expr
  | absent => throw .noOperand
  | leaf a => leaf <$> a.neg
  | binary .mul l r => do rec .mul (← negateWith rec l) r
  | binary .div l r => do rec .div (← negateWith rec l) r
  | binary .add l r => do rec .sub (← negateWith rec l) r
  | binary .sub l r => rec .sub r l
  | t => rec .mul negOne t

/-- A tree other than zero over zero: an infinity with the sign of the tree. -/
def overZero (t : Expr) : Calc Expr := do
  match t with
  | leaf (.number z) => return number (← z.div .zero)
  | _ => return number (.ofValue (.ofDouble (Double.infinity ((← t.sgn) < 0))))

/-- The leaf that two leaves make, or the plain node of any other operands. -/
def mergeLeaves (op : Binary) (l r : Expr) : Calc Expr := do
  match l, r with
  | leaf a, leaf b =>
    match ← Leaf.combine? op a b with
    | some c => pure (leaf c)
    | none => pure (binary op l r)
  | _, _ => pure (binary op l r)

/-- The identities of sums and differences. -/
def atomicSum (rec : Combiner) (op : Binary) (l r : Expr) : Calc Expr := do
  if ← r.isNumberZero then pure l
  else if ← l.isNumberZero then
    if op = .add then pure r else negateWith rec r
  else if ← r.same l then
    if op = .add then rec .mul two l else pure zero
  else if (← r.sgn) < 0 && (r.isLeaf || r.isProduct) then
    rec op.flip l (← negateWith rec r)
  else mergeLeaves op l r

/-- The identities of products. A number moves in front of an operator. -/
def atomicProduct (rec : Combiner) (l r : Expr) : Calc Expr := do
  if ← l.isZero then pure zero
  else if ← r.isZero then pure zero
  else if ← l.isOne then pure r
  else if ← r.isOne then pure l
  else if ← r.same l then
    if r.isLeaf then mergeLeaves .mul l r else rec .pow l two
  else if r.isNumber && !l.isLeaf then pure (binary .mul r l)
  else mergeLeaves .mul l r

/-- The identities of quotients. -/
def atomicQuotient (rec : Combiner) (l r : Expr) : Calc Expr := do
  if ← r.isZero then
    if ← l.isZero then throw (.undefined .zeroByZero) else overZero l
  else if ← l.isZero then pure zero
  else if ← r.isOne then pure l
  else if ← r.isNegOne then negateWith rec l
  else if ← r.same l then pure one
  else mergeLeaves .div l r

/-- Whether a number leaf has a real part above zero. -/
def isPositiveNumber : Expr → Calc Bool
  | leaf (.number z) => return 0 < (← z.re.sgn)
  | _ => pure false

/-- The identities of powers. They call no other rule. -/
def raise (l r : Expr) : Calc Expr := do
  if ← r.isNumberZero then pure one
  else if ← r.isOne then pure l
  else if ← l.isOne then pure l
  else if ← Calc.both l.isNumberZero r.isPositiveNumber then pure zero
  else mergeLeaves .pow l r

/-- The identities at the root of a tree. -/
def atomicWith (rec : Combiner) : Combiner
  | .add, l, r => atomicSum rec .add l r
  | .sub, l, r => atomicSum rec .sub l r
  | .mul, l, r => atomicProduct rec l r
  | .div, l, r => atomicQuotient rec l r
  | .pow, l, r => raise l r
  | .equals, l, r => pure (binary .equals l r)

/-- Join a leaf into the first leaf of a chain that it combines with, and rebuild the path
to that leaf; none if there is no such leaf. The right operand of a difference or quotient
takes the leaf with the opposite sign or exponent. -/
def spliceWith (rec : Combiner) (level : Level) (new : Leaf) : Bool → Expr → Calc (Option Expr)
  | _, absent => throw .noOperand
  | inverted, leaf old => do
    return (← Leaf.mergeInto? level inverted old new).map leaf
  | inverted, node (.binary op) l r => do
    if op.level = some level then
      match ← spliceWith rec level new inverted l with
      | some l' => some <$> atomicWith rec op l' r
      | none =>
        match ← spliceWith rec level new (inverted != op.isInverted) r with
        | some r' => some <$> atomicWith rec op l r'
        | none => pure none
    else pure none
  | _, _ => pure none

/-- Join the right operand into the left one, if it is a leaf and that a chain. -/
def joinRight (rec : Combiner) (level : Level) (op : Binary) (l r : Expr) :
    Calc (Option Expr) :=
  match r with
  | leaf new =>
    if l.inChain level then spliceWith rec level new op.isInverted l else pure none
  | _ => pure none

/-- Join the left operand into the right one, if it is a leaf and that a chain, and the
operator lets them change places. -/
def joinLeft (rec : Combiner) (level : Level) (op : Binary) (l r : Expr) :
    Calc (Option Expr) :=
  match l with
  | leaf new =>
    if op.isCommutative && r.inChain level then spliceWith rec level new false r else pure none
  | _ => pure none

/-- Combine with a chain: first with its left part, then with its right one, so that
chains nest to the left only. -/
def reassociate (rec : Combiner) (level : Level) (op : Binary) (l r : Expr) : Calc Expr := do
  match r with
  | binary inner a b =>
    if inner.level = some level then
      rec (if op.isInverted then inner.flip else inner) (← rec op l a) b
    else atomicWith rec op l r
  | _ => atomicWith rec op l r

/-- Combine in a chain of the given kind, where the operands are not both leaves. -/
def chainWith (rec : Combiner) (level : Level) (op : Binary) (l r : Expr) : Calc Expr := do
  match ← joinRight rec level op l r with
  | some t => pure t
  | none =>
    match ← joinLeft rec level op l r with
    | some t => pure t
    | none => reassociate rec level op l r

/-- Combine two operands that are there. -/
def combineOperands (rec : Combiner) (op : Binary) (l r : Expr) : Calc Expr :=
  match op.level with
  | some level =>
    if l.isLeaf && r.isLeaf then atomicWith rec op l r else chainWith rec level op l r
  | none => atomicWith rec op l r

/-- One round of combination. An equation is left as it is; any other operator needs both
operands. -/
def combineStep (rec : Combiner) : Combiner := fun op l r => do
  if op = .equals then pure (binary op l r)
  else combineOperands rec op (← l.present) (← r.present)

/-- Rounds of combination on top of another combination. -/
def combineFrom (bottom : Combiner) : Nat → Combiner
  | 0, op, l, r => bottom op l r
  | n + 1, op, l, r => combineStep (combineFrom bottom n) op l r

/-- The node for `l op r`, with a chain on the right taken apart: it goes into the left
operand part by part, as in `reassociate`, and nothing combines. -/
def leftNested : Binary → Expr → Expr → Expr
  | op, l, binary inner a b =>
    if op.level.isSome && inner.level == op.level then
      leftNested (if op.isInverted then inner.flip else inner) (leftNested op l a) b
    else binary op l (binary inner a b)
  | op, l, r => binary op l r

/-- The node that only nests its chains to the left. -/
def nested : Combiner := fun op l r => pure (leftNested op l r)

/-- Rounds enough for two operands. -/
def combineDepth (l r : Expr) : Nat := Nat.pow (l.size + r.size + 2) 4

/-- The simplified tree for `l op r`. -/
def combine : Combiner := fun op l r => combineFrom nested (combineDepth l r) op l r

/-- The opposite of a tree, simplified. -/
def negate (t : Expr) : Calc Expr := negateWith combine t

/-- The identities at the root of a tree, if that is an operator between two operands. Where
they need one operand only, the other one may be absent, and may be all that is left. -/
def atomic : Expr → Calc Expr
  | absent => throw .noOperand
  | node (.binary op) l r => atomicWith combine op l r
  | t => pure t

/-- Whether a parenthesis can hold two trees: its left one has to be there, and the right one
too behind a leaf. -/
def checkGroup : Expr → Expr → Calc Unit
  | absent, _ => throw .noOperand
  | leaf _, absent => throw .noOperand
  | _, _ => pure ()

/-- The simplified tree for any operator and what stands beside it. A factorial, a function
or a parenthesis is left as it is. -/
def build (op : Op) (l r : Expr) : Calc Expr :=
  match op with
  | .binary op => combine op l r
  | .factorial | .function _ => pure (node op l r)
  | .opening | .closing => do
    checkGroup l r
    pure (node op l r)

end Expr

end SymbolicAlgebra
