/-!
# Options

The options in front of the arguments of a command. A short option is a letter behind a
dash, and several may share one dash; a long option is a word behind two dashes, and may be
cut to any beginning that no other option has. An option that takes an argument finds it in
the rest of its own word or, if that is empty, in the next one; a long option may carry it
behind an equals sign. Options end at the first word that is none, at a dash alone, or at
two dashes alone, which are dropped.

The names of the options are a `Grammar`; what has been read is a list of pairs of a name
with its dashes and an argument, empty for options that take none.
-/

namespace SymbolicAlgebra

namespace Options

/-- The options of a command, each with whether it takes an argument. -/
structure Grammar where
  /-- The short options. -/
  short : List (Char × Bool)
  /-- The long options. -/
  long : List (List Char × Bool)

/-- What is wrong with the words of a command. -/
inductive Fault where
  /-- There is no such short option. -/
  | unknownShort (name : Char)
  /-- A short option lacks its argument. -/
  | shortNeedsArgument (name : Char)
  /-- There is no such long option. -/
  | unknownLong (name : List Char)
  /-- A long option lacks its argument. -/
  | longNeedsArgument (name : List Char)
  /-- A long option takes no argument. -/
  | takesNoArgument (name : List Char)
  /-- Several long options begin like this. -/
  | ambiguous (start : List Char)
  deriving DecidableEq, Repr

/-- What is reported. -/
def Fault.message : Fault → String
  | unknownShort name => "option -" ++ String.singleton name ++ " not recognized"
  | shortNeedsArgument name => "option -" ++ String.singleton name ++ " requires argument"
  | unknownLong name => "option --" ++ String.ofList name ++ " not recognized"
  | longNeedsArgument name => "option --" ++ String.ofList name ++ " requires argument"
  | takesNoArgument name => "option --" ++ String.ofList name ++ " must not have an argument"
  | ambiguous start => "option --" ++ String.ofList start ++ " not a unique prefix"

/-- An option as it was given: its name with the dashes, and its argument. -/
abbrev Given := List Char × List Char

/-- Words that are left to read. -/
abbrev Words := List (List Char)

/-- The long option that a beginning stands for. The whole name of an option stands for
that option, also if another one begins like it. -/
def resolve (g : Grammar) (start : List Char) : Except Fault (List Char × Bool) :=
  match g.long.filter fun o => start.isPrefixOf o.1 with
  | [] => throw (.unknownLong start)
  | [o] => pure o
  | several =>
    match several.find? fun o => o.1 == start with
    | some o => pure o
    | none => throw (.ambiguous start)

/-- The name in a long option, and the argument behind its equals sign. -/
def splitArgument (word : List Char) : List Char × Option (List Char) :=
  match word.dropWhile (· != '=') with
  | [] => (word, none)
  | _ :: argument => (word.takeWhile (· != '='), some argument)

/-- Read a long option, given without its dashes, and its argument. -/
def readLong (g : Grammar) (word : List Char) (rest : Words) : Except Fault (Given × Words) := do
  let (start, attached) := splitArgument word
  let (name, takes) ← resolve g start
  match takes, attached, rest with
  | true, some argument, _ => pure (('-' :: '-' :: name, argument), rest)
  | true, none, argument :: rest => pure (('-' :: '-' :: name, argument), rest)
  | true, none, [] => throw (.longNeedsArgument name)
  | false, some _, _ => throw (.takesNoArgument name)
  | false, none, _ => pure (('-' :: '-' :: name, []), rest)

/-- Read the short options of one word, given without its dash, and the argument of the
last one. -/
def readShort (g : Grammar) (rest : Words) : List Char → Except Fault (List Given × Words)
  | [] => pure ([], rest)
  | c :: cs =>
    match g.short.find? fun o => o.1 == c with
    | none => throw (.unknownShort c)
    | some (_, false) => do
      let (given, rest) ← readShort g rest cs
      pure ((['-', c], []) :: given, rest)
    | some (_, true) =>
      match cs, rest with
      | _ :: _, _ => pure ([(['-', c], cs)], rest)
      | [], argument :: rest => pure ([(['-', c], argument)], rest)
      | [], [] => throw (.shortNeedsArgument c)

/-- One word of options and the words it takes with it; none where the options end. -/
def readWord (g : Grammar) (word : List Char) (rest : Words) :
    Except Fault (Option (List Given × Words)) :=
  match word with
  | ['-', '-'] => pure none
  | '-' :: '-' :: name => do
    let (given, rest) ← readLong g name rest
    pure (some ([given], rest))
  | '-' :: c :: cs => some <$> readShort g rest (c :: cs)
  | _ => pure none

/-- The words behind the options: two dashes that end them are dropped. -/
def argumentsFrom : Words → Words
  | ['-', '-'] :: rest => rest
  | words => words

/-- Read at most a number of words of options. -/
def readFrom (g : Grammar) : Nat → Words → Except Fault (List Given × Words)
  | 0, words => pure ([], argumentsFrom words)
  | _, [] => pure ([], [])
  | n + 1, word :: rest => do
    match ← readWord g word rest with
    | none => pure ([], argumentsFrom (word :: rest))
    | some (given, rest) =>
      let (more, arguments) ← readFrom g n rest
      pure (given ++ more, arguments)

/-- The options and the arguments of a command. No word is read twice, so there are at
most as many words of options as words. -/
def read (g : Grammar) (words : Words) : Except Fault (List Given × Words) :=
  readFrom g words.length words

end Options

end SymbolicAlgebra
