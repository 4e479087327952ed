import Curly.Command.Run

/-! The flags among the arguments, told without acting on them, and what a log is made of. -/

namespace Curly.Command

/-- The flags that an argument gives. One that is misused gives none. -/
def Argument.flags : Argument → List Flag
  | .word | .unknown | .valued .. => []
  | .flag f => [f]
  | .letter f tail => (joinedFlags f tail).toOption.getD []

def flagsOf (argument : String) : List Flag :=
  match classify argument with
  | .ok a => a.flags
  | .error _ => []

/-- The flags that are given, in full or shortened, alone or joined. After `--` there are none. -/
def givenFlags (arguments : List String) : List Flag := (arguments.takeWhile (· != "--")).flatMap flagsOf

/-- Arguments that give flags, each in one of its spellings, and then a file. -/
def spell (given : List (String × Flag)) (file : String) : List String := given.map Prod.fst ++ ["--", file]

/-- The options are as the flags demand. -/
structure Options.Demanded (flags : List Flag) (o : Options) : Prop where
  tokens : o.tokens = true ↔ .tokens ∈ flags
  tree : o.tree = true ↔ .noTree ∉ flags
  verbose : o.verbose = true ↔ .verbose ∈ flags

/-- All that is logged of a text that is analysed without interruption. -/
def logOf (source : Source) : List String := scanLog source.file source.scan ++ parseLog (source.parse none)

/-- A record of the log as it is printed: its level, the part of the program that it comes from, and a message. -/
def IsRecord (line : String) : Prop :=
  ∃ level origin message, level ∈ ["DEBUG", "INFO"] ∧ line = level ++ " minijava." ++ origin ++ ": " ++ message

end Curly.Command
