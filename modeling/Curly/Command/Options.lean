import Curly.Text.DecimalDigit
import Curly.Text.Quoted

/-! The arguments of the command line. Flags may stand anywhere and long ones may be shortened; `--` ends them. First
    all arguments are classified, then they are acted on from left to right. -/

namespace Curly.Command

/-- The flags. -/
inductive Flag where
  | help | tokens | noTree | verbose
deriving DecidableEq, Repr

namespace Flag

/-- The spellings of the flags. -/
def spellings : List (String × Flag) :=
  [("-h", help), ("--help", help), ("--tokens", tokens), ("--no-tree", noTree), ("-v", verbose),
   ("--verbose", verbose)]

def ofSpelling? (s : String) : Option Flag := spellings.lookup s

/-- The flag of one letter. -/
def ofLetter? (letter : Char) : Option Flag := ofSpelling? (String.ofList ['-', letter])

/-- All spellings of a flag, as messages cite it. -/
def citation (f : Flag) : String :=
  "/".intercalate ((spellings.filter fun s => s.2 == f).map Prod.fst)

end Flag

/-- What is wrong with the arguments. -/
inductive UsageError where
  /-- A shortened flag has several readings. -/
  | ambiguous (argument : String) (candidates : List String)
  /-- A flag takes no value, but was given one. -/
  | unusedValue (flag : Flag) (value : String)
  | missingFile
  | unrecognized (arguments : List String)
deriving DecidableEq, Repr

def UsageError.message : UsageError → String
  | .ambiguous argument candidates =>
    "ambiguous option: " ++ argument ++ " could match " ++ ", ".intercalate candidates
  | .unusedValue flag value =>
    "argument " ++ flag.citation ++ ": ignored explicit argument " ++ Text.quote value
  | .missingFile => "the following arguments are required: file"
  | .unrecognized arguments => "unrecognized arguments: " ++ " ".intercalate arguments

/-! ### Classification -/

/-- What an argument before `--` is. -/
inductive Argument where
  | word
  | flag (flag : Flag)
  /-- A flag of one letter with what is written after the letter. -/
  | letter (flag : Flag) (tail : List Char)
  /-- A long flag with a value. -/
  | valued (flag : Flag) (value : String)
  /-- It looks like a flag, but there is none of that name. -/
  | unknown
deriving DecidableEq, Repr

/-- Whether a text is a minus sign and a number, with or without decimals. A line feed may follow. -/
def isNegativeNumber (text : List Char) : Bool :=
  match text with
  | '-' :: number =>
    let number := if number.getLast? = some '\n' then number.dropLast else number
    let whole := number.takeWhile Text.isDecimalDigit
    match number.dropWhile Text.isDecimalDigit with
    | [] => !whole.isEmpty
    | '.' :: decimals => !decimals.isEmpty && decimals.all Text.isDecimalDigit
    | _ => false
  | _ => false

/-- An argument that begins with a minus sign but is no flag is a word if it is a negative number or has a space in
    it. -/
def classifyOther (text : List Char) : Argument :=
  if isNegativeNumber text || text.contains ' ' then .word else .unknown

/-- A flag with the text after the equals sign that follows it, if there is one. A flag of one letter takes that text
    for more letters, unless it is empty. -/
def flagWith (spelling : List Char) (flag : Flag) : Option (List Char) → Argument
  | none => .flag flag
  | some value =>
    if spelling.length = 2 ∧ value ≠ [] then .letter flag value else .valued flag (String.ofList value)

/-- Classifies an argument other than `--`. -/
def classify (argument : String) : Except UsageError Argument :=
  let text := argument.toList
  let name := text.takeWhile (· != '=')
  let value? := if name.length < text.length then some (text.drop (name.length + 1)) else none
  match text with
  | '-' :: second :: rest =>
    match Flag.ofSpelling? argument, Flag.ofSpelling? (String.ofList name) with
    | some flag, _ => .ok (.flag flag)
    | none, some flag => .ok (flagWith name flag value?)
    | none, none =>
      if second = '-' then
        match Flag.spellings.filter fun s => name.isPrefixOf s.1.toList with
        | [] => .ok (classifyOther text)
        | [(spelling, flag)] => .ok (flagWith spelling.toList flag value?)
        | candidates => .error (.ambiguous argument (candidates.map Prod.fst))
      else match Flag.ofLetter? second with
        | some flag => .ok (.letter flag rest)
        | none => .ok (classifyOther text)
  | _ => .ok .word

/-! ### Reading -/

/-- What the arguments ask for. -/
structure Options where
  file : String
  tokens : Bool
  tree : Bool
  verbose : Bool
deriving DecidableEq, Repr

inductive Request where
  | help
  | analyse (options : Options)
deriving DecidableEq, Repr

/-- What was read so far. A file is fresh as long as the argument read last is that file. -/
structure State where
  file : Option String
  fresh : Bool
  flags : List Flag
  surplus : List String
deriving DecidableEq, Repr

/-- The flags of an argument that joins several letters. -/
def joinedFlags (flag : Flag) : List Char → Except UsageError (List Flag)
  | [] => .ok [flag]
  | letter :: rest =>
    match Flag.ofLetter? letter with
    | some next => (joinedFlags next rest).map (flag :: ·)
    | none => .error (.unusedValue flag (String.ofList (letter :: rest)))

namespace State

/-- A word is the file, or one too many. -/
def word (s : State) (w : String) : State :=
  match s.file with
  | none => { s with file := some w, fresh := true }
  | some _ => { s with fresh := false, surplus := s.surplus ++ [w] }

/-- The words after `--`. It belongs to a file directly before or after it, and is one word too many elsewhere. -/
def separated (s : State) (words : List String) : State :=
  match s.file, words with
  | none, w :: rest => { s with file := some w, surplus := s.surplus ++ rest }
  | none, [] => { s with surplus := s.surplus ++ ["--"] }
  | some _, _ => { s with surplus := s.surplus ++ if s.fresh then words else "--" :: words }

/-- The outcome once all arguments are read. -/
def finish (s : State) : Except UsageError Request :=
  match s.file, s.surplus with
  | none, _ => .error .missingFile
  | some file, [] =>
    .ok (.analyse ⟨file, s.flags.contains .tokens, !s.flags.contains .noTree, s.flags.contains .verbose⟩)
  | some _, surplus => .error (.unrecognized surplus)

/-- Acts on the arguments before `--`, and then on the words after it. Help is given as soon as it is asked for. -/
def read (s : State) (after : Option (List String)) : List (String × Argument) → Except UsageError Request
  | [] => match after with
    | none => s.finish
    | some words => (s.separated words).finish
  | (text, argument) :: rest => do
    let flags ← match argument with
      | .word | .unknown => pure []
      | .flag flag => pure [flag]
      | .letter flag tail => joinedFlags flag tail
      | .valued flag value => .error (.unusedValue flag value)
    if flags.contains .help then
      return .help
    else
      let s := match argument with
        | .word => s.word text
        | .unknown => { s with fresh := false, surplus := s.surplus ++ [text] }
        | _ => { s with fresh := false, flags := s.flags ++ flags }
      s.read after rest

end State

/-- Reads the arguments of the command line. -/
def readArguments (arguments : List String) : Except UsageError Request := do
  let before := arguments.takeWhile (· != "--")
  let after := if before.length < arguments.length then some (arguments.drop (before.length + 1)) else none
  let classified ← before.mapM fun text => return (text, ← classify text)
  State.read ⟨none, false, [], []⟩ after classified

end Curly.Command
