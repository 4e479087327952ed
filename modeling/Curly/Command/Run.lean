import Curly.Command.Options
import Curly.Files
import Curly.Parser.Report
import Curly.Tree.Outline

/-! The command: it reads a file and prints its tokens, its tree and what is wrong with it. -/

namespace Curly.Command

/-- What a run prints, and the status that it exits with. -/
structure Output where
  status : Nat
  out : String
  err : String
deriving DecidableEq, Repr

def usage : String := "usage: minijava [-h] [--tokens] [--no-tree] [-v] file\n"

def help : String :=
  usage ++ "\n" ++
  "Tokenize and parse a minijava source file\n" ++
  "\n" ++
  "positional arguments:\n" ++
  "  file           Source file to analyze\n" ++
  "\n" ++
  "options:\n" ++
  "  -h, --help     show this help message and exit\n" ++
  "  --tokens       Print the token list\n" ++
  "  --no-tree      Do not print the syntax tree\n" ++
  "  -v, --verbose  Enable debug logging\n" ++
  "\n" ++
  "Examples:\n" ++
  "    minijava Example.java                  # Print the syntax tree\n" ++
  "    minijava --tokens Example.java         # Also print the token list\n" ++
  "    minijava --no-tree -v Example.java     # Diagnostics only, with debug logging\n" ++
  "        \n"

/-- A text without the blanks at its end. -/
def trimEnd (text : String) : String :=
  String.ofList (text.toList.reverse.dropWhile Char.isWhitespace).reverse

/-- What is logged of scanning: the numbers of tokens and of warnings, and every warning. -/
def scanLog (file : String) (scan : Scan) : List String :=
  ("DEBUG minijava.lexer.lexer: " ++ file ++ ": " ++ toString scan.tokens.length ++ " tokens, " ++
    toString scan.warnings.length ++ " warnings") ::
  scan.warnings.map fun w => "INFO minijava.cli: " ++ trimEnd w.describe

/-- What is logged of parsing: where it resumed after tokens were skipped, and what came of it. -/
def parseLog (report : Report) : List String :=
  let resumed := report.log.filterMap fun
    | .resumed ahead skipped =>
      let index := report.length - ahead
      some ("DEBUG minijava.parser.parser: resynchronized from token " ++ toString index ++ " to " ++
        toString (index + skipped))
    | _ => none
  let parsed := match report.result with
    | .error _ => []
    | .ok program =>
      ["DEBUG minijava.parser.parser: parsed " ++ toString program.length ++ " top-level statements with " ++
        toString report.errors.length ++ " diagnostics"]
  resumed ++ parsed

/-- The diagnostics, under a heading. -/
def diagnosticsBlock : List String → String
  | [] => ""
  | diagnostics => "\nDiagnostics:\n" ++ String.join (diagnostics.map fun d => "  " ++ d ++ "\n")

/-- The exit status: 0 if nothing is wrong, 1 if something is, 2 if there is no tree. -/
def status (report : Report) : Nat :=
  if !report.ok then 2 else if report.hasErrors then 1 else 0

/-- Analyses a source text. -/
def analyse (options : Options) (source : Source) (interruption : Option Interruption) : Output :=
  let scan := source.scan
  let report := Report.ofTokens scan.tokens interruption
  let tokens := if options.tokens then "Tokens:\n" ++ Token.listing scan.tokens false ++ "\n\n" else ""
  let tree := match report.root with
    | some root => if options.tree then "Syntax tree:\n" ++ root.outline ++ "\n" else ""
    | none => ""
  let log := if options.verbose then scanLog source.file scan ++ parseLog report else []
  { status := status report
    out := tokens ++ tree
    err := String.join (log.map (· ++ "\n")) ++ diagnosticsBlock report.diagnostics }

/-- Runs the command. `read` gives the bytes of the file at a path. A path that no system accepts is an error of the
    caller and not reported as an unreadable file. -/
def run (arguments : List String) (read : String → Except FileError (List UInt8))
    (interruption : Option Interruption) : Except FileError Output :=
  match readArguments arguments with
  | .error e => .ok ⟨2, "", usage ++ "minijava: error: " ++ e.message ++ "\n"⟩
  | .ok .help => .ok ⟨0, help, ""⟩
  | .ok (.analyse options) =>
    match Source.ofFile options.file (read options.file) with
    | .ok source => .ok (analyse options source interruption)
    | .error (.file .nullCharacter) => .error .nullCharacter
    | .error e =>
      .ok ⟨2, "", "error: cannot read " ++ options.file ++ ": " ++ e.message options.file ++ "\n"⟩

end Curly.Command
