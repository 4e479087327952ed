import Curly.Parser.Stmt
import Curly.Token.Scan

/-! Parsing whole sequences of tokens and whole texts. Parsing never fails: what is wrong is reported beside the tree.
    There is no tree only if the parse was broken off. -/

namespace Curly

/-! ### The input of a parse -/

/-- The end of the input that is added to tokens without one. It stands where the last token stands. -/
def Token.addedEnd (tokens : List Token) : Token :=
  ⟨.eof, "", "", (tokens.getLast?.map Token.location).getD ⟨"<unknown>", 1, 1, 0⟩⟩

/-- Tokens with an end of the input as the last one. -/
def Token.close (tokens : List Token) : List Token :=
  if tokens.getLast?.map Token.kind = some .eof then tokens else tokens ++ [addedEnd tokens]

def Cursor.ofTokens (tokens : List Token) : Cursor where
  ahead := Token.close tokens
  begun := 0

def Setting.ofTokens (tokens : List Token) (interruption : Option Interruption) : Setting where
  marker := (tokens.find? (·.kind == .eof)).getD (.addedEnd tokens)
  interruption := interruption

/-! ### What comes of it -/

/-- What a parse came to: the program, or the diagnostic of what broke it off; the number of tokens that there were to
    parse; and the log. -/
structure Report where
  result : Except Diagnostic Program
  length : Nat
  log : List Event
deriving Repr

/-- The error of a parse that was to find nothing wrong, with all diagnostics. -/
structure Rejection where
  message : String
  diagnostics : List String
deriving DecidableEq, Repr

namespace Report

/-- The tree of the program. -/
def root (r : Report) : Option Tree := r.result.toOption.map Program.toTree

def fatal : Report → Option Diagnostic
  | ⟨.error d, _, _⟩ => some d
  | ⟨.ok _, _, _⟩ => none

/-- The mistakes in the order in which they were found. -/
def mistakes (r : Report) : List Mistake :=
  r.log.filterMap Event.mistake?

/-- All diagnostics. What broke the parse off comes last. -/
def errors (r : Report) : List Diagnostic :=
  r.mistakes.map Mistake.toDiagnostic ++ r.fatal.toList

/-- The diagnostics in their short form. -/
def diagnostics (r : Report) : List String := r.errors.map Diagnostic.text

def ok (r : Report) : Bool := r.root.isSome

def hasErrors (r : Report) : Bool := !r.errors.isEmpty

/-- The report if nothing is wrong. Otherwise the error tells what broke the parse off, or else the first mistake. -/
def strict (r : Report) : Except Rejection Report :=
  match r.fatal.toList ++ r.errors with
  | [] => .ok r
  | d :: _ => .error ⟨d.text, r.diagnostics⟩

end Report

/-- The report of a parse that began at `start`. What broke it off is reported at the token where it stood. -/
def Report.ofOutcome (setting : Setting) (start : Cursor) (outcome : Outcome Program) : Report where
  result := match outcome with
    | .done p _ _ => .ok p
    | .stopped stop c _ => .error (.fatal stop.message (setting.current c).location)
  length := start.ahead.length
  log := outcome.log

/-- Parses tokens. -/
def Report.ofTokens (tokens : List Token) (interruption : Option Interruption) : Report :=
  let setting := Setting.ofTokens tokens interruption
  let start := Cursor.ofTokens tokens
  .ofOutcome setting start (Parser.program setting start)

/-- Parses a text. -/
def Source.parse (s : Source) (interruption : Option Interruption) : Report :=
  Report.ofTokens s.tokens interruption

end Curly
