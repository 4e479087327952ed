import Curly.Diagnostic
import Curly.Token.Basic

/-! The mistakes that parsing finds in a sequence of tokens, and how they are reported. -/

namespace Curly

/-- What is wrong, and at which token. -/
inductive Mistake where
  /-- Something else was expected where a token stands. -/
  | unexpected (expectation : String) (found : Token)
  /-- A construct is not ended by a semicolon. It is cited at one of its tokens; what stands in the place of the
      semicolon may be left open. -/
  | missingSemicolon (construct : String) (cited : Token) (found : Option Token)
  /-- No statement begins with this token. -/
  | unrecognizedStatement (token : Token)
  /-- No expression begins with this token. -/
  | invalidExpression (token : Token)
  /-- A name begins a statement but nothing is done with it. -/
  | invalidAssignment (name : Token)
deriving DecidableEq, Repr

namespace Mistake

/-- The token at which a mistake is reported. -/
def token : Mistake → Token
  | unexpected _ t | missingSemicolon _ t _ | unrecognizedStatement t | invalidExpression t
  | invalidAssignment t => t

def code : Mistake → String
  | unexpected .. => "P001"
  | missingSemicolon .. => "P002"
  | unrecognizedStatement _ => "P003"
  | invalidExpression _ => "P004"
  | invalidAssignment _ => "P005"

def message : Mistake → String
  | unexpected expectation _ => expectation
  | missingSemicolon construct _ _ => "Expected ';' after " ++ construct
  | unrecognizedStatement t => "Unrecognized statement: '" ++ t.lexeme ++ "'"
  | invalidExpression t => "Invalid expression: '" ++ t.lexeme ++ "'"
  | invalidAssignment t => "Invalid assignment: '" ++ t.lexeme ++ "'"

def help : Mistake → Option String
  | missingSemicolon .. => some "Add a semicolon ';' to end the statement"
  | invalidExpression _ => some "An expression must start with a number, identifier, string or '('"
  | invalidAssignment _ => some "Expected '=', '++' or '--' after the identifier"
  | _ => none

def found : Mistake → Option String
  | unexpected _ t => some t.lexeme
  | missingSemicolon _ _ t => t.map Token.lexeme
  | _ => none

def toDiagnostic (m : Mistake) : Diagnostic where
  message := m.message
  location := m.token.location
  severity := "error"
  code := some m.code
  help := m.help
  found := m.found

end Mistake

/-- The diagnostic of a parse that was broken off at a location. -/
def Diagnostic.fatal (reason : String) (location : Location) : Diagnostic where
  message := "Fatal error: " ++ reason
  location := location
  severity := "fatal"
  code := some "P099"
  help := none
  found := none

end Curly
