import Curly.Location
import Curly.Text.Capital
import Curly.Text.Hex
import Curly.Text.Printable

/-! Diagnostics: what is wrong with a source text, and where. -/

namespace Curly

/-- A diagnostic. `found` is the text that stands where something else was expected; the code names the kind of
    problem. -/
structure Diagnostic where
  message : String
  location : Location
  severity : String
  code : Option String
  help : Option String
  found : Option String
deriving DecidableEq, Repr

namespace Diagnostic

/-- The message on one line, with what was found if that is known, and the line number. -/
def text (d : Diagnostic) : String :=
  let found := match d.found with
    | some lexeme => " but found '" ++ lexeme ++ "'"
    | none => ""
  d.message ++ found ++ " at line " ++ toString d.location.line

/-- The full form: severity and code, the message, the location, and the help. An empty code or help counts as
    none. -/
def describe (d : Diagnostic) : String :=
  let code := match d.code.getD "" with
    | "" => ""
    | code => "[" ++ code ++ "]"
  let help := match d.help.getD "" with
    | "" => ""
    | help => "  help: " ++ help ++ "\n"
  Text.capitals d.severity ++ code ++ ": " ++ d.text ++ "\n" ++
    "  --> " ++ d.location.text ++ "\n" ++ help

/-- The warning that a character starts no token. -/
def invalidCharacter (c : Char) (location : Location) : Diagnostic where
  message := "Invalid character: '" ++ c.toString ++ "'"
  location := location
  severity := "warning"
  code := some "L001"
  help := some <|
    if Text.isPrintable c then "The character '" ++ c.toString ++ "' is not valid in minijava source code."
    else "Non-printable character (" ++ Text.codePoint c ++ ") is not allowed."
  found := none

/-- The diagnostic raised to an error. -/
def toError (d : Diagnostic) : Diagnostic :=
  { d with severity := "error", found := none }

end Diagnostic
end Curly
