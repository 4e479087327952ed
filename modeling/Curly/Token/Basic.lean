import Curly.Location
import Curly.Token.Kind

/-! Tokens. -/

namespace Curly

/-- A token: its kind, the piece of the text that it was read from, what that piece stands for, and where it
    begins. Only of a string literal does the value differ from the piece: the quotes are left out and escapes
    resolved. -/
structure Token where
  kind : TokenKind
  lexeme : String
  value : String
  location : Location
deriving DecidableEq, Repr

namespace Token

def line (t : Token) : Int := t.location.line

def column (t : Token) : Int := t.location.column

/-- The short form, as in listings. -/
def text (t : Token) : String :=
  "[" ++ t.kind.name ++ ": '" ++ t.value ++ "' @" ++ toString t.line ++ ":" ++ toString t.column ++ "]"

/-- The full form. -/
def detail (t : Token) : String :=
  "Token(" ++ t.kind.name ++ ", " ++ Text.quote t.lexeme ++ ", " ++ Text.quote t.value ++ ", " ++
    t.location.detail ++ ")"

/-- One token a line. The ends of input are listed only if `withEnd` is set. -/
def listing (tokens : List Token) (withEnd : Bool) : String :=
  "\n".intercalate ((tokens.filter fun t => withEnd || t.kind != .eof).map text)

end Token
end Curly
