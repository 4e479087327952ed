import Curly.Diagnostic
import Curly.Token.Basic
import Curly.Token.Lexeme
import Curly.Token.Place
import Curly.Token.Trivia

/-! Cutting a source text into tokens. Scanning never fails: a character that starts no token becomes an `error`
    token of its own and is warned of. The tokens always end with one token for the end of the input. -/

namespace Curly

/-- A named text. -/
structure Source where
  file : String
  text : String
deriving DecidableEq, Repr

/-- A token that was read at a place, the warning about it, and the place after it. -/
structure Reading where
  token : Token
  warning : Option Diagnostic
  after : Place
deriving DecidableEq, Repr

namespace Place

/-- Reads the token that begins at a place. Blanks and comments are not skipped: a blank reads as an invalid
    character. There is nothing to read at the end of the text. -/
def read? (p : Place) (file : String) : Option Reading :=
  match p.rest with
  | [] => none
  | c :: rest =>
    let lexeme := Lexeme.read c rest
    some {
      token := ⟨lexeme.kind, String.ofList lexeme.text, String.ofList lexeme.value, p.location file⟩
      warning := if lexeme.kind = .error then some (.invalidCharacter c (p.location file)) else none
      after := p.advance lexeme.text.length }

/-- The place after the blanks and comments that begin at a place. -/
def skipTrivia (p : Place) : Place := p.advance (Trivia.length p.rest)

theorem length_rest_skipTrivia (p : Place) : p.skipTrivia.rest.length ≤ p.rest.length := by
  simp [skipTrivia]

theorem length_rest_read? {p : Place} {file : String} {r : Reading} (h : p.read? file = some r) :
    r.after.rest.length < p.rest.length := by
  unfold read? at h
  split at h
  · cases h
  · next c rest hp =>
    cases h
    have := Lexeme.length_text_read c rest
    simp only [rest_advance, hp, List.length_drop, List.length_cons]
    omega

end Place

/-- The tokens read from some place on, the warnings, and the place where reading ended. -/
structure Scan where
  tokens : List Token
  warnings : List Diagnostic
  stop : Place
deriving DecidableEq, Repr

namespace Scan

/-- Nothing but trivia before the end of the input at `stop`. -/
def finish (file : String) (stop : Place) : Scan :=
  ⟨[⟨.eof, "", "", stop.location file⟩], [], stop⟩

/-- A scan that is preceded by one more token. -/
def cons (r : Reading) (s : Scan) : Scan :=
  ⟨r.token :: s.tokens, r.warning.toList ++ s.warnings, s.stop⟩

/-- Reads tokens up to the end of the input. -/
def run (file : String) (p : Place) : Scan :=
  match _h : p.skipTrivia.read? file with
  | none => finish file p.skipTrivia
  | some r => cons r (run file r.after)
termination_by p.rest.length
decreasing_by exact Nat.lt_of_lt_of_le (Place.length_rest_read? _h) p.length_rest_skipTrivia

end Scan

namespace Source

/-- Scans a whole text. -/
def scan (s : Source) : Scan := Scan.run s.file (.start s.text.toList)

def tokens (s : Source) : List Token := s.scan.tokens

/-- The tokens of a text without invalid characters, or else the error about the first of them. -/
def strictTokens (s : Source) : Except Diagnostic (List Token) :=
  match s.scan.warnings with
  | [] => .ok s.tokens
  | warning :: _ => .error warning.toError

end Source
end Curly
