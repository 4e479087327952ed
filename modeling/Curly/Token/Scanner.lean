import Curly.Token.Scan

/-! Scanners: a text that is scanned step by step. A scanner remembers where it stands, and the tokens and warnings
    of its last run; a run always begins anew. -/

namespace Curly

/-- A text under scanning. -/
structure Scanner where
  source : Source
  place : Place
  tokens : List Token
  warnings : List Diagnostic
deriving DecidableEq, Repr

namespace Scanner

/-- A scanner at the beginning of a text. -/
def ofSource (s : Source) : Scanner := ⟨s, .start s.text.toList, [], []⟩

/-- Scans the whole text, whatever was scanned before. -/
def run (s : Scanner) : Scanner :=
  let scan := s.source.scan
  { s with place := scan.stop, tokens := scan.tokens, warnings := scan.warnings }

/-- Reads the token at the scanner's place without skipping trivia. It is not added to the tokens of the last run,
    but a warning about it is added to the warnings. -/
def next? (s : Scanner) : Option (Token × Scanner) :=
  (s.place.read? s.source.file).map fun r =>
    (r.token, { s with place := r.after, warnings := s.warnings ++ r.warning.toList })

def skipTrivia (s : Scanner) : Scanner := { s with place := s.place.skipTrivia }

/-- Moves on by some characters, at most to the end of the text. -/
def advance (s : Scanner) (n : Nat) : Scanner := { s with place := s.place.advance n }

def hasWarnings (s : Scanner) : Bool := !s.warnings.isEmpty

def location (s : Scanner) : Location := s.place.location s.source.file

/-! ### Sequences of operations -/

/-- What a scanner can be asked to do. -/
inductive Operation where
  | run | next | skipTrivia | advance
  | advanceBy (count : Int)
deriving DecidableEq, Repr

/-- Carries out an operation. The tokens that it reads are given with the scanner after it. At the end of the text there
    is no next token to read, and the scanner stays as it is; nor does it move by a count below zero. -/
def perform (s : Scanner) : Operation → List Token × Scanner
  | .run => (s.run.tokens, s.run)
  | .next => match s.next? with
    | some (t, after) => ([t], after)
    | none => ([], s)
  | .skipTrivia => ([], s.skipTrivia)
  | .advance => ([], s.advance 1)
  | .advanceBy count => ([], s.advance count.toNat)

/-- Carries out operations one after the other, with all the tokens that they read. -/
def performAll (s : Scanner) : List Operation → List Token × Scanner
  | [] => ([], s)
  | op :: ops =>
    let (tokens, after) := s.perform op
    let (more, last) := after.performAll ops
    (tokens ++ more, last)

end Scanner
end Curly
