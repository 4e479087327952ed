/-! Trivia: the blanks and comments between tokens. A line comment runs up to the end of its line, a block comment
    up to the first `*/` after its opening; one that is not closed runs to the end of the text. -/

namespace Curly.Trivia

/-- Blank characters: space, tab, carriage return, line feed, form feed and vertical tab. -/
def isBlank (c : Char) : Bool :=
  c == ' ' || c == '\t' || c == '\r' || c == '\n' || c == '\x0c' || c == '\x0b'

/-- What surrounds a character of the trivia. -/
inductive Mode where
  | outside | lineComment | blockComment
deriving DecidableEq, Repr

/-- The number of characters at the head of a text that are trivia, when reading begins in a given mode. -/
def lengthFrom : Mode → List Char → Nat
  | _, [] => 0
  | .outside, '/' :: '/' :: rest => 2 + lengthFrom .lineComment rest
  | .outside, '/' :: '*' :: rest => 2 + lengthFrom .blockComment rest
  | .outside, c :: rest => if isBlank c then 1 + lengthFrom .outside rest else 0
  | .lineComment, c :: rest =>
    1 + lengthFrom (if c = '\n' then .outside else .lineComment) rest
  | .blockComment, '*' :: '/' :: rest => 2 + lengthFrom .outside rest
  | .blockComment, _ :: rest => 1 + lengthFrom .blockComment rest

/-- The number of characters at the head of a text that are trivia. -/
def length (text : List Char) : Nat := lengthFrom .outside text

end Curly.Trivia
