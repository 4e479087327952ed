import Curly.Token.Gap
import Curly.Token.Scan

/-! Texts that are put together. Another text may stand behind a text on a new line, if the first does not end inside
    of a string literal or a block comment; and the lexemes of a text may be set apart by other blanks than those between
    them. -/

namespace Curly

/-! ### Ends of texts -/

/-- Whether a string literal is closed. The text is what follows its opening quote. -/
def Lexeme.closes : List Char → Bool
  | [] => false
  | '"' :: _ => true
  | ['\\'] => false
  | '\\' :: _ :: rest => closes rest
  | _ :: rest => closes rest

/-- A string literal that has no closing quote. -/
def Token.Unclosed (t : Token) : Prop := t.kind = .stringLiteral ∧ Lexeme.closes t.lexeme.toList.tail = false

/-- Blanks and comments, the last of which is a block comment that is not closed. -/
def Gap.Unclosed (gap : List Char) : Prop :=
  ∃ before body, gap = before ++ '/' :: '*' :: body ∧ Gap false before ∧ ¬['*', '/'] <:+: body

/-- The text ends inside of a string literal, or inside of a block comment behind the last token. -/
def Source.EndsInside (s : Source) : Prop :=
  (∃ t ∈ s.tokens, t.Unclosed) ∨ ∃ gap ∈ (Token.gaps s.text.toList 0 s.tokens).getLast?, Gap.Unclosed gap

/-! ### Moving -/

/-- The location in a text in front of which lines and characters are put. The columns stay as they are. -/
def Location.moved (lines chars : Nat) (l : Location) : Location :=
  { l with line := l.line + lines, offset := l.offset + chars }

def Token.moved (lines chars : Nat) (t : Token) : Token := { t with location := t.location.moved lines chars }

def Diagnostic.moved (lines chars : Nat) (d : Diagnostic) : Diagnostic :=
  { d with location := d.location.moved lines chars }

/-! ### Setting apart -/

/-- The words in their order, with blanks between them but none in front of the first or behind the last. -/
inductive Spaced : List String → List Char → Prop where
  | nil : Spaced [] []
  | single {word : String} : Spaced [word] word.toList
  | cons {word next : String} {words : List String} {gap text : List Char} (hne : gap ≠ [])
    (hgap : ∀ c ∈ gap, Trivia.isBlank c) (h : Spaced (next :: words) text) :
    Spaced (word :: next :: words) (word.toList ++ (gap ++ text))

end Curly
