import Curly.Token.Kind

/-! Lexemes: the pieces of a text that are tokens. Letters and digits are those of ASCII. A piece is as long as its
    kind admits, and an operator of two characters goes before one of one character. -/

namespace Curly

/-- A piece of a text with its kind and what it stands for. -/
structure Lexeme where
  kind : TokenKind
  text : List Char
  value : List Char
deriving DecidableEq, Repr

namespace Lexeme

/-- The characters that begin a word: letters and the underscore. -/
def isWordStart (c : Char) : Bool := c.isAlpha || c == '_'

/-- The characters that continue a word: letters, digits and the underscore. -/
def isWordPart (c : Char) : Bool := c.isAlphanum || c == '_'

/-- The rest of a string literal after its opening quote, with the closing quote if there is one, and the text that
    it stands for. A backslash is left out of that text and makes the next character part of it, be it a quote or
    a backslash; at the end of the input it stands for nothing. -/
def stringRest : List Char → List Char × List Char
  | [] => ([], [])
  | '"' :: _ => (['"'], [])
  | ['\\'] => (['\\'], [])
  | '\\' :: c :: rest => let (text, value) := stringRest rest; ('\\' :: c :: text, c :: value)
  | c :: rest => let (text, value) := stringRest rest; (c :: text, c :: value)

/-- A piece that stands for itself. -/
def plain (kind : TokenKind) (text : List Char) : Lexeme := ⟨kind, text, text⟩

/-- The operator, punctuation or invalid character `c` before `rest`. -/
def readSymbol (c : Char) (rest : List Char) : Lexeme :=
  match rest.head?.bind fun d => (TokenKind.ofPair? c d).map fun kind => plain kind [c, d] with
  | some pair => pair
  | none => plain ((TokenKind.ofChar? c).getD .error) [c]

/-- The piece at the head of the text `c :: rest`. -/
def read (c : Char) (rest : List Char) : Lexeme :=
  if c.isDigit then
    plain .number (c :: rest.takeWhile Char.isDigit)
  else if isWordStart c then
    let word := c :: rest.takeWhile isWordPart
    plain (TokenKind.ofWord (String.ofList word)) word
  else if c = '"' then
    let (text, value) := stringRest rest
    ⟨.stringLiteral, c :: text, value⟩
  else readSymbol c rest

/-- A piece holds at least one character. -/
theorem length_text_read (c : Char) (rest : List Char) : 0 < (read c rest).text.length := by
  unfold read
  split
  · simp [plain]
  · split
    · simp [plain]
    · split
      · simp
      · unfold readSymbol
        split
        · next h =>
          cases rest with
          | nil => simp at h
          | cons d _ =>
            simp only [List.head?_cons, Option.bind_some, Option.map_eq_some_iff] at h
            obtain ⟨kind, -, rfl⟩ := h
            simp [plain]
        · simp [plain]

end Lexeme
end Curly
