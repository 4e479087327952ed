import Curly.Token.Gap
import Curly.Token.Lexeme

/-! Texts that are laid out from words: blanks and comments may stand in front of every word and after the last. A word
    may follow another at once if the two do not read as something else together. -/

namespace Curly

namespace Lexeme

/-- A text with a backslash in front of every double quote and every backslash. -/
def escape (text : List Char) : List Char :=
  text.flatMap fun c => if c = '"' ∨ c = '\\' then ['\\', c] else [c]

/-- The lexemes that are no mistakes. -/
inductive Proper : Lexeme → Prop where
  | number {c : Char} {digits : List Char} (hc : c.isDigit) (h : ∀ d ∈ digits, d.isDigit) :
    Proper (plain .number (c :: digits))
  | word {c : Char} {rest : List Char} (hc : isWordStart c) (h : ∀ d ∈ rest, isWordPart d) :
    Proper (plain (TokenKind.ofWord (String.ofList (c :: rest))) (c :: rest))
  | string (value : List Char) : Proper ⟨.stringLiteral, '"' :: (escape value ++ ['"']), value⟩
  | pair {c d : Char} {kind : TokenKind} (h : TokenKind.ofPair? c d = some kind) : Proper (plain kind [c, d])
  | char {c : Char} {kind : TokenKind} (h : TokenKind.ofChar? c = some kind) : Proper (plain kind [c])

/-- What a word reads as when nothing follows it. -/
def ofWord (word : String) : Lexeme :=
  match word.toList with
  | [] => plain .error []
  | c :: rest => read c rest

end Lexeme

/-- Whether a word would go on with the character `d`, or begin a comment with it. -/
def joins (word : List Char) (d : Char) : Bool :=
  match word with
  | [] => false
  | c :: rest =>
    if c.isDigit then d.isDigit
    else if Lexeme.isWordStart c then Lexeme.isWordPart d
    else if c = '"' then false
    else rest.isEmpty && ((TokenKind.ofPair? c d).isSome || c == '/' && (d == '/' || d == '*'))

/-- The text is laid out from the words. -/
inductive Layout : List String → List Char → Prop where
  | done {gap : List Char} (h : Gap true gap) : Layout [] gap
  | word {gap text : List Char} {word : String} {words : List String} (hg : Gap false gap)
    (hj : ∀ d ∈ text.head?, joins word.toList d = false) (h : Layout words text) :
    Layout (word :: words) (gap ++ (word.toList ++ text))

/-- What is left of a token without its place. -/
def Token.lexemeOf (t : Token) : Lexeme := ⟨t.kind, t.lexeme.toList, t.value.toList⟩

end Curly
