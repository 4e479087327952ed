import Curly.Token.Basic
import Curly.Token.Trivia

/-! What stands between tokens. Each token stands somewhere in the text that it was read from; the gaps are the pieces
    of the text before, between and after them. -/

namespace Curly

/-- A run of blanks and comments. In a `final` one the text ends: there a line comment needs no line feed after it, and
    a block comment need not be closed. -/
inductive Gap (final : Bool) : List Char → Prop where
  | nil : Gap final []
  | blank {c : Char} {rest : List Char} (hc : Trivia.isBlank c) (h : Gap final rest) : Gap final (c :: rest)
  | lineComment {body rest : List Char} (hb : '\n' ∉ body) (hr : rest.head? = some '\n' ∨ final ∧ rest = [])
    (h : Gap final rest) : Gap final ('/' :: '/' :: (body ++ rest))
  | blockComment {body rest : List Char} (hb : ¬['*', '/'] <:+: body) (h : Gap final rest) :
    Gap final ('/' :: '*' :: (body ++ '*' :: '/' :: rest))
  | unclosed {body : List Char} (hf : final) (hb : ¬['*', '/'] <:+: body) : Gap final ('/' :: '*' :: body)

/-- The piece of a text from one index up to another. -/
def slice (text : List Char) (i j : Nat) : List Char := (text.drop i).take (j - i)

namespace Token

/-- The index of the first character of a token. -/
def start (t : Token) : Nat := t.location.offset.toNat

/-- The index after the last character of a token. -/
def stop (t : Token) : Nat := t.start + t.lexeme.length

/-- The gaps in front of tokens, where the first begins at an index. -/
def gaps (text : List Char) : Nat → List Token → List (List Char)
  | _, [] => []
  | i, t :: rest => slice text i t.start :: gaps text t.stop rest

/-- Gaps and tokens in turn. -/
def rebuild (text : List Char) : Nat → List Token → List Char
  | _, [] => []
  | i, t :: rest => slice text i t.start ++ t.lexeme.toList ++ rebuild text t.stop rest

end Token
end Curly
