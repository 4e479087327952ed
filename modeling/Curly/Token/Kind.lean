/-! The kinds of tokens, with the fixed spellings of keywords, operators and punctuation, and the classes of
    kinds that the grammar speaks of. -/

namespace Curly

/-- The kinds of tokens. `error` is a character that starts no token; the kinds that begin with `kw` are
    keywords. -/
inductive TokenKind where
  | eof | error
  | number | stringLiteral | identifier
  | kwWhile | kwIf | kwElse | kwReturn
  | kwVoid | kwInt | kwString | kwDouble | kwChar | kwBoolean
  | kwClass | kwPublic | kwPrivate | kwProtected | kwStatic | kwFinal
  | assign | plus | minus | times | divide | modulo | increment | decrement
  | equal | notEqual | less | greater | lessEqual | greaterEqual
  | leftParen | rightParen | leftBrace | rightBrace | semicolon | comma | dot
deriving DecidableEq, Repr

namespace TokenKind

/-- Every kind, in the order of the declaration. -/
def all : List TokenKind :=
  [.eof, .error, .number, .stringLiteral, .identifier, .kwWhile, .kwIf, .kwElse, .kwReturn, .kwVoid,
   .kwInt, .kwString, .kwDouble, .kwChar, .kwBoolean, .kwClass, .kwPublic, .kwPrivate, .kwProtected,
   .kwStatic, .kwFinal, .assign, .plus, .minus, .times, .divide, .modulo, .increment, .decrement, .equal,
   .notEqual, .less, .greater, .lessEqual, .greaterEqual, .leftParen, .rightParen, .leftBrace, .rightBrace,
   .semicolon, .comma, .dot]

/-- The name of a kind in listings. -/
def name : TokenKind → String
  | .eof => "EOF"
  | .error => "ERROR"
  | .number => "NUMBER"
  | .stringLiteral => "STRING_LITERAL"
  | .identifier => "IDENTIFIER"
  | .kwWhile => "WHILE"
  | .kwIf => "IF"
  | .kwElse => "ELSE"
  | .kwReturn => "RETURN"
  | .kwVoid => "VOID"
  | .kwInt => "INT"
  | .kwString => "STRING"
  | .kwDouble => "DOUBLE"
  | .kwChar => "CHAR"
  | .kwBoolean => "BOOLEAN"
  | .kwClass => "CLASS"
  | .kwPublic => "PUBLIC"
  | .kwPrivate => "PRIVATE"
  | .kwProtected => "PROTECTED"
  | .kwStatic => "STATIC"
  | .kwFinal => "FINAL"
  | .assign => "ASSIGN"
  | .plus => "PLUS"
  | .minus => "MINUS"
  | .times => "MULTIPLY"
  | .divide => "DIVIDE"
  | .modulo => "MODULO"
  | .increment => "INCREMENT"
  | .decrement => "DECREMENT"
  | .equal => "EQUAL"
  | .notEqual => "NOT_EQUAL"
  | .less => "LESS_THAN"
  | .greater => "GREATER_THAN"
  | .lessEqual => "LESS_EQUAL"
  | .greaterEqual => "GREATER_EQUAL"
  | .leftParen => "LEFT_PAREN"
  | .rightParen => "RIGHT_PAREN"
  | .leftBrace => "LEFT_BRACE"
  | .rightBrace => "RIGHT_BRACE"
  | .semicolon => "SEMICOLON"
  | .comma => "COMMA"
  | .dot => "DOT"

/-- Kinds are numbered from 1 in the order of the declaration. -/
def ordinal (kind : TokenKind) : Nat := all.idxOf kind + 1

/-- The kind of a given name. -/
def ofName? (name : String) : Option TokenKind := all.find? (·.name == name)

/-! ### Fixed spellings -/

/-- The keywords. Case matters. -/
def keywords : List (String × TokenKind) :=
  [("while", .kwWhile), ("if", .kwIf), ("else", .kwElse), ("return", .kwReturn),
   ("void", .kwVoid), ("int", .kwInt), ("String", .kwString), ("double", .kwDouble),
   ("char", .kwChar), ("boolean", .kwBoolean),
   ("class", .kwClass), ("public", .kwPublic), ("private", .kwPrivate),
   ("protected", .kwProtected), ("static", .kwStatic), ("final", .kwFinal)]

/-- Operators of two characters. -/
def pairOperators : List ((Char × Char) × TokenKind) :=
  [(('=', '='), .equal), (('!', '='), .notEqual), (('<', '='), .lessEqual), (('>', '='), .greaterEqual),
   (('+', '+'), .increment), (('-', '-'), .decrement)]

/-- Operators and punctuation of one character. -/
def charOperators : List (Char × TokenKind) :=
  [('=', .assign), ('<', .less), ('>', .greater), ('+', .plus), ('-', .minus), ('*', .times),
   ('/', .divide), ('%', .modulo), ('(', .leftParen), (')', .rightParen), ('\x7b', .leftBrace),
   ('\x7d', .rightBrace), (';', .semicolon), (',', .comma), ('.', .dot)]

/-- The kind of a word: its keyword, or an identifier. -/
def ofWord (word : String) : TokenKind := (keywords.lookup word).getD .identifier

def ofPair? (c d : Char) : Option TokenKind := pairOperators.lookup (c, d)

def ofChar? (c : Char) : Option TokenKind := charOperators.lookup c

theorem mem_of_lookup {α : Type} [BEq α] [LawfulBEq α] {table : List (α × TokenKind)} {a : α} {kind : TokenKind}
    (h : table.lookup a = some kind) : (a, kind) ∈ table := by
  rcases List.lookup_eq_some_iff.mp h with ⟨before, after, rfl, -⟩
  exact List.mem_append_right _ List.mem_cons_self

/-! ### Classes -/

/-- The modifiers of classes and methods. -/
def isModifier : TokenKind → Bool
  | .kwPublic | .kwPrivate | .kwProtected | .kwStatic | .kwFinal => true
  | _ => false

/-- The keywords that name a type. -/
def isType : TokenKind → Bool
  | .kwVoid | .kwInt | .kwString | .kwDouble | .kwChar | .kwBoolean => true
  | _ => false

def isComparison : TokenKind → Bool
  | .equal | .notEqual | .less | .greater | .lessEqual | .greaterEqual => true
  | _ => false

def isAdditive : TokenKind → Bool
  | .plus | .minus => true
  | _ => false

def isMultiplicative : TokenKind → Bool
  | .times | .divide | .modulo => true
  | _ => false

/-- The kinds that end an argument list, whether or not it is closed. -/
def endsArguments : TokenKind → Bool
  | .rightParen | .semicolon | .rightBrace => true
  | _ => false

/-- The kinds at which parsing may resume after a declaration that was not ended. -/
def isBoundary : TokenKind → Bool
  | .semicolon | .kwWhile | .kwIf | .identifier | .rightBrace
  | .kwPublic | .kwPrivate | .kwProtected => true
  | kind => kind.isType

end TokenKind
end Curly
