import Curly.Token.Kind

/-! The grammar of programs over the kinds of tokens, as data. Every symbol has one production; a run of tokens is a
    sentence of a symbol if it matches the right-hand side of its production. -/

namespace Curly.Grammar

inductive Symbol where
  | program | statement
  | classDecl | methodDecl | declaration | whileLoop | ifElse | block | methodCall | arguments | assignment
  | condition | expression | term | factor
deriving DecidableEq, Repr

/-- The right-hand side of a production. -/
inductive Rule where
  | empty
  | token (admits : TokenKind → Bool)
  /-- Any run of tokens that closes just the parentheses that it opens. -/
  | balanced
  | symbol (s : Symbol)
  | both (first second : Rule)
  | either (first second : Rule)
  | many (rule : Rule)

namespace Rule

def kind (k : TokenKind) : Rule := token (· == k)

def sequence (rules : List Rule) : Rule := rules.foldr both empty

def choice (rules : List Rule) : Rule := rules.foldr either (token fun _ => false)

def optional (rule : Rule) : Rule := either rule empty

end Rule

/-- Whether a run of tokens closes the parentheses that it opens and `depth` more, in their order. -/
def closes : Nat → List TokenKind → Bool
  | depth, [] => depth == 0
  | depth, kind :: rest =>
    if kind = .eof then false
    else if kind = .rightParen then
      match depth with
      | 0 => false
      | depth + 1 => closes depth rest
    else closes (if kind = .leftParen then depth + 1 else depth) rest

/-- A run of tokens that closes just the parentheses that it opens: nowhere are more closed than were opened before, and
    at the end none is open. The run holds no end of the input. -/
structure Balanced (kinds : List TokenKind) : Prop where
  noEnd : .eof ∉ kinds
  opened : ∀ i, (kinds.take i).count .rightParen ≤ (kinds.take i).count .leftParen
  closed : kinds.count .rightParen = kinds.count .leftParen

/-- The runs of tokens that match a rule. -/
inductive Matches (production : Symbol → Rule) : Rule → List TokenKind → Prop where
  | empty : Matches production .empty []
  | token {admits : TokenKind → Bool} {k : TokenKind} (h : admits k) : Matches production (.token admits) [k]
  | balanced {ks : List TokenKind} (h : closes 0 ks) : Matches production .balanced ks
  | symbol {s : Symbol} {ks : List TokenKind} (h : Matches production (production s) ks) :
    Matches production (.symbol s) ks
  | both {r r' : Rule} {ks ks' : List TokenKind} (h : Matches production r ks) (h' : Matches production r' ks') :
    Matches production (.both r r') (ks ++ ks')
  | left {r r' : Rule} {ks : List TokenKind} (h : Matches production r ks) : Matches production (.either r r') ks
  | right {r r' : Rule} {ks : List TokenKind} (h : Matches production r' ks) : Matches production (.either r r') ks
  | done {r : Rule} : Matches production (.many r) []
  | again {r : Rule} {ks ks' : List TokenKind} (h : Matches production r ks) (h' : Matches production (.many r) ks') :
    Matches production (.many r) (ks ++ ks')

open Rule in
/-- The productions. With `finalComma`, the arguments of a call may end in a comma. -/
def production (finalComma : Bool) : Symbol → Rule
  | .program => many (symbol .statement)
  | .statement => sequence [many (token TokenKind.isModifier),
      choice [symbol .classDecl, symbol .methodDecl, symbol .declaration, symbol .whileLoop, symbol .ifElse,
        symbol .block, symbol .methodCall, symbol .assignment]]
  | .classDecl => sequence [kind .kwClass, kind .identifier, kind .leftBrace, many (symbol .statement), kind .rightBrace]
  | .methodDecl => sequence [token TokenKind.isType, kind .identifier, kind .leftParen, balanced, kind .rightParen,
      kind .leftBrace, many (symbol .statement), kind .rightBrace]
  | .declaration => sequence [token TokenKind.isType, kind .identifier,
      optional (sequence [kind .assign, symbol .expression]), kind .semicolon]
  | .whileLoop => sequence [kind .kwWhile, kind .leftParen, symbol .condition, kind .rightParen, symbol .statement]
  | .ifElse => sequence [kind .kwIf, kind .leftParen, symbol .condition, kind .rightParen, symbol .statement,
      optional (sequence [kind .kwElse, symbol .statement])]
  | .block => sequence [kind .leftBrace, many (symbol .statement), kind .rightBrace]
  | .methodCall => sequence [kind .identifier, many (sequence [kind .dot, kind .identifier]), symbol .arguments,
      kind .semicolon]
  | .arguments => sequence [kind .leftParen,
      optional (sequence [symbol .expression, many (sequence [kind .comma, symbol .expression]),
        if finalComma then optional (kind .comma) else empty]),
      kind .rightParen]
  | .assignment => sequence [kind .identifier,
      choice [sequence [kind .assign, symbol .expression], kind .increment, kind .decrement], kind .semicolon]
  | .condition => sequence [symbol .expression, optional (sequence [token TokenKind.isComparison, symbol .expression])]
  | .expression => sequence [symbol .term, many (sequence [token TokenKind.isAdditive, symbol .term])]
  | .term => sequence [symbol .factor, many (sequence [token TokenKind.isMultiplicative, symbol .factor])]
  | .factor => choice [kind .number, sequence [kind .identifier, optional (choice [kind .increment, kind .decrement])],
      kind .stringLiteral, sequence [kind .leftParen, symbol .condition, kind .rightParen]]

/-- The runs of tokens that are programs. -/
def Program (finalComma : Bool) (kinds : List TokenKind) : Prop :=
  Matches (production finalComma) (.symbol .program) kinds

end Curly.Grammar
