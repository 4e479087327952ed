import Curly.Syntax.Mistake

/-! Parsers. A parser reads tokens from a cursor and yields a value; what it finds wrong goes into a log and does not
    end it. It ends early only when it is interrupted, or when it would go round without reading anything. -/

namespace Curly

/-- Breaks a parse off where a statement begins: the statement is given by its number, counted from 1 in the order in
    which statements begin, nested ones included; number 0 is the program itself. -/
structure Interruption where
  statement : Nat
  message : String
deriving DecidableEq, Repr

/-- What stays the same during a parse: the token that marks the end of the input, and the interruption. -/
structure Setting where
  marker : Token
  interruption : Option Interruption
deriving DecidableEq, Repr

/-- Where a parse stands: the tokens that are not read yet, and the number of statements that have begun. -/
structure Cursor where
  ahead : List Token
  begun : Nat
deriving DecidableEq, Repr

/-- The cursor after the next `n` tokens, or after all that are left. -/
def Cursor.skip (c : Cursor) (n : Nat) : Cursor := { c with ahead := c.ahead.drop n }

/-- The token at which something is reported that happens at a cursor. -/
def Setting.current (s : Setting) (c : Cursor) : Token := c.ahead.head?.getD s.marker

/-- An entry of the log. -/
inductive Event where
  /-- With so many tokens ahead, a statement begins. -/
  | began (ahead : Nat)
  /-- With so many tokens ahead, the current one was read. -/
  | read (ahead : Nat)
  /-- A mistake was found. -/
  | found (mistake : Mistake)
  /-- With so many tokens ahead, so many were skipped to reach a place where parsing can resume. -/
  | resumed (ahead skipped : Nat)
deriving DecidableEq, Repr

/-- The mistake that an entry tells of. -/
def Event.mistake? : Event → Option Mistake
  | .found m => some m
  | _ => none

/-- Why a parse ended early. -/
inductive Stop where
  | interrupted (message : String)
  /-- A token was asked for where there is none. -/
  | outOfTokens
  /-- A repetition or a recursion went round without reading a token. -/
  | noProgress
deriving DecidableEq, Repr

def Stop.message : Stop → String
  | .interrupted message => message
  | .outOfTokens => "out of tokens"
  | .noProgress => "no progress"

/-- What a parser comes to: a value, or a stop; either way with the cursor there and the log. -/
inductive Outcome (α : Type) where
  | done (value : α) (cursor : Cursor) (log : List Event)
  | stopped (stop : Stop) (cursor : Cursor) (log : List Event)
deriving DecidableEq, Repr

namespace Outcome

variable {α β : Type}

def cursor : Outcome α → Cursor
  | done _ c _ | stopped _ c _ => c

def log : Outcome α → List Event
  | done _ _ log | stopped _ _ log => log

/-- The outcome with earlier entries before its log. -/
def after (earlier : List Event) : Outcome α → Outcome α
  | done a c log => done a c (earlier ++ log)
  | stopped s c log => stopped s c (earlier ++ log)

/-- Continues with the value, unless the parse stopped. -/
def andThen (o : Outcome α) (f : α → Cursor → Outcome β) : Outcome β :=
  match o with
  | done a c log => (f a c).after log
  | stopped s c log => stopped s c log

end Outcome

def Parser (α : Type) : Type := Setting → Cursor → Outcome α

namespace Parser

variable {α ι : Type}

instance : Monad Parser where
  pure a := fun _ c => .done a c []
  bind p f := fun s c => (p s c).andThen fun a d => f a s d

/-! ### Reading tokens -/

/-- The current token. -/
def peek : Parser Token := fun _ c =>
  match c.ahead with
  | [] => .stopped .outOfTokens c []
  | t :: _ => .done t c []

/-- Reads the current token. An end of the input can be read again and again. -/
def advance : Parser Token := fun _ c =>
  match c.ahead with
  | [] => .stopped .outOfTokens c []
  | t :: rest =>
    if t.kind = .eof then .done t c []
    else .done t { c with ahead := rest } [.read (rest.length + 1)]

/-- Whether the current token is of a kind. -/
def check (kind : TokenKind) : Parser Bool := do
  return (← peek).kind == kind

/-- Reads the current token if it is of a kind, and tells whether it was. -/
def accept (kind : TokenKind) : Parser Bool := do
  if ← check kind then
    let _ ← advance
    return true
  else
    return false

/-- Looks ahead: what a parser reads is given back. -/
def speculate (p : Parser α) : Parser α := fun s c =>
  match p s c with
  | .done a d log => .done a { d with ahead := c.ahead } log
  | .stopped stop d log => .stopped stop { d with ahead := c.ahead } log

/-! ### Mistakes -/

def report (m : Mistake) : Parser Unit := fun _ c => .done () c [.found m]

/-- Reads a token of a kind. A token of another kind is reported and read all the same. -/
def expect (kind : TokenKind) (expectation : String) : Parser Token := do
  if ← check kind then
    advance
  else
    let t ← peek
    report (.unexpected expectation t)
    advance

/-- Reads the semicolon that ends a construct. If there is none, this is reported at the token `first`. -/
def expectSemicolon (construct : String) (first : Token) : Parser Unit := do
  unless ← accept .semicolon do
    report (.missingSemicolon construct first none)

/-! ### Recursion and repetition -/

/-- The parsers that a rule describes in terms of each other. The rule may use them only at places after the one where
    it was called; at any other place the parse stops, so the recursion ends. -/
def fixOver (rule : (ι → Parser α) → ι → Parser α) (i : ι) : Parser α := fun s c =>
  rule (fun j s d => if d.ahead.length < c.ahead.length then fixOver rule j s d else .stopped .noProgress d []) i s c
termination_by _ c => c.ahead.length

/-- The parser that a rule describes in terms of itself, with the same restriction. -/
def fix (rule : Parser α → Parser α) : Parser α := fixOver (fun again _ => rule (again ())) ()

/-- Parses again and again as long as the current token is of a kind that `go` admits. -/
def repeatWhile (go : TokenKind → Bool) (p : Parser α) : Parser (List α) :=
  fix fun again => do
    if go (← peek).kind then
      return (← p) :: (← again)
    else
      return []

end Parser
end Curly
