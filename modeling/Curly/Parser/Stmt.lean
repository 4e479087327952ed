import Curly.Parser.Expr
import Curly.Parser.Lookahead
import Curly.Parser.Resume
import Curly.Syntax.Stmt

/-! Parsing statements and programs.

    Program     := Statement*
    Statement   := Modifier* (Class | Method | Declaration | While | If | Block | MethodCall | Assignment)
    Class       := 'class' IDENT '{' Statement* '}'
    Method      := Type IDENT '(' parameters ')' '{' Statement* '}'
    Declaration := Type IDENT ('=' Expr)? ';'
    While       := 'while' '(' Condition ')' Statement
    If          := 'if' '(' Condition ')' Statement ('else' Statement)?
    Block       := '{' Statement* '}'
    MethodCall  := IDENT ('.' IDENT)* '(' (Expr (',' Expr)*)? ')' ';'
    Assignment  := IDENT ('=' Expr | '++' | '--') ';'

    Parameters are skipped up to the matching parenthesis. The rules take the parser for a nested statement as their
    first argument; it yields nothing where no statement could be read. -/

namespace Curly.Parser

/-! ### Statements without statements in them -/

/-- Counts a statement that begins, and breaks the parse off if this is the one to break off at. -/
def begin : Parser Unit := fun s c =>
  let d := { c with begun := c.begun + 1 }
  match s.interruption with
  | some ⟨number, message⟩ =>
    if number = d.begun then .stopped (.interrupted message) d [] else .done () d [.began c.ahead.length]
  | none => .done () d [.began c.ahead.length]

/-- The initial value of a variable, if it is given one. -/
def initializer : Parser (Option Expr) := do
  if ← accept .assign then
    some <$> expression condition
  else
    return none

/-- The semicolon after the declaration of `name`. If it is missing, this is reported at the name, and parsing resumes
    further on. -/
def endDeclaration (name : Token) : Parser Unit := do
  unless ← accept .semicolon do
    report (.missingSemicolon "declaration" name (some (← peek)))
    resume

/-- The declaration of a variable. If the name is missing, only the type is read. -/
def declaration : Parser (Option Stmt) := do
  let typeToken ← advance
  let name ← peek
  if name.kind == .identifier then
    let _ ← advance
    let initial ← initializer
    endDeclaration name
    return some (.declaration typeToken.lexeme name.lexeme initial typeToken.line)
  else
    report (.unexpected "Expected identifier" name)
    return none

/-- The tokens of a dotted name, names and dots in turn. -/
def dottedName : Parser (List Token) :=
  fix fun again => do
    if ← check .identifier then
      let t ← advance
      if ← check .dot then
        let dot ← advance
        return t :: dot :: (← again)
      else
        return [t]
    else
      return []

/-- Whether an argument may begin with a token of this kind. -/
def goesOnArguments (kind : TokenKind) : Bool := kind != .eof && !kind.endsArguments

/-- The comma after an argument, which is missed only if another argument follows. -/
def separator : Parser Unit := do
  unless ← accept .comma do
    let t ← peek
    if goesOnArguments t.kind then
      report (.unexpected "Expected ',' between arguments" t)

def argument : Parser Expr := do
  let value ← expression condition
  separator
  return value

def methodCall : Parser Stmt := do
  let first ← peek
  let name ← dottedName
  let _ ← expect .leftParen "Expected '(' after method name"
  let arguments ← repeatWhile goesOnArguments argument
  let _ ← expect .rightParen "Expected ')' after method arguments"
  expectSemicolon "method call" first
  return .methodCall (String.join (name.map Token.lexeme)) arguments first.line

/-- An assignment, an increment or a decrement of a variable. -/
def assignment : Parser (Option Stmt) := do
  let name ← expect .identifier "Expected identifier"
  if ← accept .assign then
    let value ← expression condition
    expectSemicolon "assignment" name
    return some (.assignment name.lexeme value name.line)
  else if ← accept .increment then
    expectSemicolon "increment" name
    return some (.increment name.lexeme name.line)
  else if ← accept .decrement then
    expectSemicolon "decrement" name
    return some (.decrement name.lexeme name.line)
  else
    report (.invalidAssignment name)
    return none

/-- Skips parameters when `depth` parentheses are open among them. -/
def skipParametersWithin : Nat → Parser Unit :=
  fixOver fun again depth => do
    let t ← peek
    if t.kind = .eof then
      return ()
    else if t.kind = .rightParen then
      match depth with
      | 0 => return ()
      | depth + 1 =>
        let _ ← advance
        again depth
    else
      let _ ← advance
      again (if t.kind = .leftParen then depth + 1 else depth)

/-- Skips parameters up to the closing parenthesis or the end of the input. -/
def skipParameters : Parser Unit := skipParametersWithin 0

/-! ### Statements with statements in them -/

section
variable (statement : Parser (Option Stmt))

/-- Statements up to a closing brace or the end of the input. -/
def statementsUntilBrace : Parser (List Stmt) := do
  let found ← repeatWhile (fun kind => kind != .eof && kind != .rightBrace) statement
  return found.reduceOption

def classDecl (modifiers : List Token) : Parser Stmt := do
  let _ ← expect .kwClass "Expected 'class' keyword"
  let name ← expect .identifier "Expected class name"
  let _ ← expect .leftBrace "Expected '\x7b' to start class body"
  let body ← statementsUntilBrace statement
  let _ ← expect .rightBrace "Expected '\x7d' to close class body"
  return .classDecl name.lexeme (modifiers.map Word.ofToken) body name.line

def methodDecl (modifiers : List Token) : Parser Stmt := do
  let returnType ← advance
  let name ← expect .identifier "Expected method name"
  let _ ← expect .leftParen "Expected '(' for method parameters"
  skipParameters
  let _ ← expect .rightParen "Expected ')' after method parameters"
  let _ ← expect .leftBrace "Expected '\x7b' to start method body"
  let body ← statementsUntilBrace statement
  let _ ← expect .rightBrace "Expected '\x7d' to close method body"
  return .methodDecl name.lexeme (.ofToken returnType) (modifiers.map Word.ofToken) body name.line

def whileLoop : Parser Stmt := do
  let first ← expect .kwWhile "Expected 'while'"
  let _ ← expect .leftParen "Expected '(' after 'while'"
  let test ← condition
  let _ ← expect .rightParen "Expected ')' to close the condition"
  let body ← statement
  return .whileLoop test body first.line

/-- The branch after `else`, if there is one. -/
def elseBranch : Parser (Option Stmt) := do
  if ← accept .kwElse then
    statement
  else
    return none

def ifElse : Parser Stmt := do
  let first ← expect .kwIf "Expected 'if'"
  let _ ← expect .leftParen "Expected '(' after 'if'"
  let test ← condition
  let _ ← expect .rightParen "Expected ')' to close the condition"
  let positive ← statement
  let negative ← elseBranch statement
  return .ifElse test positive negative first.line

def block : Parser Stmt := do
  let first ← expect .leftBrace "Expected '\x7b'"
  let body ← statementsUntilBrace statement
  let _ ← expect .rightBrace "Expected '\x7d'"
  return .block body first.line

/-- What follows the modifiers of a statement. A token that begins no statement is reported and read. -/
def afterModifiers (modifiers : List Token) : Parser (Option Stmt) := do
  let t ← peek
  if t.kind == .kwClass then
    some <$> classDecl statement modifiers
  else if t.kind.isType then
    if ← isLikelyMethod modifiers t then
      some <$> methodDecl statement modifiers
    else
      declaration
  else if t.kind == .kwWhile then
    some <$> whileLoop statement
  else if t.kind == .kwIf then
    some <$> ifElse statement
  else if t.kind == .identifier then
    if ← isMethodCall then
      some <$> methodCall
    else
      assignment
  else if t.kind == .leftBrace then
    some <$> block statement
  else
    report (.unrecognizedStatement t)
    let _ ← advance
    return none

def statementRule : Parser (Option Stmt) := do
  begin
  let modifiers ← repeatWhile TokenKind.isModifier advance
  afterModifiers statement modifiers

end

/-- One statement, or nothing where none could be read. -/
def statement : Parser (Option Stmt) := fix statementRule

/-- Breaks the parse off if it is to be broken off before the first statement. -/
def beginProgram : Parser Unit := fun s c =>
  match s.interruption with
  | some ⟨0, message⟩ => .stopped (.interrupted message) c []
  | _ => .done () c []

/-- The statements up to the end of the input. -/
def program : Parser Program := do
  beginProgram
  let found ← repeatWhile (· != .eof) statement
  return found.reduceOption

end Curly.Parser
