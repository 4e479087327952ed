import Curly.Parser.Basic
import Curly.Syntax.Expr

/-! Parsing expressions.

    Condition := Expr (CompareOp Expr)?
    Expr      := Term (AdditiveOp Term)*
    Term      := Factor (MultiplicativeOp Factor)*
    Factor    := NUMBER | IDENT ('++' | '--')? | STRING | '(' Condition ')'

    Operators of one level associate to the left, and a comparison is not chained. The rules take the parser for a
    condition in parentheses as their first argument. -/

namespace Curly.Parser

section
variable (condition : Parser Expr)

/-- A number, a name, a string or a condition in parentheses. Any other token is reported, read, and stands for an
    expression that could not be read. -/
def factor : Parser Expr := do
  let t ← peek
  match t.kind with
  | .number =>
    let _ ← advance
    return .number t.lexeme t.line
  | .identifier =>
    let _ ← advance
    if ← accept .increment then
      return .postIncrement t.lexeme t.line
    else if ← accept .decrement then
      return .postDecrement t.lexeme t.line
    else
      return .identifier t.lexeme t.line
  | .stringLiteral =>
    let _ ← advance
    return .string t.value t.line
  | .leftParen =>
    let _ ← advance
    let inner ← condition
    let _ ← expect .rightParen "Expected ')'"
    return inner
  | _ =>
    report (.invalidExpression t)
    let _ ← advance
    return .error t.line

/-- Operands joined by operators of one level. -/
def chain (isOperator : TokenKind → Bool) (operand : Parser Expr) : Parser Expr := do
  let first ← operand
  let rest ← repeatWhile isOperator do
    let operator ← advance
    let right ← operand
    return (operator.lexeme, right)
  return first.chain rest

def term : Parser Expr := chain TokenKind.isMultiplicative (factor condition)

def expression : Parser Expr := chain TokenKind.isAdditive (term condition)

def conditionRule : Parser Expr := do
  let left ← expression condition
  if (← peek).kind.isComparison then
    let operator ← advance
    let right ← expression condition
    return .comparison operator.lexeme left right
  else
    return left

end

/-- An expression, or two compared with one another. -/
def condition : Parser Expr := fix conditionRule

end Curly.Parser
