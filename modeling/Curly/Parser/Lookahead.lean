import Curly.Parser.Basic

/-! Looking ahead. Two questions are settled before anything of a statement is read: whether a type begins a method or
    a variable, and whether a name begins a call or an assignment. -/

namespace Curly.Parser

/-- Whether a name and a parenthesis follow the current token. -/
def namesMethod : Parser Bool := speculate do
  let _ ← advance
  if ← accept .identifier then
    check .leftParen
  else
    return false

/-- A type begins a method if modifiers go before it, if it is `void`, or if a name and a parenthesis follow it. -/
def isLikelyMethod (modifiers : List Token) (typeToken : Token) : Parser Bool :=
  if !modifiers.isEmpty || typeToken.kind == .kwVoid then
    return true
  else
    namesMethod

/-- Whether the rest of a dotted name and a parenthesis come next. -/
def continuesCall : Parser Bool :=
  fix fun again => do
    if ← accept .dot then
      if ← accept .identifier then
        again
      else
        return false
    else
      check .leftParen

/-- A name begins a call if a parenthesis follows it or the dotted name that it begins. -/
def isMethodCall : Parser Bool := speculate do
  let _ ← advance
  continuesCall

end Curly.Parser
