import Curly.Tree.Basic

/-! Expressions. -/

namespace Curly

/-- An expression. Names, numbers and operators are kept as they were written. `error` stands in the place of an
    expression that could not be read. -/
inductive Expr where
  | number (text : String) (line : Int)
  | identifier (name : String) (line : Int)
  | string (text : String) (line : Int)
  | postIncrement (name : String) (line : Int)
  | postDecrement (name : String) (line : Int)
  | binary (operator : String) (left right : Expr)
  | comparison (operator : String) (left right : Expr)
  | error (line : Int)
deriving DecidableEq, Repr

namespace Expr

/-- The line of an expression, which is that of its leftmost part. -/
def line : Expr → Int
  | number _ l | identifier _ l | string _ l | postIncrement _ l | postDecrement _ l | error l => l
  | binary _ left _ | comparison _ left _ => left.line

def toTree : Expr → Tree
  | number text l => .leaf .number text l
  | identifier name l => .leaf .identifier name l
  | string text l => .leaf .stringLiteral text l
  | postIncrement name l => .label .postIncrement (.leaf .identifier name l)
  | postDecrement name l => .label .postDecrement (.leaf .identifier name l)
  | binary operator left right => .node .binaryOp operator left.line [left.toTree, right.toTree]
  | comparison operator left right => .node .comparison operator left.line [left.toTree, right.toTree]
  | error l => .leaf .error "" l

/-- Applies operators from the left: each takes what was built so far as its left operand. -/
def chain (first : Expr) (rest : List (String × Expr)) : Expr :=
  rest.foldl (fun left (operator, right) => binary operator left right) first

end Expr
end Curly
