/-! The kinds of nodes in a syntax tree. -/

namespace Curly

/-- The kinds of nodes: the program, declarations and their parts, statements, nodes that label the role of their
    one child, and expressions. `error` stands for an expression that could not be read. -/
inductive NodeKind where
  | program
  | classDecl | methodDecl | declaration | modifier | returnType
  | whileLoop | ifElse | block | methodCall | assignment | increment | decrement
  | condition | body | thenBranch | elseBranch | argument
  | binaryOp | comparison | postIncrement | postDecrement | identifier | number | stringLiteral | error
deriving DecidableEq, Repr

namespace NodeKind

/-- Every kind, in the order of the declaration. -/
def all : List NodeKind :=
  [.program, .classDecl, .methodDecl, .declaration, .modifier, .returnType, .whileLoop, .ifElse, .block,
   .methodCall, .assignment, .increment, .decrement, .condition, .body, .thenBranch, .elseBranch, .argument,
   .binaryOp, .comparison, .postIncrement, .postDecrement, .identifier, .number, .stringLiteral, .error]

/-- The name of a kind in outlines. -/
def name : NodeKind → String
  | .program => "PROGRAM"
  | .classDecl => "CLASS"
  | .methodDecl => "METHOD"
  | .declaration => "DECLARATION"
  | .modifier => "MODIFIER"
  | .returnType => "RETURN_TYPE"
  | .whileLoop => "WHILE"
  | .ifElse => "IF"
  | .block => "BLOCK"
  | .methodCall => "METHOD_CALL"
  | .assignment => "ASSIGNMENT"
  | .increment => "INCREMENT"
  | .decrement => "DECREMENT"
  | .condition => "CONDITION"
  | .body => "BODY"
  | .thenBranch => "THEN"
  | .elseBranch => "ELSE"
  | .argument => "ARGUMENT"
  | .binaryOp => "BINARY_OP"
  | .comparison => "COMPARISON"
  | .postIncrement => "POST_INCREMENT"
  | .postDecrement => "POST_DECREMENT"
  | .identifier => "IDENTIFIER"
  | .number => "NUMBER"
  | .stringLiteral => "STRING_LITERAL"
  | .error => "ERROR"

/-- The long name of a kind, in the full form of a node. -/
def longName : NodeKind → String
  | .program => "Program"
  | .classDecl => "ClassDecl"
  | .methodDecl => "MethodDecl"
  | .declaration => "Declaration"
  | .modifier => "Modifier"
  | .returnType => "ReturnType"
  | .whileLoop => "WhileLoop"
  | .ifElse => "IfStatement"
  | .block => "Block"
  | .methodCall => "MethodCall"
  | .assignment => "Assignment"
  | .increment => "Increment"
  | .decrement => "Decrement"
  | .condition => "Condition"
  | .body => "Body"
  | .thenBranch => "Then"
  | .elseBranch => "Else"
  | .argument => "Argument"
  | .binaryOp => "BinaryOp"
  | .comparison => "Comparison"
  | .postIncrement => "PostIncrement"
  | .postDecrement => "PostDecrement"
  | .identifier => "Identifier"
  | .number => "Number"
  | .stringLiteral => "StringLiteral"
  | .error => "ErrorNode"

/-- The kinds that label the role of their one child. -/
def isLabel : NodeKind → Bool
  | .condition | .body | .thenBranch | .elseBranch | .argument => true
  | _ => false

/-- The kinds whose nodes stand where their first child stands, unless they are given a line of their own. -/
def followsChild : NodeKind → Bool
  | .binaryOp | .comparison | .postIncrement | .postDecrement => true
  | kind => kind.isLabel

/-- The kinds to whose nodes children can be added at the end. -/
def isContainer : NodeKind → Bool
  | .program | .classDecl | .methodDecl | .block | .methodCall => true
  | _ => false

end NodeKind
end Curly
