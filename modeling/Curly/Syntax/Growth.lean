import Curly.Syntax.Stmt
import Curly.Tree.Forest

/-! Growing the tree of a program: its nodes are built one by one, in the order in which they are built during a parse.
    Programs, classes, methods, blocks and calls are built before the statements or arguments in them, which are added at
    the end; every other node is built over its children. -/

namespace Curly

/-- A construction of nodes. It ends early when a node is refused. -/
abbrev Growth : Type → Type := StateT Forest (Except Refusal)

namespace Growth

def build (d : Draft Handle) : Growth Handle := fun f =>
  match f.build d with
  | (g, .ok h) => .ok (h, g)
  | (_, .error refusal) => .error refusal

def append (parent child : Handle) : Growth Unit := fun f =>
  match f.append parent child with
  | (g, none) => .ok ((), g)
  | (_, some refusal) => .error refusal

def leaf (kind : NodeKind) (value : String) (line : Int) : Growth Handle := build (.leaf kind value line)

/-- A label is given no line of its own. -/
def label (kind : NodeKind) (inner : Handle) : Growth Handle := build (.label kind inner 0)

/-- The label of a body or branch that is present. -/
def label? (kind : NodeKind) : Option Handle → Growth (Option Handle)
  | none => return none
  | some inner => some <$> label kind inner

end Growth

namespace Expr

def grow : Expr → Growth Handle
  | number text l => .leaf .number text l
  | identifier name l => .leaf .identifier name l
  | string text l => .leaf .stringLiteral text l
  | postIncrement name l => do
    let operand ← Growth.leaf .identifier name l
    Growth.build (.postfixStep .postIncrement operand 0)
  | postDecrement name l => do
    let operand ← Growth.leaf .identifier name l
    Growth.build (.postfixStep .postDecrement operand 0)
  | binary operator left right => do
    let left ← left.grow
    let right ← right.grow
    Growth.build (.operation .binaryOp operator left right 0)
  | comparison operator left right => do
    let left ← left.grow
    let right ← right.grow
    Growth.build (.operation .comparison operator left right 0)
  | error l => .leaf .error "" l

end Expr

/-- The modifiers of a class or method. -/
def Word.growAll : List Word → Growth (List Handle)
  | [] => return []
  | w :: rest => do
    let h ← Growth.leaf .modifier w.text w.line
    return h :: (← growAll rest)

/-- The initial value of a variable, if it has one. -/
def Expr.growOption : Option Expr → Growth (Option Handle)
  | none => return none
  | some e => some <$> e.grow

/-- Adds the arguments of a call. -/
def Expr.growInto (call : Handle) : List Expr → Growth Unit
  | [] => return ()
  | e :: rest => do
    let argument ← e.grow
    Growth.append call (← Growth.label .argument argument)
    growInto call rest

namespace Stmt

mutual
def grow : Stmt → Growth Handle
  | classDecl name modifiers body l => do
    let modifiers ← Word.growAll modifiers
    let h ← Growth.build (.classDecl name modifiers [] l)
    growInto h body
    return h
  | methodDecl name returnType modifiers body l => do
    let returnType ← Growth.leaf .returnType returnType.text returnType.line
    let modifiers ← Word.growAll modifiers
    let h ← Growth.build (.methodDecl name returnType modifiers [] l)
    growInto h body
    return h
  | declaration typeName name initial l => do
    Growth.build (.declaration typeName name (← Expr.growOption initial) l)
  | whileLoop condition body l => do
    let condition ← condition.grow
    let body ← growOption body
    let condition ← Growth.label .condition condition
    let body ← Growth.label? .body body
    Growth.build (.whileLoop condition body l)
  | ifElse condition thenBranch elseBranch l => do
    let condition ← condition.grow
    let thenBranch ← growOption thenBranch
    let elseBranch ← growOption elseBranch
    let condition ← Growth.label .condition condition
    let thenBranch ← Growth.label? .thenBranch thenBranch
    let elseBranch ← Growth.label? .elseBranch elseBranch
    Growth.build (.ifElse condition thenBranch elseBranch l)
  | block body l => do
    let h ← Growth.build (.block [] l)
    growInto h body
    return h
  | methodCall name arguments l => do
    let h ← Growth.build (.methodCall name [] l)
    Expr.growInto h arguments
    return h
  | assignment name value l => do
    Growth.build (.assignment name (← value.grow) l)
  | increment name l => .leaf .increment name l
  | decrement name l => .leaf .decrement name l

/-- Adds statements to what they are part of. -/
def growInto (parent : Handle) : List Stmt → Growth Unit
  | [] => return ()
  | s :: rest => do
    Growth.append parent (← s.grow)
    growInto parent rest

def growOption : Option Stmt → Growth (Option Handle)
  | none => return none
  | some s => some <$> s.grow
end

end Stmt

def Program.grow (p : Program) : Growth Handle := do
  let h ← Growth.build (.program [])
  Stmt.growInto h p
  return h

end Curly
