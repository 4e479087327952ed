import Curly.Syntax.Expr
import Curly.Token.Basic

/-! Statements and programs. -/

namespace Curly

/-- A word with its line: a modifier or a return type. -/
structure Word where
  text : String
  line : Int
deriving DecidableEq, Repr

/-- The word that a token was read from. -/
def Word.ofToken (t : Token) : Word := ⟨t.lexeme, t.line⟩

def Word.toTree (kind : NodeKind) (w : Word) : Tree := .leaf kind w.text w.line

/-- A statement. The body of a loop and the branches of a conditional are absent if they could not be read. The
    parameters of a method are not kept. -/
inductive Stmt where
  | classDecl (name : String) (modifiers : List Word) (body : List Stmt) (line : Int)
  | methodDecl (name : String) (returnType : Word) (modifiers : List Word) (body : List Stmt) (line : Int)
  | declaration (typeName name : String) (initial : Option Expr) (line : Int)
  | whileLoop (condition : Expr) (body : Option Stmt) (line : Int)
  | ifElse (condition : Expr) (thenBranch elseBranch : Option Stmt) (line : Int)
  | block (body : List Stmt) (line : Int)
  | methodCall (name : String) (arguments : List Expr) (line : Int)
  | assignment (name : String) (value : Expr) (line : Int)
  | increment (name : String) (line : Int)
  | decrement (name : String) (line : Int)
deriving Repr

namespace Stmt

mutual
def toTree : Stmt → Tree
  | classDecl name modifiers body l =>
    .node .classDecl name l (modifiers.map (Word.toTree .modifier) ++ toTrees body)
  | methodDecl name returnType modifiers body l =>
    .node .methodDecl name l
      (returnType.toTree .returnType :: modifiers.map (Word.toTree .modifier) ++ toTrees body)
  | declaration typeName name initial l =>
    .node .declaration (typeName ++ " " ++ name) l (initial.map Expr.toTree).toList
  | whileLoop condition body l =>
    .node .whileLoop "" l (.label .condition condition.toTree :: toBranch .body body)
  | ifElse condition thenBranch elseBranch l =>
    .node .ifElse "" l (.label .condition condition.toTree ::
      (toBranch .thenBranch thenBranch ++ toBranch .elseBranch elseBranch))
  | block body l => .node .block "" l (toTrees body)
  | methodCall name arguments l =>
    .node .methodCall name l (arguments.map fun e => .label .argument e.toTree)
  | assignment name value l => .node .assignment name l [value.toTree]
  | increment name l => .leaf .increment name l
  | decrement name l => .leaf .decrement name l

def toTrees : List Stmt → List Tree
  | [] => []
  | s :: rest => toTree s :: toTrees rest

/-- The labelled node of a body or branch that is present. -/
def toBranch (kind : NodeKind) : Option Stmt → List Tree
  | none => []
  | some s => [.label kind (toTree s)]
end

theorem toTrees_eq (body : List Stmt) : toTrees body = body.map toTree := by
  induction body with
  | nil => rfl
  | cons st body ih => rw [toTrees, ih, List.map_cons]

end Stmt

/-- A program is a sequence of statements. -/
abbrev Program := List Stmt

def Program.toTree (p : Program) : Tree := .node .program "" 0 (Stmt.toTrees p)

end Curly
