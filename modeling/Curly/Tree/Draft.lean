import Curly.Tree.Kind

/-! Drafts of nodes. A draft says what a node is to be made of; its children are given by references. The functions
    of this module draft the nodes of every kind from their parts, in the order in which the parts become children. -/

namespace Curly

/-- What a node is to be made of. -/
structure Draft (ref : Type) where
  kind : NodeKind
  value : String
  line : Int
  children : List ref
deriving DecidableEq, Repr

namespace Draft

variable {ref : Type}

/-- The line of the node. A node of a kind that follows its first child stands on the line of that child, if the draft
    gives it no line. -/
def placedLine (d : Draft ref) (lineOf : ref → Int) : Int :=
  match d.children with
  | first :: _ => if d.kind.followsChild && d.line == 0 then lineOf first else d.line
  | [] => d.line

/-! ### Programs and declarations -/

def program (statements : List ref) : Draft ref := ⟨.program, "", 0, statements⟩

def classDecl (name : String) (modifiers body : List ref) (line : Int) : Draft ref :=
  ⟨.classDecl, name, line, modifiers ++ body⟩

def methodDecl (name : String) (returnType : ref) (modifiers body : List ref) (line : Int) : Draft ref :=
  ⟨.methodDecl, name, line, returnType :: modifiers ++ body⟩

def declaration (typeName name : String) (initial : Option ref) (line : Int) : Draft ref :=
  ⟨.declaration, typeName ++ " " ++ name, line, initial.toList⟩

/-! ### Other statements -/

def whileLoop (condition : ref) (body : Option ref) (line : Int) : Draft ref :=
  ⟨.whileLoop, "", line, condition :: body.toList⟩

def ifElse (condition : ref) (thenBranch elseBranch : Option ref) (line : Int) : Draft ref :=
  ⟨.ifElse, "", line, condition :: thenBranch.toList ++ elseBranch.toList⟩

def block (statements : List ref) (line : Int) : Draft ref := ⟨.block, "", line, statements⟩

def methodCall (name : String) (arguments : List ref) (line : Int) : Draft ref :=
  ⟨.methodCall, name, line, arguments⟩

def assignment (name : String) (value : ref) (line : Int) : Draft ref := ⟨.assignment, name, line, [value]⟩

/-! ### Labels and expressions -/

/-- A node that labels the role of another one. -/
def label (kind : NodeKind) (inner : ref) (line : Int) : Draft ref := ⟨kind, "", line, [inner]⟩

/-- An arithmetic operation or a comparison. -/
def operation (kind : NodeKind) (operator : String) (left right : ref) (line : Int) : Draft ref :=
  ⟨kind, operator, line, [left, right]⟩

/-- An increment or decrement that is used as an expression. -/
def postfixStep (kind : NodeKind) (operand : ref) (line : Int) : Draft ref := ⟨kind, "", line, [operand]⟩

/-- A node without children: a modifier, a return type, an increment or decrement of a variable, a name, a literal or
    an error. -/
def leaf (kind : NodeKind) (value : String) (line : Int) : Draft ref := ⟨kind, value, line, []⟩

end Draft
end Curly
