import Curly.Syntax.Reading
import Curly.Token.Layout

/-! Programs written as words. Parentheses are written where the grammar needs them, and the parameters of a method are
    left empty. -/

namespace Curly

/-! ### What can be written -/

/-- A word that is no keyword. -/
def isName (name : String) : Bool :=
  match name.toList with
  | [] => false
  | c :: rest => Lexeme.isWordStart c && rest.all Lexeme.isWordPart && (TokenKind.keywords.lookup name).isNone

/-- The names of a dotted name. -/
def nameParts (name : String) : List String := (name.toList.splitOn '.').map String.ofList

def isNumber (text : String) : Bool := text != "" && text.toList.all Char.isDigit

def additiveOperators : List String := ["+", "-"]

def multiplicativeOperators : List String := ["*", "/", "%"]

def comparisonOperators : List String := ["==", "!=", "<", ">", "<=", ">="]

/-- An expression that can be written: nothing in it could not be read, and its words are words of their kinds. -/
def Expr.isSource : Expr → Bool
  | number text _ => isNumber text
  | identifier name _ | postIncrement name _ | postDecrement name _ => isName name
  | string _ _ => true
  | binary operator left right =>
    (additiveOperators.contains operator || multiplicativeOperators.contains operator) && left.isSource && right.isSource
  | comparison operator left right => comparisonOperators.contains operator && left.isSource && right.isSource
  | error _ => false

namespace Stmt

mutual
/-- A statement that can be written. No branch in front of an `else` ends in a conditional that would take it. -/
def isSource : Stmt → Bool
  | classDecl name modifiers body _ =>
    isName name && modifiers.all (fun m => (TokenKind.ofWord m.text).isModifier) && areSource body
  | methodDecl name returnType modifiers body _ =>
    isName name && (TokenKind.ofWord returnType.text).isType &&
      modifiers.all (fun m => (TokenKind.ofWord m.text).isModifier) && areSource body
  | declaration typeName name initial _ =>
    (TokenKind.ofWord typeName).isType && TokenKind.ofWord typeName != .kwVoid && isName name &&
      initial.all Expr.isSource
  | whileLoop condition body _ => condition.isSource && body.isSome && isSourceIn body
  | ifElse condition thenBranch elseBranch _ =>
    condition.isSource && thenBranch.isSome && isSourceIn thenBranch && isSourceIn elseBranch &&
      (elseBranch.isNone || !endsOpenIn false thenBranch)
  | block body _ => areSource body
  | methodCall name arguments _ => (nameParts name).all isName && arguments.all Expr.isSource
  | assignment name value _ => isName name && value.isSource
  | increment name _ | decrement name _ => isName name

def areSource : List Stmt → Bool
  | [] => true
  | s :: rest => s.isSource && areSource rest

def isSourceIn : Option Stmt → Bool
  | none => true
  | some s => s.isSource
end

end Stmt

def Program.isSource (p : Program) : Bool := Stmt.areSource p

/-! ### Words -/

/-- How loosely a level binds. -/
def Level.rank : Level → Nat
  | factor => 0
  | term => 1
  | expression => 2
  | condition => 3

/-- Words of one level at a place for another. -/
def enclose (outer inner : Level) (words : List String) : List String :=
  if inner.rank ≤ outer.rank then words else "(" :: (words ++ [")"])

/-- A string literal for the text. -/
def quoted (text : String) : String := String.ofList ('"' :: (Lexeme.escape text.toList ++ ['"']))

namespace Expr

/-- The level of an expression that is not in parentheses. -/
def level : Expr → Level
  | binary operator _ _ => if additiveOperators.contains operator then .expression else .term
  | comparison _ _ _ => .condition
  | _ => .factor

def words : Expr → List String
  | number text _ => [text]
  | identifier name _ => [name]
  | string text _ => [quoted text]
  | postIncrement name _ => [name, "++"]
  | postDecrement name _ => [name, "--"]
  | binary operator left right =>
    if additiveOperators.contains operator then
      enclose .expression left.level left.words ++ operator :: enclose .term right.level right.words
    else
      enclose .term left.level left.words ++ operator :: enclose .factor right.level right.words
  | comparison operator left right =>
    enclose .expression left.level left.words ++ operator :: enclose .expression right.level right.words
  | error _ => []

/-- The words of a value: of a comparison, they are in parentheses. -/
def valueWords (e : Expr) : List String := enclose .expression e.level e.words

/-- The words of arguments, with commas between them. -/
def argumentWords : List Expr → List String
  | [] => []
  | [e] => e.valueWords
  | e :: rest => e.valueWords ++ "," :: argumentWords rest

end Expr

namespace Stmt

mutual
def words : Stmt → List String
  | classDecl name modifiers body _ =>
    modifiers.map Word.text ++ "class" :: name :: "\x7b" :: (bodyWords body ++ ["\x7d"])
  | methodDecl name returnType modifiers body _ =>
    modifiers.map Word.text ++ returnType.text :: name :: "(" :: ")" :: "\x7b" :: (bodyWords body ++ ["\x7d"])
  | declaration typeName name none _ => [typeName, name, ";"]
  | declaration typeName name (some initial) _ => typeName :: name :: "=" :: (initial.valueWords ++ [";"])
  | whileLoop condition body _ => "while" :: "(" :: (condition.words ++ ")" :: branchWords [] body)
  | ifElse condition thenBranch elseBranch _ =>
    "if" :: "(" :: (condition.words ++ ")" :: (branchWords [] thenBranch ++ branchWords ["else"] elseBranch))
  | block body _ => "\x7b" :: (bodyWords body ++ ["\x7d"])
  | methodCall name arguments _ =>
    (nameParts name).intersperse "." ++ "(" :: (Expr.argumentWords arguments ++ [")", ";"])
  | assignment name value _ => name :: "=" :: (value.valueWords ++ [";"])
  | increment name _ => [name, "++", ";"]
  | decrement name _ => [name, "--", ";"]

def bodyWords : List Stmt → List String
  | [] => []
  | s :: rest => s.words ++ bodyWords rest

/-- The words of a branch that is present, after those that introduce it. -/
def branchWords (intro : List String) : Option Stmt → List String
  | none => []
  | some s => intro ++ s.words
end

end Stmt

def Program.words (p : Program) : List String := Stmt.bodyWords p

/-- The text of a program, with a blank between any two words. -/
def Program.unparse (p : Program) : String := " ".intercalate p.words

end Curly
