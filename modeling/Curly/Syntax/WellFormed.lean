import Curly.Syntax.Unparse

/-! Well-formed trees. What the tree of a program looks like if nothing in it is missing, misnamed or ambiguous. -/

namespace Curly.Tree

mutual
/-- Whether the last part of the tree of a statement is a conditional without `else`. -/
def endsOpen : Tree → Bool
  | node .ifElse _ _ cs => if cs.getLast?.map kind = some .elseBranch then lastEndsOpen cs else true
  | node .whileLoop _ _ cs | node .body _ _ cs | node .thenBranch _ _ cs | node .elseBranch _ _ cs => lastEndsOpen cs
  | _ => false

/-- The same of the last of some trees. -/
def lastEndsOpen : List Tree → Bool
  | [] => false
  | [t] => t.endsOpen
  | _ :: t :: ts => lastEndsOpen (t :: ts)
end

/-- A node that has its parts, and that is named by words of the right kinds. No branch in front of an `else` ends in a
    conditional that would take it. -/
def WellFormed (t : Tree) : Prop :=
  match t.kind with
  | .error => False
  | .whileLoop => t.children.map kind = [.condition, .body]
  | .ifElse => t.children.map kind = [.condition, .thenBranch] ∨
      t.children.map kind = [.condition, .thenBranch, .elseBranch] ∧ ∀ branch ∈ t.children[1]?, branch.endsOpen = false
  | .classDecl | .methodDecl | .assignment | .increment | .decrement => isName t.value
  | .methodCall => (nameParts t.value).all isName
  | .returnType => (TokenKind.ofWord t.value).isType
  | .declaration => ∃ type name, t.value = type ++ " " ++ name ∧ (TokenKind.ofWord type).isType ∧
      TokenKind.ofWord type ≠ .kwVoid ∧ isName name
  | _ => True

end Curly.Tree
