import Curly.Syntax.Unparse

/-! What a tree has of the tokens that it was read from. Names, numbers and strings are its items: the leaves of its
    expressions are items, and other nodes are named by identifiers. Of the parameters of a method a tree has nothing. -/

namespace Curly

/-! ### Items -/

/-- A name, a number or a string, with its line. -/
structure Item where
  kind : NodeKind
  text : String
  line : Int
deriving DecidableEq, Repr

/-- The item that a token is. -/
def Token.item? (t : Token) : Option Item :=
  match t.kind with
  | .identifier => some ⟨.identifier, t.lexeme, t.line⟩
  | .number => some ⟨.number, t.lexeme, t.line⟩
  | .stringLiteral => some ⟨.stringLiteral, t.value, t.line⟩
  | _ => none

def Token.isItem (t : Token) : Bool := t.item?.isSome

/-- Of some tokens none is left out that is an item. -/
def KeepsItems (kept all : List Token) : Prop :=
  kept.Sublist all ∧ kept.filter Token.isItem = all.filter Token.isItem

namespace Tree

/-- The item that a leaf of an expression is. -/
def item? (t : Tree) : Option Item :=
  match t.kind with
  | .identifier | .number | .stringLiteral => some ⟨t.kind, t.value, t.line⟩
  | _ => none

/-- The items that are leaves of expressions. -/
def items (t : Tree) : List Item := t.preorder.filterMap item?

/-- The tokens are those that the text of a node was made of, or the one that a leaf was read from. The text of a variable
    is its type and its name, and that of a call is a dotted name. -/
def MadeOf (t : Tree) (tokens : List Token) : Prop :=
  match t.kind with
  | .identifier | .number | .stringLiteral => ∃ token : Token, tokens = [token] ∧ token.item? = t.item?
  | .classDecl | .methodDecl | .assignment | .increment | .decrement =>
    ∃ name : Token, tokens = [name] ∧ name.kind = .identifier ∧ t.value = name.lexeme ∧ t.line = name.line
  | .declaration => ∃ type name : Token, tokens = [type, name] ∧ type.kind.isType ∧ name.kind = .identifier ∧
      t.value = type.lexeme ++ " " ++ name.lexeme ∧ t.line = type.line
  | .methodCall => DottedName tokens ∧ t.value = String.join (tokens.map Token.lexeme) ∧
      t.line = (tokens.head?.map Token.line).getD 0
  | _ => tokens = []

/-- The names in the text of a node, or the text of a leaf, with the kind of item that each is. -/
def segments (t : Tree) : List (NodeKind × String) :=
  match t.kind with
  | .identifier | .number | .stringLiteral => [(t.kind, t.value)]
  | .classDecl | .methodDecl | .assignment | .increment | .decrement => [(.identifier, t.value)]
  | .declaration => [(.identifier, String.ofList (t.value.toList.dropWhile (· != ' ')).tail)]
  | .methodCall => (nameParts t.value).map fun name => (.identifier, name)
  | _ => []

end Tree

/-- The kind and the text of the item that a token is. -/
def Token.segment? (t : Token) : Option (NodeKind × String) := t.item?.map fun item => (item.kind, item.text)

/-- Names can be told apart in texts that are made of the token: a type has no blank in it and a name no dot, and a dot is
    one. -/
def Token.Divisible (t : Token) : Prop :=
  (t.kind.isType → ' ' ∉ t.lexeme.toList) ∧ (t.kind = .identifier → '.' ∉ t.lexeme.toList) ∧
    (t.kind = .dot → t.lexeme = ".")

instance (t : Token) : Decidable t.Divisible := inferInstanceAs (Decidable (_ ∧ _ ∧ _))

/-! ### Parameters -/

/-- Where a token stands: after a type, after a type and a name, among the parameters of a method with so many parentheses
    open among them, or elsewhere. -/
inductive Zone where
  | elsewhere
  | afterType
  | afterName
  | parameters (depth : Nat)
deriving DecidableEq, Repr

namespace Zone

/-- The zone after a token. -/
def next (zone : Zone) (kind : TokenKind) : Zone :=
  match zone with
  | .parameters depth =>
    if kind = .leftParen then .parameters (depth + 1)
    else if kind = .rightParen then
      match depth with
      | 0 => .elsewhere
      | depth + 1 => .parameters depth
    else zone
  | _ =>
    if zone = .afterType ∧ kind = .identifier then .afterName
    else if zone = .afterName ∧ kind = .leftParen then .parameters 0
    else if kind.isType then .afterType
    else .elsewhere

/-- The tokens outside the parameters of methods. What closes parameters counts among them. -/
def outside : Zone → List Token → List Token
  | _, [] => []
  | .parameters depth, t :: ts => outside ((parameters depth).next t.kind) ts
  | zone, t :: ts => t :: outside (zone.next t.kind) ts

end Zone

/-- The tokens outside the parameters of methods, which begin after a type, a name and a parenthesis. -/
def Token.outsideParameters (tokens : List Token) : List Token := Zone.elsewhere.outside tokens

end Curly
