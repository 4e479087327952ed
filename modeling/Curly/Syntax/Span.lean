import Curly.Syntax.Reading

/-! Trees in which every node has the tokens that it was read from. The tokens of a node are made of those of its
    children and of others, as the productions have it. -/

namespace Curly

/-- A node of a syntax tree, with the tokens that it was read from. Parentheses around an expression are not among its
    own tokens, but among those of the node above it. -/
inductive Spanned where
  | node (kind : NodeKind) (value : String) (line : Int) (span : List Token) (children : List Spanned)

namespace Spanned

def kind : Spanned → NodeKind
  | node k _ _ _ _ => k

def line : Spanned → Int
  | node _ _ l _ _ => l

def span : Spanned → List Token
  | node _ _ _ ts _ => ts

def children : Spanned → List Spanned
  | node _ _ _ _ cs => cs

mutual
/-- The tree without the tokens. -/
def tree : Spanned → Tree
  | node k v l _ cs => .node k v l (trees cs)

def trees : List Spanned → List Tree
  | [] => []
  | n :: ns => tree n :: trees ns
end

mutual
/-- The nodes of a tree, every node before its children and these in their order. -/
def nodes : Spanned → List Spanned
  | n@(node _ _ _ _ cs) => n :: nodesOf cs

def nodesOf : List Spanned → List Spanned
  | [] => []
  | n :: ns => nodes n ++ nodesOf ns
end

end Spanned

/-- The tokens, in some pairs of parentheses or in none. -/
inductive Enclosed (ts : List Token) : List Token → Prop where
  | self : Enclosed ts ts
  | within {l r : Token} {us : List Token} (hl : l.kind = .leftParen) (h : Enclosed ts us) (hr : r.kind = .rightParen) :
    Enclosed ts (l :: (us ++ [r]))

/-- The runs of tokens, with commas between them. A comma may follow the last one. -/
inductive Separated : List (List Token) → List Token → Prop where
  | none : Separated [] []
  | last {ts : List Token} : Separated [ts] ts
  | cons {ts us : List Token} {o : Token} {rest : List (List Token)} (ho : o.kind = .comma) (h : Separated rest us) :
    Separated (ts :: rest) (ts ++ o :: us)

namespace Spanned

/-- The tokens of a node of a kind are made of those of its children, as the node is written. -/
inductive Fits : NodeKind → List Token → List Spanned → Prop where
  | program {ns : List Spanned} : Fits .program (ns.flatMap span) ns
  | classDecl {modifiers members : List Spanned} {kw name l r : Token} (hms : ∀ m ∈ modifiers, m.kind = .modifier)
    (hkw : kw.kind = .kwClass) (hname : name.kind = .identifier) (hl : l.kind = .leftBrace) (hr : r.kind = .rightBrace) :
    Fits .classDecl
      (modifiers.flatMap span ++ kw :: name :: l :: (members.flatMap span ++ [r])) (modifiers ++ members)
  | methodDecl {returns : Spanned} {modifiers members : List Spanned} {ps : List Token} {name l r lb rb : Token}
    (hreturns : returns.kind = .returnType) (hms : ∀ m ∈ modifiers, m.kind = .modifier)
    (hname : name.kind = .identifier) (hl : l.kind = .leftParen) (hps : Grammar.closes 0 (ps.map Token.kind))
    (hr : r.kind = .rightParen) (hlb : lb.kind = .leftBrace) (hrb : rb.kind = .rightBrace) :
    Fits .methodDecl
      (modifiers.flatMap span ++ (returns.span ++ name :: l :: (ps ++ r :: lb :: (members.flatMap span ++ [rb]))))
      (returns :: modifiers ++ members)
  | declaration {type name semi : Token} (htype : type.kind.isType) (hname : name.kind = .identifier)
    (hsemi : semi.kind = .semicolon) : Fits .declaration [type, name, semi] []
  | initialized {n : Spanned} {ts : List Token} {type name o semi : Token} (htype : type.kind.isType)
    (hname : name.kind = .identifier) (ho : o.kind = .assign) (h : Enclosed n.span ts) (hsemi : semi.kind = .semicolon) :
    Fits .declaration (type :: name :: o :: (ts ++ [semi])) [n]
  | whileLoop {test body : Spanned} {ms : List Token} {kw l r : Token} (hms : Modifiers ms) (hkw : kw.kind = .kwWhile)
    (hl : l.kind = .leftParen) (hr : r.kind = .rightParen) :
    Fits .whileLoop (ms ++ kw :: l :: (test.span ++ r :: body.span)) [test, body]
  | ifThen {test positive : Spanned} {ms : List Token} {kw l r : Token} (hms : Modifiers ms) (hkw : kw.kind = .kwIf)
    (hl : l.kind = .leftParen) (hr : r.kind = .rightParen) :
    Fits .ifElse (ms ++ kw :: l :: (test.span ++ r :: positive.span)) [test, positive]
  | ifElse {test positive negative : Spanned} {ms : List Token} {kw l r o : Token} (hms : Modifiers ms)
    (hkw : kw.kind = .kwIf) (hl : l.kind = .leftParen) (hr : r.kind = .rightParen) (ho : o.kind = .kwElse) :
    Fits .ifElse (ms ++ kw :: l :: (test.span ++ r :: (positive.span ++ o :: negative.span)))
      [test, positive, negative]
  | block {ns : List Spanned} {ms : List Token} {l r : Token} (hms : Modifiers ms) (hl : l.kind = .leftBrace)
    (hr : r.kind = .rightBrace) : Fits .block (ms ++ l :: (ns.flatMap span ++ [r])) ns
  | methodCall {arguments : List Spanned} {ms name ts : List Token} {l r semi : Token} (hms : Modifiers ms)
    (hname : DottedName name) (hl : l.kind = .leftParen) (h : Separated (arguments.map span) ts)
    (hr : r.kind = .rightParen) (hsemi : semi.kind = .semicolon) :
    Fits .methodCall (ms ++ (name ++ l :: (ts ++ [r, semi]))) arguments
  | assignment {n : Spanned} {ms ts : List Token} {name o semi : Token} (hms : Modifiers ms)
    (hname : name.kind = .identifier) (ho : o.kind = .assign) (h : Enclosed n.span ts) (hsemi : semi.kind = .semicolon) :
    Fits .assignment (ms ++ name :: o :: (ts ++ [semi])) [n]
  | step {kind : NodeKind} {ms : List Token} {name o semi : Token} (hms : Modifiers ms) (hname : name.kind = .identifier)
    (ho : kind = .increment ∧ o.kind = .increment ∨ kind = .decrement ∧ o.kind = .decrement)
    (hsemi : semi.kind = .semicolon) : Fits kind (ms ++ [name, o, semi]) []
  | statement {kind : NodeKind} {n : Spanned} (hkind : kind = .body ∨ kind = .thenBranch ∨ kind = .elseBranch) :
    Fits kind n.span [n]
  | expression {kind : NodeKind} {n : Spanned} {ts : List Token} (hkind : kind = .condition ∨ kind = .argument)
    (h : Enclosed n.span ts) : Fits kind ts [n]
  | operation {kind : NodeKind} {left right : Spanned} {ts us : List Token} {o : Token}
    (ho : kind = .binaryOp ∧ (o.kind.isAdditive ∨ o.kind.isMultiplicative) ∨ kind = .comparison ∧ o.kind.isComparison)
    (hl : Enclosed left.span ts) (hr : Enclosed right.span us) :
    Fits kind (ts ++ o :: us) [left, right]
  | postfixStep {kind : NodeKind} {n : Spanned} {o : Token}
    (ho : kind = .postIncrement ∧ o.kind = .increment ∨ kind = .postDecrement ∧ o.kind = .decrement) :
    Fits kind (n.span ++ [o]) [n]
  | leaf {kind : NodeKind} {t : Token} (ht : kind = .number ∧ t.kind = .number ∨
      kind = .identifier ∧ t.kind = .identifier ∨ kind = .stringLiteral ∧ t.kind = .stringLiteral ∨
      kind = .modifier ∧ t.kind.isModifier ∨ kind = .returnType ∧ t.kind.isType) :
    Fits kind [t] []

/-- The token that leads among those of a node of a kind. That of a class or a method is the name, which stands behind
    the class keyword or the type; that of another statement is the first that is no modifier; and that of an expression,
    a condition or an argument is the first that is no parenthesis. -/
def leadOf (kind : NodeKind) (span : List Token) : Option Token :=
  match kind with
  | .classDecl | .methodDecl => (span.dropWhile (·.kind.isModifier))[1]?
  | .declaration | .whileLoop | .ifElse | .block | .methodCall | .assignment | .increment | .decrement =>
    (span.dropWhile (·.kind.isModifier)).head?
  | .modifier | .returnType => span.head?
  | _ => span.find? (·.kind != .leftParen)

/-- The token that leads among those of a node. That of a body or a branch is the one that leads in the statement. -/
def lead : Spanned → Option Token
  | node .body _ _ _ [n] | node .thenBranch _ _ _ [n] | node .elseBranch _ _ _ [n] => leadOf n.kind n.span
  | node kind _ _ span _ => leadOf kind span

end Spanned
end Curly
