import Curly.Syntax.Reading

/-! Statements inside of others, and where they stand among the tokens. -/

namespace Curly

namespace Stmt

mutual
/-- All statements inside of a statement, at any depth. -/
def inside : Stmt → List Stmt
  | classDecl _ _ body _ | methodDecl _ _ _ body _ | block body _ => insideAll body
  | whileLoop _ body _ => insideBranch body
  | ifElse _ positive negative _ => insideBranch positive ++ insideBranch negative
  | _ => []

/-- The statements of a body, and all inside of them. -/
def insideAll : List Stmt → List Stmt
  | [] => []
  | s :: rest => s :: (inside s ++ insideAll rest)

/-- The same of a body or branch, which may be absent. -/
def insideBranch : Option Stmt → List Stmt
  | none => []
  | some s => s :: inside s
end

/-- Whether the statement is a call, an assignment, an increment or a decrement. -/
def isPlain : Stmt → Bool
  | methodCall .. | assignment .. | increment .. | decrement .. => true
  | _ => false

end Stmt

/-- One level of nesting: with these tokens before and behind those of the one statement, the other is read. -/
inductive Frame : List Token → List Token → Stmt → Stmt → Prop where
  | classBody {ms : List Token} {kw name l r : Token} {earlier later : List (List Token × Stmt)} {inner : Stmt}
    (hms : Modifiers ms) (hkw : kw.kind = .kwClass) (hname : name.kind = .identifier) (hl : l.kind = .leftBrace)
    (h : ∀ x ∈ earlier, ReadsStmt x.1 x.2) (h' : ∀ x ∈ later, ReadsStmt x.1 x.2) (hr : r.kind = .rightBrace) :
    Frame (ms ++ kw :: name :: l :: earlier.flatMap Prod.fst) (later.flatMap Prod.fst ++ [r]) inner
      (.classDecl name.lexeme (ms.map Word.ofToken) (earlier.map Prod.snd ++ inner :: later.map Prod.snd) name.line)
  | methodBody {ms ps : List Token} {type name l r lb rb : Token} {earlier later : List (List Token × Stmt)}
    {inner : Stmt} (hms : Modifiers ms) (htype : type.kind.isType) (hname : name.kind = .identifier)
    (hl : l.kind = .leftParen) (hps : Grammar.closes 0 (ps.map Token.kind)) (hr : r.kind = .rightParen)
    (hlb : lb.kind = .leftBrace) (h : ∀ x ∈ earlier, ReadsStmt x.1 x.2) (h' : ∀ x ∈ later, ReadsStmt x.1 x.2)
    (hrb : rb.kind = .rightBrace) :
    Frame (ms ++ type :: name :: l :: (ps ++ r :: lb :: earlier.flatMap Prod.fst)) (later.flatMap Prod.fst ++ [rb]) inner
      (.methodDecl name.lexeme (.ofToken type) (ms.map Word.ofToken)
        (earlier.map Prod.snd ++ inner :: later.map Prod.snd) name.line)
  | blockBody {ms : List Token} {l r : Token} {earlier later : List (List Token × Stmt)} {inner : Stmt}
    (hms : Modifiers ms) (hl : l.kind = .leftBrace) (h : ∀ x ∈ earlier, ReadsStmt x.1 x.2)
    (h' : ∀ x ∈ later, ReadsStmt x.1 x.2) (hr : r.kind = .rightBrace) :
    Frame (ms ++ l :: earlier.flatMap Prod.fst) (later.flatMap Prod.fst ++ [r]) inner
      (.block (earlier.map Prod.snd ++ inner :: later.map Prod.snd) l.line)
  | loopBody {ms ts : List Token} {kw l r : Token} {e : Expr} {inner : Stmt} (hms : Modifiers ms)
    (hkw : kw.kind = .kwWhile) (hl : l.kind = .leftParen) (he : ReadsExpr .condition ts e)
    (hr : r.kind = .rightParen) :
    Frame (ms ++ kw :: l :: (ts ++ [r])) [] inner (.whileLoop e (some inner) kw.line)
  | onlyBranch {ms ts : List Token} {kw l r : Token} {e : Expr} {inner : Stmt} (hms : Modifiers ms)
    (hkw : kw.kind = .kwIf) (hl : l.kind = .leftParen) (he : ReadsExpr .condition ts e) (hr : r.kind = .rightParen) :
    Frame (ms ++ kw :: l :: (ts ++ [r])) [] inner (.ifElse e (some inner) none kw.line)
  | thenBranch {ms ts vs : List Token} {kw l r o : Token} {e : Expr} {inner b : Stmt} (hms : Modifiers ms)
    (hkw : kw.kind = .kwIf) (hl : l.kind = .leftParen) (he : ReadsExpr .condition ts e) (hr : r.kind = .rightParen)
    (hopen : inner.endsOpen = false) (ho : o.kind = .kwElse) (h : ReadsStmt vs b) :
    Frame (ms ++ kw :: l :: (ts ++ [r])) (o :: vs) inner (.ifElse e (some inner) (some b) kw.line)
  | elseBranch {ms ts us : List Token} {kw l r o : Token} {e : Expr} {a inner : Stmt} (hms : Modifiers ms)
    (hkw : kw.kind = .kwIf) (hl : l.kind = .leftParen) (he : ReadsExpr .condition ts e) (hr : r.kind = .rightParen)
    (h : ReadsStmt us a) (hopen : a.endsOpen = false) (ho : o.kind = .kwElse) :
    Frame (ms ++ kw :: l :: (ts ++ r :: (us ++ [o]))) [] inner (.ifElse e (some a) (some inner) kw.line)

/-- At any depth: with these tokens before and behind those of the statement `inner`, the other is read. -/
inductive PartOf (inner : Stmt) : List Token → List Token → Stmt → Prop where
  | self : PartOf inner [] [] inner
  | within {before after before' after' : List Token} {mid outer : Stmt} (h : PartOf inner before after mid)
    (hf : Frame before' after' mid outer) : PartOf inner (before' ++ before) (after ++ after') outer

/-- With these tokens before and behind those of the statement, the program is read. -/
inductive HasPart (inner : Stmt) : List Token → List Token → Program → Prop where
  | mk {before after : List Token} {earlier later : List (List Token × Stmt)} {outer : Stmt}
    (h : ∀ x ∈ earlier, ReadsStmt x.1 x.2) (h' : ∀ x ∈ later, ReadsStmt x.1 x.2) (hpart : PartOf inner before after outer) :
    HasPart inner (earlier.flatMap Prod.fst ++ before) (after ++ later.flatMap Prod.fst)
      (earlier.map Prod.snd ++ outer :: later.map Prod.snd)

/-- The tokens up to the first end of the input are read as a program, somewhere in which a statement stands; of its
    tokens, all but the last are `part`, and the last is a semicolon, which has the index `k`. -/
def EndsAt (tokens : List Token) (k : Nat) (part : List Token) (st : Stmt) : Prop :=
  ∃ (before after : List Token) (semi : Token) (p : Program),
    tokens.takeWhile (·.kind != .eof) = before ++ (part ++ semi :: after) ∧ k = (before ++ part).length ∧
      semi.kind = .semicolon ∧ ReadsStmt (part ++ [semi]) st ∧ HasPart st before after p

/-- The tokens are read as a method, the parameters of which have these in front of them and behind them. -/
inductive HasParameters : List Token → List Token → List Token → Stmt → Prop where
  | mk {ms ps : List Token} {type name l r lb rb : Token} {body : List (List Token × Stmt)} (hms : Modifiers ms)
    (htype : type.kind.isType) (hname : name.kind = .identifier) (hl : l.kind = .leftParen)
    (hps : Grammar.closes 0 (ps.map Token.kind)) (hr : r.kind = .rightParen) (hlb : lb.kind = .leftBrace)
    (h : ∀ x ∈ body, ReadsStmt x.1 x.2) (hrb : rb.kind = .rightBrace) :
    HasParameters (ms ++ [type, name, l]) ps (r :: lb :: (body.flatMap Prod.fst ++ [rb]))
      (.methodDecl name.lexeme (.ofToken type) (ms.map Word.ofToken) (body.map Prod.snd) name.line)

/-- The tokens up to the first end of the input are read as a program, and the one with the index `k` is among the
    parameters of a method somewhere in it. -/
def AmongParameters (tokens : List Token) (k : Nat) : Prop :=
  ∃ (before head ps tail after : List Token) (st : Stmt) (p : Program),
    tokens.takeWhile (·.kind != .eof) = before ++ (head ++ (ps ++ tail) ++ after) ∧
      (before ++ head).length ≤ k ∧ k < (before ++ head ++ ps).length ∧
      HasParameters head ps tail st ∧ HasPart st before after p

end Curly
