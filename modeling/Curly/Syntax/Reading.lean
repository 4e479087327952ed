import Curly.Syntax.Grammar
import Curly.Syntax.Stmt

/-! What tokens are read as. The relations of this module give the expressions and statements that a run of tokens
    stands for, by the productions of the grammar: operators of one level associate to the left, and an `else` belongs to
    the nearest conditional that can have it. -/

namespace Curly

/-! ### Expressions -/

/-- The levels of expressions, from the closest to the loosest. -/
inductive Level where
  | factor | term | expression | condition
deriving DecidableEq, Repr

/-- The tokens are read as an expression of a level. -/
inductive ReadsExpr : Level → List Token → Expr → Prop where
  | number {t : Token} (h : t.kind = .number) : ReadsExpr .factor [t] (.number t.lexeme t.line)
  | identifier {t : Token} (h : t.kind = .identifier) : ReadsExpr .factor [t] (.identifier t.lexeme t.line)
  | postIncrement {t u : Token} (h : t.kind = .identifier) (hu : u.kind = .increment) :
    ReadsExpr .factor [t, u] (.postIncrement t.lexeme t.line)
  | postDecrement {t u : Token} (h : t.kind = .identifier) (hu : u.kind = .decrement) :
    ReadsExpr .factor [t, u] (.postDecrement t.lexeme t.line)
  | string {t : Token} (h : t.kind = .stringLiteral) : ReadsExpr .factor [t] (.string t.value t.line)
  | parenthesized {l r : Token} {ts : List Token} {e : Expr} (hl : l.kind = .leftParen)
    (h : ReadsExpr .condition ts e) (hr : r.kind = .rightParen) : ReadsExpr .factor (l :: (ts ++ [r])) e
  | ofFactor {ts : List Token} {e : Expr} (h : ReadsExpr .factor ts e) : ReadsExpr .term ts e
  | product {ts us : List Token} {o : Token} {e f : Expr} (h : ReadsExpr .term ts e) (ho : o.kind.isMultiplicative)
    (h' : ReadsExpr .factor us f) : ReadsExpr .term (ts ++ o :: us) (.binary o.lexeme e f)
  | ofTerm {ts : List Token} {e : Expr} (h : ReadsExpr .term ts e) : ReadsExpr .expression ts e
  | sum {ts us : List Token} {o : Token} {e f : Expr} (h : ReadsExpr .expression ts e) (ho : o.kind.isAdditive)
    (h' : ReadsExpr .term us f) : ReadsExpr .expression (ts ++ o :: us) (.binary o.lexeme e f)
  | ofExpression {ts : List Token} {e : Expr} (h : ReadsExpr .expression ts e) : ReadsExpr .condition ts e
  | comparison {ts us : List Token} {o : Token} {e f : Expr} (h : ReadsExpr .expression ts e)
    (ho : o.kind.isComparison) (h' : ReadsExpr .expression us f) :
    ReadsExpr .condition (ts ++ o :: us) (.comparison o.lexeme e f)

/-- The tokens are read as the arguments of a call. A comma may follow the last one. -/
inductive ReadsArguments : List Token → List Expr → Prop where
  | none : ReadsArguments [] []
  | last {ts : List Token} {e : Expr} (h : ReadsExpr .expression ts e) : ReadsArguments ts [e]
  | cons {ts us : List Token} {o : Token} {e : Expr} {es : List Expr} (h : ReadsExpr .expression ts e)
    (ho : o.kind = .comma) (h' : ReadsArguments us es) : ReadsArguments (ts ++ o :: us) (e :: es)

/-- Names and dots in turn, a name first and last. -/
inductive DottedName : List Token → Prop where
  | single {t : Token} (h : t.kind = .identifier) : DottedName [t]
  | cons {t dot : Token} {ts : List Token} (h : t.kind = .identifier) (hd : dot.kind = .dot) (h' : DottedName ts) :
    DottedName (t :: dot :: ts)

/-! ### Statements -/

namespace Stmt

mutual
/-- Whether the last part of the statement is a conditional without `else`. -/
def endsOpen : Stmt → Bool
  | whileLoop _ body _ => endsOpenIn false body
  | ifElse _ _ negative _ => endsOpenIn true negative
  | _ => false

/-- The same of a body or branch, which may be absent. -/
def endsOpenIn (absent : Bool) : Option Stmt → Bool
  | none => absent
  | some s => s.endsOpen
end

end Stmt

/-- Modifiers in front of a statement. -/
def Modifiers (ms : List Token) : Prop := ∀ m ∈ ms, m.kind.isModifier

theorem modifiers_nil : Modifiers [] := fun _ h => by cases h

/-- The tokens are read as a statement. Of the statements in a body, each is given with its tokens. Modifiers are kept of
    classes and methods only, and no variable has any. -/
inductive ReadsStmt : List Token → Stmt → Prop where
  | classDecl {ms : List Token} {kw name l r : Token} {body : List (List Token × Stmt)} (hms : Modifiers ms)
    (hkw : kw.kind = .kwClass) (hname : name.kind = .identifier) (hl : l.kind = .leftBrace)
    (h : ∀ x ∈ body, ReadsStmt x.1 x.2) (hr : r.kind = .rightBrace) :
    ReadsStmt (ms ++ kw :: name :: l :: (body.flatMap Prod.fst ++ [r]))
      (.classDecl name.lexeme (ms.map Word.ofToken) (body.map Prod.snd) name.line)
  | methodDecl {ms ps : List Token} {type name l r lb rb : Token} {body : List (List Token × Stmt)}
    (hms : Modifiers ms) (htype : type.kind.isType) (hname : name.kind = .identifier) (hl : l.kind = .leftParen)
    (hps : Grammar.closes 0 (ps.map Token.kind)) (hr : r.kind = .rightParen) (hlb : lb.kind = .leftBrace)
    (h : ∀ x ∈ body, ReadsStmt x.1 x.2) (hrb : rb.kind = .rightBrace) :
    ReadsStmt (ms ++ type :: name :: l :: (ps ++ r :: lb :: (body.flatMap Prod.fst ++ [rb])))
      (.methodDecl name.lexeme (.ofToken type) (ms.map Word.ofToken) (body.map Prod.snd) name.line)
  | declaration {type name semi : Token} (htype : type.kind.isType) (hvoid : type.kind ≠ .kwVoid)
    (hname : name.kind = .identifier) (hsemi : semi.kind = .semicolon) :
    ReadsStmt [type, name, semi] (.declaration type.lexeme name.lexeme none type.line)
  | initialized {type name o semi : Token} {ts : List Token} {e : Expr} (htype : type.kind.isType)
    (hvoid : type.kind ≠ .kwVoid) (hname : name.kind = .identifier) (ho : o.kind = .assign)
    (h : ReadsExpr .expression ts e) (hsemi : semi.kind = .semicolon) :
    ReadsStmt (type :: name :: o :: (ts ++ [semi])) (.declaration type.lexeme name.lexeme (some e) type.line)
  | whileLoop {ms ts us : List Token} {kw l r : Token} {e : Expr} {b : Stmt} (hms : Modifiers ms)
    (hkw : kw.kind = .kwWhile) (hl : l.kind = .leftParen) (he : ReadsExpr .condition ts e) (hr : r.kind = .rightParen)
    (h : ReadsStmt us b) : ReadsStmt (ms ++ kw :: l :: (ts ++ r :: us)) (.whileLoop e (some b) kw.line)
  | ifThen {ms ts us : List Token} {kw l r : Token} {e : Expr} {a : Stmt} (hms : Modifiers ms)
    (hkw : kw.kind = .kwIf) (hl : l.kind = .leftParen) (he : ReadsExpr .condition ts e) (hr : r.kind = .rightParen)
    (h : ReadsStmt us a) : ReadsStmt (ms ++ kw :: l :: (ts ++ r :: us)) (.ifElse e (some a) none kw.line)
  | ifElse {ms ts us vs : List Token} {kw l r o : Token} {e : Expr} {a b : Stmt} (hms : Modifiers ms)
    (hkw : kw.kind = .kwIf) (hl : l.kind = .leftParen) (he : ReadsExpr .condition ts e) (hr : r.kind = .rightParen)
    (h : ReadsStmt us a) (hopen : a.endsOpen = false) (ho : o.kind = .kwElse) (h' : ReadsStmt vs b) :
    ReadsStmt (ms ++ kw :: l :: (ts ++ r :: (us ++ o :: vs))) (.ifElse e (some a) (some b) kw.line)
  | block {ms : List Token} {l r : Token} {body : List (List Token × Stmt)} (hms : Modifiers ms)
    (hl : l.kind = .leftBrace) (h : ∀ x ∈ body, ReadsStmt x.1 x.2) (hr : r.kind = .rightBrace) :
    ReadsStmt (ms ++ l :: (body.flatMap Prod.fst ++ [r])) (.block (body.map Prod.snd) l.line)
  | methodCall {ms name ts : List Token} {l r semi : Token} {es : List Expr} (hms : Modifiers ms)
    (hname : DottedName name) (hl : l.kind = .leftParen) (h : ReadsArguments ts es) (hr : r.kind = .rightParen)
    (hsemi : semi.kind = .semicolon) :
    ReadsStmt (ms ++ (name ++ l :: (ts ++ [r, semi])))
      (.methodCall (String.join (name.map Token.lexeme)) es ((name.head?.map Token.line).getD 0))
  | assignment {ms ts : List Token} {name o semi : Token} {e : Expr} (hms : Modifiers ms)
    (hname : name.kind = .identifier) (ho : o.kind = .assign) (h : ReadsExpr .expression ts e)
    (hsemi : semi.kind = .semicolon) :
    ReadsStmt (ms ++ name :: o :: (ts ++ [semi])) (.assignment name.lexeme e name.line)
  | increment {ms : List Token} {name o semi : Token} (hms : Modifiers ms) (hname : name.kind = .identifier)
    (ho : o.kind = .increment) (hsemi : semi.kind = .semicolon) :
    ReadsStmt (ms ++ [name, o, semi]) (.increment name.lexeme name.line)
  | decrement {ms : List Token} {name o semi : Token} (hms : Modifiers ms) (hname : name.kind = .identifier)
    (ho : o.kind = .decrement) (hsemi : semi.kind = .semicolon) :
    ReadsStmt (ms ++ [name, o, semi]) (.decrement name.lexeme name.line)

/-- The tokens are read as a program. -/
def ReadsProgram (ts : List Token) (p : Program) : Prop :=
  ∃ body : List (List Token × Stmt), (∀ x ∈ body, ReadsStmt x.1 x.2) ∧ ts = body.flatMap Prod.fst ∧
    p = body.map Prod.snd

end Curly
