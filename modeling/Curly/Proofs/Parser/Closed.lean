import Curly.Parser.Stmt

/-! What all rules have in common. A property that the simplest parsers have, and that is kept where parsers are put
    together, is one of every rule. Main statement: `Closed.program`. -/

namespace Curly.Parser

/-- The property is one of the parsers that read a token, and sequences and recursion keep it. -/
structure ClosedReading (P : ∀ {α : Type}, Parser α → Prop) : Prop where
  pure {α : Type} (a : α) : P (pure a : Parser α)
  bind {α β : Type} {p : Parser α} {f : α → Parser β} (hp : P p) (hf : ∀ a, P (f a)) : P (p >>= f)
  fixOver {α ι : Type} {rule : (ι → Parser α) → ι → Parser α}
    (h : ∀ p : ι → Parser α, (∀ i, P (p i)) → ∀ i, P (rule p i)) (i : ι) : P (fixOver rule i)
  peek : P peek
  advance : P advance

/-- Besides, the property is one of the parser for the operands of expressions. -/
structure ClosedOperands (P : ∀ {α : Type}, Parser α → Prop) : Prop extends ClosedReading P where
  factor {condition : Parser Expr} (hc : P condition) : P (factor condition)

/-- Besides, the property is one of the parsers that report what stands in the place of something certain, and read it. -/
structure ClosedReplacing (P : ∀ {α : Type}, Parser α → Prop) : Prop extends ClosedOperands P where
  expect (kind : TokenKind) (expectation : String) : P (expect kind expectation)

/-- Besides, the property is one of the parser that reports what stands in the place of a comma, and leaves it. -/
structure ClosedExpecting (P : ∀ {α : Type}, Parser α → Prop) : Prop extends ClosedReplacing P where
  separator : P separator

/-- Besides, the property is one of all other parsers that the rules are made of. What is given back by a parser that looks
    ahead may be lost to the property, so the two questions that are settled in this way count among these parsers; and so
    does the end of a declaration, because the mistake there and the resuming behind it belong together. -/
structure Closed (P : ∀ {α : Type}, Parser α → Prop) : Prop extends ClosedReading P where
  report (m : Mistake) : P (report m)
  namesMethod : P namesMethod
  isMethodCall : P isMethodCall
  endDeclaration (name : Token) : P (endDeclaration name)
  begin : P begin
  beginProgram : P beginProgram

/-! ### Recursion -/

section
variable {α ι : Type}

/-- The parser at places after a cursor only. -/
def later (c : Cursor) (p : Parser α) : Parser α := fun s d =>
  if d.ahead.length < c.ahead.length then p s d else .stopped .noProgress d []

theorem fixOver_eq (rule : (ι → Parser α) → ι → Parser α) (i : ι) (s : Setting) (c : Cursor) :
    fixOver rule i s c = rule (fun j => later c (fixOver rule j)) i s c := by
  rw [fixOver]
  rfl

/-- If a rule keeps what holds of a parser at each cursor, in each setting, then it holds of the parsers that the rule
    describes in terms of each other. -/
theorem fixOver_of {Q : Setting → Cursor → (Setting → Outcome α) → Prop} {rule : (ι → Parser α) → ι → Parser α}
    (hstop : ∀ s c, Q s c fun _ => .stopped .noProgress c [])
    (h : ∀ p : ι → Parser α, (∀ i s c, Q s c fun s => p i s c) → ∀ i s c, Q s c fun s => rule p i s c)
    (i : ι) (s : Setting) (c : Cursor) : Q s c fun s => fixOver rule i s c := by
  induction hn : c.ahead.length using Nat.strongRecOn generalizing i s c with
  | ind n ih =>
    simp only [fixOver_eq]
    refine h _ (fun j s d => ?_) i s c
    by_cases hlt : d.ahead.length < c.ahead.length
    · simp only [later, hlt, ↓reduceIte]
      exact ih _ (hn ▸ hlt) j s d rfl
    · simp only [later, hlt, ↓reduceIte]
      exact hstop s d

end

variable {P : ∀ {α : Type}, Parser α → Prop}

/-! ### Choices -/

theorem closed_ite {α : Type} {b : Prop} [Decidable b] {p q : Parser α} (hp : P p) (hq : P q) :
    P (if b then p else q) := by
  split
  · exact hp
  · exact hq

/-! ### Reading and looking ahead -/

namespace ClosedReading
variable (h : ClosedReading P)
include h

section
variable {α β : Type}

theorem map {p : Parser α} {f : α → β} (hp : P p) : P (f <$> p) :=
  h.bind hp fun a => h.pure (f a)

theorem fix {rule : Parser α → Parser α} (hr : ∀ p, P p → P (rule p)) : P (fix rule) :=
  h.fixOver (fun _ hp _ => hr _ (hp ())) ()

theorem repeatWhile {go : TokenKind → Bool} {p : Parser α} (hp : P p) : P (repeatWhile go p) :=
  h.fix fun _ hagain => h.bind h.peek fun _ =>
    closed_ite (h.bind hp fun _ => h.bind hagain fun _ => h.pure _) (h.pure _)

end

theorem check (kind : TokenKind) : P (check kind) := h.bind h.peek fun _ => h.pure _

theorem accept (kind : TokenKind) : P (accept kind) :=
  h.bind (h.check kind) fun _ => closed_ite (h.bind h.advance fun _ => h.pure _) (h.pure _)

theorem continuesCall : P continuesCall :=
  h.fix fun _ hagain => h.bind (h.accept _) fun _ =>
    closed_ite (h.bind (h.accept _) fun _ => closed_ite hagain (h.pure _)) (h.check _)

theorem chain {isOperator : TokenKind → Bool} {operand : Parser Expr} (ho : P operand) :
    P (chain isOperator operand) :=
  h.bind ho fun _ => h.bind
    (h.repeatWhile (h.bind h.advance fun _ => h.bind ho fun _ => h.pure _)) fun _ => h.pure _

theorem factor {condition : Parser Expr} (hc : P condition) (hexpect : P (expect .rightParen "Expected ')'"))
    (hreport : ∀ t, P (report (.invalidExpression t))) : P (factor condition) := by
  unfold Parser.factor
  refine h.bind h.peek fun t => ?_
  split
  · exact h.bind h.advance fun _ => h.pure _
  · exact h.bind h.advance fun _ => h.bind (h.accept _) fun _ => closed_ite (h.pure _)
      (h.bind (h.accept _) fun _ => closed_ite (h.pure _) (h.pure _))
  · exact h.bind h.advance fun _ => h.pure _
  · exact h.bind h.advance fun _ => h.bind hc fun _ => h.bind hexpect fun _ => h.pure _
  · exact h.bind (hreport _) fun _ => h.bind h.advance fun _ => h.pure _

theorem dottedName : P dottedName :=
  h.fix fun _ hagain => h.bind (h.check _) fun _ => closed_ite
    (h.bind h.advance fun _ => h.bind (h.check _) fun _ => closed_ite
      (h.bind h.advance fun _ => h.bind hagain fun _ => h.pure _) (h.pure _))
    (h.pure _)

theorem skipParameters : P skipParameters := by
  refine h.fixOver (fun again hagain depth => ?_) 0
  refine h.bind h.peek fun t => closed_ite (h.pure _) (closed_ite ?_ ?_)
  · cases depth with
    | zero => exact h.pure _
    | succ depth => exact h.bind h.advance fun _ => hagain depth
  · exact h.bind h.advance fun _ => hagain _

theorem statementsUntilBrace {statement : Parser (Option Stmt)} (hs : P statement) :
    P (statementsUntilBrace statement) :=
  h.bind (h.repeatWhile hs) fun _ => h.pure _

theorem elseBranch {statement : Parser (Option Stmt)} (hs : P statement) : P (elseBranch statement) :=
  h.bind (h.accept _) fun _ => closed_ite hs (h.pure _)

theorem endDeclaration (hreport : ∀ m, P (report m)) (hresume : P resume) (name : Token) : P (endDeclaration name) :=
  h.bind (h.accept _) fun _ => closed_ite (h.pure _)
    (h.bind h.peek fun _ => h.bind (hreport _) fun _ => hresume)

variable (hs : ∀ p : Parser Bool, P p → P (speculate p))
include hs

theorem namesMethod : P namesMethod :=
  hs _ <| h.bind h.advance fun _ => h.bind (h.accept _) fun _ => closed_ite (h.check _) (h.pure _)

theorem isMethodCall : P isMethodCall := hs _ <| h.bind h.advance fun _ => h.continuesCall

end ClosedReading

namespace ClosedOperands
variable (h : ClosedOperands P)
include h

/-! ### Expressions -/

section
variable {condition : Parser Expr} (hc : P condition)
include hc

theorem expression : P (expression condition) := h.chain (h.chain (h.factor hc))

theorem conditionRule : P (conditionRule condition) :=
  h.bind (h.expression hc) fun _ => h.bind h.peek fun _ =>
    closed_ite (h.bind h.advance fun _ => h.bind (h.expression hc) fun _ => h.pure _) (h.pure _)

end

theorem condition : P condition := h.fix fun _ => h.conditionRule

theorem value : P (Parser.expression Parser.condition) := h.expression h.condition

theorem initializer : P initializer :=
  h.bind (h.accept _) fun _ => closed_ite (h.map h.value) (h.pure _)

/-! ### Statements without statements in them -/

theorem argument (hseparator : P separator) : P argument :=
  h.bind h.value fun _ => h.bind hseparator fun _ => h.pure _

theorem declaration (hreport : ∀ t, P (report (.unexpected "Expected identifier" t)))
    (hend : ∀ name, P (endDeclaration name)) : P declaration :=
  h.bind h.advance fun _ => h.bind h.peek fun _ => closed_ite
    (h.bind h.advance fun _ => h.bind h.initializer fun _ => h.bind (hend _) fun _ => h.pure _)
    (h.bind (hreport _) fun _ => h.pure _)

theorem assignment (hexpect : P (expect .identifier "Expected identifier"))
    (hsemicolon : ∀ construct name, P (expectSemicolon construct name))
    (hreport : ∀ name, P (report (.invalidAssignment name))) : P assignment :=
  h.bind hexpect fun _ => h.bind (h.accept _) fun _ => closed_ite
    (h.bind h.value fun _ => h.bind (hsemicolon _ _) fun _ => h.pure _)
    (h.bind (h.accept _) fun _ => closed_ite
      (h.bind (hsemicolon _ _) fun _ => h.pure _)
      (h.bind (h.accept _) fun _ => closed_ite
        (h.bind (hsemicolon _ _) fun _ => h.pure _)
        (h.bind (hreport _) fun _ => h.pure _)))

end ClosedOperands

namespace ClosedReplacing
variable (h : ClosedReplacing P)
include h

/-! ### Statements with statements in them -/

section
variable {statement : Parser (Option Stmt)} (hs : P statement)
include hs

theorem classDecl (modifiers : List Token) : P (classDecl statement modifiers) :=
  h.bind (h.expect _ _) fun _ => h.bind (h.expect _ _) fun _ => h.bind (h.expect _ _) fun _ =>
    h.bind (h.statementsUntilBrace hs) fun _ => h.bind (h.expect _ _) fun _ => h.pure _

theorem methodDecl (modifiers : List Token) : P (methodDecl statement modifiers) :=
  h.bind h.advance fun _ => h.bind (h.expect _ _) fun _ => h.bind (h.expect _ _) fun _ =>
    h.bind h.skipParameters fun _ => h.bind (h.expect _ _) fun _ => h.bind (h.expect _ _) fun _ =>
      h.bind (h.statementsUntilBrace hs) fun _ => h.bind (h.expect _ _) fun _ => h.pure _

theorem whileLoop : P (whileLoop statement) :=
  h.bind (h.expect _ _) fun _ => h.bind (h.expect _ _) fun _ => h.bind h.condition fun _ =>
    h.bind (h.expect _ _) fun _ => h.bind hs fun _ => h.pure _

theorem ifElse : P (ifElse statement) :=
  h.bind (h.expect _ _) fun _ => h.bind (h.expect _ _) fun _ => h.bind h.condition fun _ =>
    h.bind (h.expect _ _) fun _ => h.bind hs fun _ => h.bind (h.elseBranch hs) fun _ => h.pure _

theorem block : P (block statement) :=
  h.bind (h.expect _ _) fun _ => h.bind (h.statementsUntilBrace hs) fun _ =>
    h.bind (h.expect _ _) fun _ => h.pure _

end

end ClosedReplacing

theorem ClosedExpecting.argument (h : ClosedExpecting P) : P argument :=
  h.toClosedOperands.argument h.separator

namespace Closed
variable (h : Closed P)
include h

/-! ### Mistakes -/

theorem expect (kind : TokenKind) (expectation : String) : P (expect kind expectation) :=
  h.bind (h.check kind) fun _ =>
    closed_ite h.advance (h.bind h.peek fun _ => h.bind (h.report _) fun _ => h.advance)

theorem expectSemicolon (construct : String) (first : Token) : P (expectSemicolon construct first) :=
  h.bind (h.accept _) fun _ => closed_ite (h.pure _) (h.report _)

theorem factor {condition : Parser Expr} (hc : P condition) : P (factor condition) :=
  h.toClosedReading.factor hc (h.expect _ _) fun _ => h.report _

theorem separator : P separator :=
  h.bind (h.accept _) fun _ => closed_ite (h.pure _)
    (h.bind h.peek fun _ => closed_ite (h.report _) (h.pure _))

theorem expecting : ClosedExpecting P where
  toClosedReading := h.toClosedReading
  expect := h.expect
  factor := h.factor
  separator := h.separator

/-! ### Statements without statements in them -/

theorem isLikelyMethod (modifiers : List Token) (t : Token) : P (isLikelyMethod modifiers t) :=
  closed_ite (h.pure _) h.namesMethod

theorem declaration : P declaration :=
  h.expecting.toClosedOperands.declaration (fun _ => h.report _) h.endDeclaration

theorem methodCall : P methodCall :=
  h.bind h.peek fun _ => h.bind h.dottedName fun _ => h.bind (h.expect _ _) fun _ =>
    h.bind (h.repeatWhile h.expecting.argument) fun _ => h.bind (h.expect _ _) fun _ =>
      h.bind (h.expectSemicolon _ _) fun _ => h.pure _

theorem assignment : P assignment :=
  h.expecting.toClosedOperands.assignment (h.expect _ _) h.expectSemicolon fun _ => h.report _

/-! ### Statements with statements in them -/

section
variable {statement : Parser (Option Stmt)} (hs : P statement)
include hs

theorem afterModifiers (modifiers : List Token) : P (afterModifiers statement modifiers) := by
  refine h.bind h.peek fun t => ?_
  refine closed_ite (h.map (h.expecting.classDecl hs modifiers)) <| closed_ite ?_ <|
    closed_ite (h.map (h.expecting.whileLoop hs)) <| closed_ite (h.map (h.expecting.ifElse hs)) <| closed_ite ?_ <|
    closed_ite (h.map (h.expecting.block hs)) <| h.bind (h.report _) fun _ => h.bind h.advance fun _ => h.pure _
  · exact h.bind (h.isLikelyMethod _ _) fun _ =>
      closed_ite (h.map (h.expecting.methodDecl hs modifiers)) h.declaration
  · exact h.bind h.isMethodCall fun _ => closed_ite (h.map h.methodCall) h.assignment

theorem statementRule : P (statementRule statement) :=
  h.bind h.begin fun _ => h.bind (h.repeatWhile h.advance) fun _ => h.afterModifiers hs _

end

theorem statement : P statement := h.fix fun _ => h.statementRule

theorem program : P program :=
  h.bind h.beginProgram fun _ => h.bind (h.repeatWhile h.statement) fun _ => h.pure _

end Closed

end Curly.Parser
