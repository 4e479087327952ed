import Curly.Proofs.Parser.Mistakes
import Curly.Proofs.Parser.Safety
import Mathlib.Data.List.ReduceOption

/-! What is gathered from the operands of a tree while it is parsed. Every expression that is read gets into the tree, once
    and in its place, whatever else is wrong; so a sequence that is gathered from the operands one by one, and to which
    nothing else adds, can be read off the tree in the end. Main statement: `Gathering.program`. -/

namespace Curly
variable {β : Type}

/-! ### Trees -/

/-- The kinds of leaves that expressions are made of. -/
def NodeKind.operands : List NodeKind := [.number, .identifier, .stringLiteral, .error]

/-- Nothing is picked from nodes that are no operands. -/
def PicksOperands (pick : Tree → Option β) : Prop :=
  ∀ kind value line children, kind ∉ NodeKind.operands → pick (.node kind value line children) = none

/-- What is picked from the nodes of a tree, in their order. -/
def Tree.gather (pick : Tree → Option β) (t : Tree) : List β := t.preorder.filterMap pick

def Expr.gather (pick : Tree → Option β) (e : Expr) : List β := e.toTree.gather pick

def Stmt.gather (pick : Tree → Option β) (st : Stmt) : List β := st.toTree.gather pick

/-- The same for a body or a branch, which may be absent. -/
def Stmt.gatherIn (pick : Tree → Option β) (st : Option Stmt) : List β := st.toList.flatMap (Stmt.gather pick)

theorem gather_node (pick : Tree → Option β) (kind : NodeKind) (value : String) (line : Int) (cs : List Tree) :
    (Tree.node kind value line cs).gather pick =
      (pick (.node kind value line cs)).toList ++ cs.flatMap (Tree.gather pick) := by
  rw [Tree.gather, Tree.preorder, List.filterMap_cons, Tree.preorders_eq, List.filterMap_flatMap]
  cases pick (Tree.node kind value line cs) <;> rfl

theorem gather_reduceOption (pick : Tree → Option β) (found : List (Option Stmt)) :
    found.reduceOption.flatMap (Stmt.gather pick) = found.flatMap (Stmt.gatherIn pick) := by
  induction found with
  | nil => rfl
  | cons st found ih =>
    cases st with
    | none => exact ih
    | some st => simp [List.reduceOption_cons_of_some, ih, Stmt.gatherIn]

namespace PicksOperands
variable {pick : Tree → Option β} (h : PicksOperands pick)
include h

theorem node {kind : NodeKind} (hk : kind ∉ NodeKind.operands) (value : String) (line : Int) (cs : List Tree) :
    (Tree.node kind value line cs).gather pick = cs.flatMap (Tree.gather pick) := by
  rw [gather_node, h kind value line cs hk]
  rfl

theorem label {kind : NodeKind} (hk : kind ∉ NodeKind.operands) (t : Tree) :
    (Tree.label kind t).gather pick = t.gather pick := by
  rw [Tree.label, h.node hk]
  exact List.append_nil _

theorem binary (operator : String) (e f : Expr) :
    (Expr.binary operator e f).gather pick = e.gather pick ++ f.gather pick := by
  rw [Expr.gather, Expr.toTree, h.node (by decide)]
  simp [Expr.gather]

theorem comparison (operator : String) (e f : Expr) :
    (Expr.comparison operator e f).gather pick = e.gather pick ++ f.gather pick := by
  rw [Expr.gather, Expr.toTree, h.node (by decide)]
  simp [Expr.gather]

theorem chain (first : Expr) (rest : List (String × Expr)) :
    (first.chain rest).gather pick = first.gather pick ++ rest.flatMap fun x => x.2.gather pick := by
  induction rest generalizing first with
  | nil => exact (List.append_nil _).symm
  | cons x rest ih =>
    show ((Expr.binary x.1 first x.2).chain rest).gather pick = _
    rw [ih, h.binary, List.flatMap_cons, List.append_assoc]

omit h in
theorem body (body : List Stmt) : (Stmt.toTrees body).flatMap (Tree.gather pick) = body.flatMap (Stmt.gather pick) := by
  rw [Stmt.toTrees_eq, List.flatMap_map]
  rfl

theorem words {kind : NodeKind} (hk : kind ∉ NodeKind.operands) (ms : List Word) :
    (ms.map (Word.toTree kind)).flatMap (Tree.gather pick) = [] := by
  rw [List.flatMap_map, List.flatMap_eq_nil_iff]
  intro m _
  exact h.node hk _ _ _

theorem branch {kind : NodeKind} (hk : kind ∉ NodeKind.operands) (st : Option Stmt) :
    (Stmt.toBranch kind st).flatMap (Tree.gather pick) = Stmt.gatherIn pick st := by
  cases st with
  | none => rfl
  | some st => simp [Stmt.toBranch, h.label hk, Stmt.gatherIn, Stmt.gather]

variable (name : String) (ms : List Word) (line : Int) (e : Expr)

theorem classDecl (body : List Stmt) :
    (Stmt.classDecl name ms body line).gather pick = body.flatMap (Stmt.gather pick) := by
  rw [Stmt.gather, Stmt.toTree, h.node (by decide), List.flatMap_append, h.words (by decide), PicksOperands.body]
  rfl

theorem methodDecl (type : Word) (body : List Stmt) :
    (Stmt.methodDecl name type ms body line).gather pick = body.flatMap (Stmt.gather pick) := by
  rw [Stmt.gather, Stmt.toTree, h.node (by decide), List.cons_append, List.flatMap_cons, List.flatMap_append,
    h.words (by decide), PicksOperands.body, Word.toTree, Tree.leaf, h.node (by decide)]
  rfl

theorem declaration (typeName : String) (initial : Option Expr) :
    (Stmt.declaration typeName name initial line).gather pick = initial.toList.flatMap (Expr.gather pick) := by
  rw [Stmt.gather, Stmt.toTree, h.node (by decide)]
  cases initial <;> rfl

theorem whileLoop (body : Option Stmt) :
    (Stmt.whileLoop e body line).gather pick = e.gather pick ++ Stmt.gatherIn pick body := by
  rw [Stmt.gather, Stmt.toTree, h.node (by decide), List.flatMap_cons, h.label (by decide), h.branch (by decide)]
  rfl

theorem ifElse (a b : Option Stmt) : (Stmt.ifElse e a b line).gather pick =
    e.gather pick ++ (Stmt.gatherIn pick a ++ Stmt.gatherIn pick b) := by
  rw [Stmt.gather, Stmt.toTree, h.node (by decide), List.flatMap_cons, List.flatMap_append, h.label (by decide),
    h.branch (by decide), h.branch (by decide)]
  rfl

theorem block (body : List Stmt) : (Stmt.block body line).gather pick = body.flatMap (Stmt.gather pick) := by
  rw [Stmt.gather, Stmt.toTree, h.node (by decide), PicksOperands.body]

theorem methodCall (es : List Expr) :
    (Stmt.methodCall name es line).gather pick = es.flatMap (Expr.gather pick) := by
  have hargument : NodeKind.argument ∉ NodeKind.operands := by decide
  rw [Stmt.gather, Stmt.toTree, h.node (by decide), List.flatMap_map]
  simp only [h.label hargument]
  rfl

theorem assignment : (Stmt.assignment name e line).gather pick = e.gather pick := by
  rw [Stmt.gather, Stmt.toTree, h.node (by decide)]
  exact List.append_nil _

theorem increment : (Stmt.increment name line).gather pick = [] := h.node (by decide) _ _ _

theorem decrement : (Stmt.decrement name line).gather pick = [] := h.node (by decide) _ _ _

theorem program (p : Program) : p.toTree.gather pick = p.flatMap (Stmt.gather pick) := by
  rw [Program.toTree, h.node (by decide), PicksOperands.body]

end PicksOperands

namespace Parser
variable {α γ ι : Type}

/-! ### Parsers that add nothing -/

/-- The parser keeps to the tokens before the next end of the input, and reports no expression. -/
structure Plain {α : Type} (p : Parser α) : Prop where
  safe : Safe p
  valid : FindsOnly (fun m => m.code ≠ "P004") p

theorem plain_expect (kind : TokenKind) (expectation : String) : Plain (expect kind expectation) :=
  ⟨closed_safe.expect _ _, findsOnly_expect fun _ => by simp [Mistake.code]⟩

theorem plain_expectSemicolon (construct : String) (first : Token) : Plain (expectSemicolon construct first) :=
  ⟨closed_safe.expectSemicolon _ _, findsOnly_expectSemicolon (by simp [Mistake.code])⟩

theorem plain_separator : Plain separator :=
  ⟨closed_safe.separator, findsOnly_separator fun _ => by simp [Mistake.code]⟩

theorem plain_endDeclaration (name : Token) : Plain (endDeclaration name) :=
  ⟨closed_safe.endDeclaration _, findsOnly_endDeclaration fun _ => by simp [Mistake.code]⟩

theorem plain_report {m : Mistake} (hm : m.code ≠ "P004") : Plain (report m) := ⟨safe_report m, findsOnly_report hm⟩

theorem reading_plain : ClosedReading Plain where
  pure a := ⟨safe_pure a, findsOnly_pure a⟩
  bind hp hf := ⟨safe_bind hp.safe fun a => (hf a).safe, findsOnly_bind hp.valid fun a => (hf a).valid⟩
  fixOver h i := by
    have hrule := fixOver_of
      (Q := fun s c o => (c.Open → Kept c (o s)) ∧ ∀ m ∈ (o s).mistakes, m.code ≠ "P004")
      (fun s c => ⟨fun _ => ⟨.refl c, (fun _ he => by cases he), fun _ _ he => by cases he⟩, fun _ hm => by cases hm⟩)
      (fun p hp i s c => ⟨(h p (fun j => ⟨fun s c => (hp j s c).1, fun s c => (hp j s c).2⟩) i).safe s c,
        (h p (fun j => ⟨fun s c => (hp j s c).1, fun s c => (hp j s c).2⟩) i).valid s c⟩) i
    exact ⟨fun s c => (hrule s c).1, fun s c => (hrule s c).2⟩
  peek := ⟨safe_peek, findsOnly_peek⟩
  advance := ⟨safe_advance, findsOnly_advance⟩

theorem plain_isMethodCall : Plain isMethodCall := ⟨closed_safe.isMethodCall, findsOnly_isMethodCall⟩

theorem plain_isLikelyMethod (modifiers : List Token) (t : Token) : Plain (isLikelyMethod modifiers t) :=
  ⟨closed_safe.isLikelyMethod _ _, findsOnly_isLikelyMethod _ _⟩

/-! ### What is gathered -/

/-- If `earlier` was gathered up to the cursor, then with what the parser reads it makes up what the value is to show. -/
def Gathers (Gained : Cursor → List β → Cursor → List Event → Prop) (s : Setting) (c : Cursor) (earlier : List β)
    {α : Type} (p : Parser α) (gathered : α → List β) : Prop :=
  c.Open → ∀ b log, Gained b earlier c log → ∀ a d more, p s c = .done a d more →
    d.Open ∧ Gained b (gathered a) d (log ++ more)

/-- What is gathered between two cursors, with what the log tells, is put together from the parts. -/
structure Additive (Gained : Cursor → List β → Cursor → List Event → Prop) : Prop where
  trans {c d e : Cursor} {l l' : List β} {log more : List Event} :
    Gained c l d log → Gained d l' e more → Gained c (l ++ l') e (log ++ more)
  plain {α : Type} {p : Parser α} {s : Setting} {c d : Cursor} {a : α} {log : List Event} :
    Plain p → c.Open → p s c = .done a d log → Gained c [] d log

/-- Besides, when an operand is read, it is what is picked from that. -/
structure Gathering (pick : Tree → Option β) (Gained : Cursor → List β → Cursor → List Event → Prop) : Prop
    extends Additive Gained where
  operands : PicksOperands pick
  factor {s : Setting} {condition : Parser Expr} :
    (∀ c, Gathers Gained s c [] condition (Expr.gather pick)) →
      ∀ c, Gathers Gained s c [] (factor condition) (Expr.gather pick)

/-! ### Sequences and choices -/

section
variable {Gained : Cursor → List β → Cursor → List Event → Prop} {s : Setting} {c : Cursor} {earlier : List β}
  {parts : α → List β}

theorem gathers_pure {a : α} (h : parts a = earlier) : Gathers Gained s c earlier (pure a) parts := by
  intro hc b log hb a' d more hd
  cases hd
  rw [h, List.append_nil]
  exact ⟨hc, hb⟩

theorem gathers_ite {b : Prop} [Decidable b] {p q : Parser α} (hp : Gathers Gained s c earlier p parts)
    (hq : Gathers Gained s c earlier q parts) : Gathers Gained s c earlier (if b then p else q) parts := by
  split
  · exact hp
  · exact hq

theorem gathers_fix {rule : Parser α → Parser α}
    (h : ∀ p, (∀ c, Gathers Gained s c [] p parts) → ∀ c, Gathers Gained s c [] (rule p) parts) (c : Cursor) :
    Gathers Gained s c [] (fix rule) parts :=
  fixOver_of
    (Q := fun _ c o => c.Open → ∀ b log, Gained b [] c log → ∀ a d more, o s = .done a d more →
      d.Open ∧ Gained b (parts a) d (log ++ more))
    (fun _ _ _ _ _ _ _ _ _ hd => by cases hd) (fun p hp _ _ c => h (p ()) (fun c => hp () s c) c) () s c

end

namespace Additive
variable {Gained : Cursor → List β → Cursor → List Event → Prop} (G : Additive Gained) {s : Setting} {c : Cursor}
  {earlier : List β}
include G

section
variable {parts : α → List β} {whole : γ → List β} {p : Parser α} {f : α → Parser γ}

/-- After a parser that came to a value, what was gathered meanwhile counts as earlier. -/
theorem after {a : α} {d : Cursor} {log : List Event} {found : List β} (hp : p s c = .done a d log) (hd : d.Open)
    (hfound : Gained c found d log) (hf : Gathers Gained s d (earlier ++ found) (f a) whole) :
    Gathers Gained s c earlier (p >>= f) whole := by
  intro _ b first hb a' e more he
  change (p s c).andThen (fun a d => f a s d) = .done a' e more at he
  rw [hp, Outcome.andThen] at he
  cases hfd : f a s d with
  | stopped => simp [hfd, Outcome.after] at he
  | done b' e' second =>
    simp only [hfd, Outcome.after, Outcome.done.injEq] at he
    obtain ⟨rfl, rfl, rfl⟩ := he
    rw [← List.append_assoc]
    exact hf hd b (first ++ log) (G.trans hb hfound) b' e' second hfd

omit G in
theorem of_stopped {stop : Stop} {d : Cursor} {log : List Event} (hp : p s c = .stopped stop d log) :
    Gathers Gained s c earlier (p >>= f) whole := by
  intro _ b first _ a e more he
  change (p s c).andThen (fun a d => f a s d) = .done a e more at he
  simp [hp, Outcome.andThen] at he

theorem refl (s : Setting) (hc : c.Open) : Gained c [] c [] := G.plain (s := s) (reading_plain.pure ()) hc rfl

theorem bind (hp : Gathers Gained s c [] p parts) (hf : ∀ a d, Gathers Gained s d (earlier ++ parts a) (f a) whole) :
    Gathers Gained s c earlier (p >>= f) whole := by
  intro hc
  cases hpc : p s c with
  | stopped => exact of_stopped hpc hc
  | done a d first =>
    obtain ⟨hd, hfirst⟩ := hp hc c [] (G.refl s hc) a d first hpc
    exact G.after hpc hd hfirst (hf a d) hc

/-- A parser that adds nothing. -/
theorem plain_bind (hp : Plain p) (hf : ∀ a d, Gathers Gained s d earlier (f a) whole) :
    Gathers Gained s c earlier (p >>= f) whole := by
  intro hc
  cases hpc : p s c with
  | stopped => exact of_stopped hpc hc
  | done a d first =>
    have hd := hp.safe s c hc
    rw [hpc] at hd
    exact G.after hpc (hd.onward.isOpen hc) (G.plain hp hc hpc) (by simpa using hf a d) hc

theorem peek_bind {f : Token → Parser γ}
    (hf : ∀ t rest, c.ahead = t :: rest → Gathers Gained s c earlier (f t) whole) :
    Gathers Gained s c earlier (peek >>= f) whole := by
  intro hc
  obtain ⟨t, rest, ht⟩ := hc.ahead
  have hp : peek s c = .done t c [] := by simp only [peek, ht]
  exact G.after hp hc (G.refl s hc) (by simpa using hf t rest ht) hc

theorem map {g : α → γ} (hp : Gathers Gained s c [] p fun a => whole (g a)) : Gathers Gained s c [] (g <$> p) whole :=
  G.bind hp fun _ _ => gathers_pure (List.nil_append _).symm

theorem repeatWhile {go : TokenKind → Bool} (h : ∀ c, Gathers Gained s c [] p parts) (c : Cursor) :
    Gathers Gained s c [] (repeatWhile go p) fun l => l.flatMap parts := by
  refine gathers_fix (fun again hagain c => ?_) c
  refine G.plain_bind reading_plain.peek fun t c => gathers_ite ?_ (gathers_pure rfl)
  refine G.bind (h c) fun a d => G.bind (hagain d) fun l e => gathers_pure ?_
  simp

end

end Additive

namespace Gathering
variable {pick : Tree → Option β} {Gained : Cursor → List β → Cursor → List Event → Prop} (G : Gathering pick Gained)
  {s : Setting} {c : Cursor}
include G

/-! ### Expressions -/

section
variable {condition : Parser Expr} (h : ∀ c, Gathers Gained s c [] condition (Expr.gather pick))

theorem chain {isOperator : TokenKind → Bool} {operand : Parser Expr}
    (h : ∀ c, Gathers Gained s c [] operand (Expr.gather pick)) (c : Cursor) :
    Gathers Gained s c [] (chain isOperator operand) (Expr.gather pick) := by
  have hrest : ∀ d, Gathers Gained s d []
      (advance >>= fun operator => operand >>= fun right => Pure.pure (operator.lexeme, right))
      fun x : String × Expr => x.2.gather pick :=
    fun d => G.plain_bind reading_plain.advance fun _ e => G.bind (h e) fun _ _ => gathers_pure rfl
  refine G.bind (h c) fun first d => G.bind (G.repeatWhile hrest d) fun rest _ => gathers_pure ?_
  rw [G.operands.chain]
  rfl

include h

theorem expression (c : Cursor) : Gathers Gained s c [] (expression condition) (Expr.gather pick) :=
  G.chain (G.chain (G.factor h)) c

theorem conditionRule (c : Cursor) : Gathers Gained s c [] (conditionRule condition) (Expr.gather pick) := by
  refine G.bind (G.expression h c) fun left d => G.plain_bind reading_plain.peek fun t d =>
    gathers_ite ?_ (gathers_pure rfl)
  refine G.plain_bind reading_plain.advance fun _ e => G.bind (G.expression h e) fun right _ => gathers_pure ?_
  rw [G.operands.comparison]
  rfl

end

theorem condition (c : Cursor) : Gathers Gained s c [] condition (Expr.gather pick) :=
  gathers_fix (fun _ h c => G.conditionRule h c) c

theorem value (c : Cursor) : Gathers Gained s c [] (Parser.expression Parser.condition) (Expr.gather pick) :=
  G.expression G.condition c

/-! ### Statements without statements in them -/

theorem initializer (c : Cursor) :
    Gathers Gained s c [] initializer fun e => e.toList.flatMap (Expr.gather pick) := by
  refine G.plain_bind (reading_plain.accept _) fun _ d => gathers_ite (G.map ?_) (gathers_pure rfl)
  simpa using G.value d

theorem declaration (c : Cursor) : Gathers Gained s c [] declaration (Stmt.gatherIn pick) := by
  refine G.plain_bind reading_plain.advance fun _ d => G.plain_bind reading_plain.peek fun t _ => gathers_ite ?_ ?_
  · refine G.plain_bind reading_plain.advance fun _ e => G.bind (G.initializer e) fun initial _ =>
      G.plain_bind (plain_endDeclaration _) fun _ _ => gathers_pure ?_
    simp [Stmt.gatherIn, G.operands.declaration]
  · exact G.plain_bind (plain_report (by simp [Mistake.code])) fun _ _ => gathers_pure rfl

theorem argument (c : Cursor) : Gathers Gained s c [] argument (Expr.gather pick) :=
  G.bind (G.value c) fun _ _ => G.plain_bind plain_separator fun _ _ => gathers_pure rfl

theorem methodCall (c : Cursor) : Gathers Gained s c [] methodCall (Stmt.gather pick) := by
  refine G.plain_bind reading_plain.peek fun _ _ => G.plain_bind reading_plain.dottedName fun _ _ =>
    G.plain_bind (plain_expect _ _) fun _ d => G.bind (G.repeatWhile G.argument d) fun es _ =>
      G.plain_bind (plain_expect _ _) fun _ _ => G.plain_bind (plain_expectSemicolon _ _) fun _ _ => gathers_pure ?_
  rw [G.operands.methodCall]
  rfl

theorem assignment (c : Cursor) : Gathers Gained s c [] assignment (Stmt.gatherIn pick) := by
  refine G.plain_bind (plain_expect _ _) fun name _ => G.plain_bind (reading_plain.accept _) fun _ d => gathers_ite ?_ ?_
  · refine G.bind (G.value d) fun e _ => G.plain_bind (plain_expectSemicolon _ _) fun _ _ => gathers_pure ?_
    simp [Stmt.gatherIn, G.operands.assignment]
  · refine G.plain_bind (reading_plain.accept _) fun _ _ => gathers_ite ?_ <|
      G.plain_bind (reading_plain.accept _) fun _ _ => gathers_ite ?_ <|
      G.plain_bind (plain_report (by simp [Mistake.code])) fun _ _ => gathers_pure rfl
    all_goals
      refine G.plain_bind (plain_expectSemicolon _ _) fun _ _ => gathers_pure ?_
      simp [Stmt.gatherIn, G.operands.increment, G.operands.decrement]

/-! ### Statements with statements in them -/

section
variable {statement : Parser (Option Stmt)} (h : ∀ c, Gathers Gained s c [] statement (Stmt.gatherIn pick)) (c : Cursor)
include h

theorem statementsUntilBrace :
    Gathers Gained s c [] (statementsUntilBrace statement) fun body => body.flatMap (Stmt.gather pick) :=
  G.bind (G.repeatWhile h c) fun _ _ => gathers_pure (gather_reduceOption _ _)

theorem classDecl (ms : List Token) : Gathers Gained s c [] (classDecl statement ms) (Stmt.gather pick) := by
  refine G.plain_bind (plain_expect _ _) fun _ _ => G.plain_bind (plain_expect _ _) fun _ _ =>
    G.plain_bind (plain_expect _ _) fun _ d => G.bind (G.statementsUntilBrace h d) fun _ _ =>
      G.plain_bind (plain_expect _ _) fun _ _ => gathers_pure ?_
  rw [G.operands.classDecl]
  rfl

theorem methodDecl (ms : List Token) : Gathers Gained s c [] (methodDecl statement ms) (Stmt.gather pick) := by
  refine G.plain_bind reading_plain.advance fun _ _ => G.plain_bind (plain_expect _ _) fun _ _ =>
    G.plain_bind (plain_expect _ _) fun _ _ => G.plain_bind reading_plain.skipParameters fun _ _ =>
      G.plain_bind (plain_expect _ _) fun _ _ => G.plain_bind (plain_expect _ _) fun _ d =>
        G.bind (G.statementsUntilBrace h d) fun _ _ => G.plain_bind (plain_expect _ _) fun _ _ => gathers_pure ?_
  rw [G.operands.methodDecl]
  rfl

theorem whileLoop : Gathers Gained s c [] (whileLoop statement) (Stmt.gather pick) := by
  refine G.plain_bind (plain_expect _ _) fun _ _ => G.plain_bind (plain_expect _ _) fun _ d =>
    G.bind (G.condition d) fun _ _ => G.plain_bind (plain_expect _ _) fun _ d => G.bind (h d) fun _ _ => gathers_pure ?_
  rw [G.operands.whileLoop]
  rfl

theorem elseBranch : Gathers Gained s c [] (elseBranch statement) (Stmt.gatherIn pick) :=
  G.plain_bind (reading_plain.accept _) fun _ d => gathers_ite (h d) (gathers_pure rfl)

theorem ifElse : Gathers Gained s c [] (ifElse statement) (Stmt.gather pick) := by
  refine G.plain_bind (plain_expect _ _) fun _ _ => G.plain_bind (plain_expect _ _) fun _ d =>
    G.bind (G.condition d) fun _ _ => G.plain_bind (plain_expect _ _) fun _ d => G.bind (h d) fun _ d =>
      G.bind (G.elseBranch h d) fun _ _ => gathers_pure ?_
  rw [G.operands.ifElse, ← List.append_assoc]
  rfl

theorem block : Gathers Gained s c [] (block statement) (Stmt.gather pick) := by
  refine G.plain_bind (plain_expect _ _) fun _ d => G.bind (G.statementsUntilBrace h d) fun _ _ =>
    G.plain_bind (plain_expect _ _) fun _ _ => gathers_pure ?_
  rw [G.operands.block]
  rfl

theorem afterModifiers (ms : List Token) :
    Gathers Gained s c [] (afterModifiers statement ms) (Stmt.gatherIn pick) := by
  have found : ∀ {p : Parser Stmt} {d : Cursor}, Gathers Gained s d [] p (Stmt.gather pick) →
      Gathers Gained s d [] (some <$> p) (Stmt.gatherIn pick) :=
    fun hp => G.map (by simpa [Stmt.gatherIn] using hp)
  refine G.plain_bind reading_plain.peek fun t c => ?_
  refine gathers_ite (found (G.classDecl h c ms)) <| gathers_ite ?type <| gathers_ite (found (G.whileLoop h c)) <|
    gathers_ite (found (G.ifElse h c)) <| gathers_ite ?name <| gathers_ite (found (G.block h c)) <|
    G.plain_bind (plain_report (by simp [Mistake.code])) fun _ _ => G.plain_bind reading_plain.advance fun _ _ =>
      gathers_pure rfl
  case type =>
    exact G.plain_bind (plain_isLikelyMethod _ _) fun _ d =>
      gathers_ite (found (G.methodDecl h d ms)) (G.declaration d)
  case name =>
    exact G.plain_bind plain_isMethodCall fun _ d => gathers_ite (found (G.methodCall d)) (G.assignment d)

theorem statementRule : Gathers Gained s c [] (statementRule statement) (Stmt.gatherIn pick) :=
  G.plain_bind ⟨safe_begin, findsOnly_begin⟩ fun _ _ =>
    G.plain_bind (reading_plain.repeatWhile reading_plain.advance) fun ms d => G.afterModifiers h d ms

end

theorem statement (c : Cursor) : Gathers Gained s c [] statement (Stmt.gatherIn pick) :=
  gathers_fix (fun _ h c => G.statementRule h c) c

/-- What is gathered on the way is what the tree of the program shows. -/
theorem program (c : Cursor) : Gathers Gained s c [] program fun p => p.toTree.gather pick := by
  refine G.plain_bind ⟨safe_beginProgram, findsOnly_beginProgram⟩ fun _ d =>
    G.bind (G.repeatWhile G.statement d) fun found _ => gathers_pure ?_
  rw [G.operands.program, gather_reduceOption]
  rfl

end Gathering

end Parser

end Curly
