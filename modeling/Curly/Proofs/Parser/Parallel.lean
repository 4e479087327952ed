import Curly.Parser.Report
import Mathlib.Data.List.Forall2
import Mathlib.Data.List.ReduceOption

/-! Two parses side by side. If the tokens of the one correspond to those of the other up to the first end of the input,
    each to one of the same kind, then the parsers come to values that are built alike, at cursors and with logs that
    correspond. Nothing but the kinds of tokens decides where a parse goes, and nothing after the first end is looked at.
    Main statement: `parallel_program`. -/

namespace Curly

/-- Two parses with a correspondence between their tokens, and what follows the first end of the input in each. Tokens
    that correspond are of one kind. -/
structure Pairing where
  Rel : Token → Token → Prop
  kind_eq : ∀ {t u : Token}, Rel t u → t.kind = u.kind
  left : Setting
  right : Setting
  interruption_eq : left.interruption = right.interruption
  leftRest : List Token
  rightRest : List Token

namespace Pairing
variable (P : Pairing)

/-! ### What corresponds -/

/-- Tokens ahead that correspond up to the first end of the input. -/
inductive Ahead : List Token → List Token → Prop where
  | stop {t u : Token} (h : P.Rel t u) (ht : t.kind = .eof) : Ahead (t :: P.leftRest) (u :: P.rightRest)
  | cons {t u : Token} {ts us : List Token} (h : P.Rel t u) (ht : t.kind ≠ .eof) (h' : Ahead ts us) :
    Ahead (t :: ts) (u :: us)

/-- Cursors at corresponding places. The number of statements that have begun matters only if the parses are to be broken
    off at some statement. -/
structure Cursors (c d : Cursor) : Prop where
  ahead : P.Ahead c.ahead d.ahead
  begun : P.left.interruption ≠ none → c.begun = d.begun

/-- The same mistakes at corresponding tokens. -/
inductive Mistakes : Mistake → Mistake → Prop where
  | unexpected (expectation : String) {t u : Token} (h : P.Rel t u) :
    Mistakes (.unexpected expectation t) (.unexpected expectation u)
  | missingSemicolon (construct : String) {t u : Token} {found found' : Option Token} (h : P.Rel t u)
    (h' : Option.Rel P.Rel found found') :
    Mistakes (.missingSemicolon construct t found) (.missingSemicolon construct u found')
  | unrecognizedStatement {t u : Token} (h : P.Rel t u) : Mistakes (.unrecognizedStatement t) (.unrecognizedStatement u)
  | invalidExpression {t u : Token} (h : P.Rel t u) : Mistakes (.invalidExpression t) (.invalidExpression u)
  | invalidAssignment {t u : Token} (h : P.Rel t u) : Mistakes (.invalidAssignment t) (.invalidAssignment u)

/-- Entries that tell the same, except for the number of tokens ahead. -/
inductive Events : Event → Event → Prop where
  | began (m n : Nat) : Events (.began m) (.began n)
  | read (m n : Nat) : Events (.read m) (.read n)
  | found {m m' : Mistake} (h : P.Mistakes m m') : Events (.found m) (.found m')
  | resumed (m n skipped : Nat) : Events (.resumed m skipped) (.resumed n skipped)

/-- Expressions built alike from corresponding tokens. -/
inductive Exprs : Expr → Expr → Prop where
  | number {t u : Token} (h : P.Rel t u) : Exprs (.number t.lexeme t.line) (.number u.lexeme u.line)
  | identifier {t u : Token} (h : P.Rel t u) : Exprs (.identifier t.lexeme t.line) (.identifier u.lexeme u.line)
  | string {t u : Token} (h : P.Rel t u) : Exprs (.string t.value t.line) (.string u.value u.line)
  | postIncrement {t u : Token} (h : P.Rel t u) :
    Exprs (.postIncrement t.lexeme t.line) (.postIncrement u.lexeme u.line)
  | postDecrement {t u : Token} (h : P.Rel t u) :
    Exprs (.postDecrement t.lexeme t.line) (.postDecrement u.lexeme u.line)
  | binary {t u : Token} {e f e' f' : Expr} (h : P.Rel t u) (he : Exprs e e') (hf : Exprs f f') :
    Exprs (.binary t.lexeme e f) (.binary u.lexeme e' f')
  | comparison {t u : Token} {e f e' f' : Expr} (h : P.Rel t u) (he : Exprs e e') (hf : Exprs f f') :
    Exprs (.comparison t.lexeme e f) (.comparison u.lexeme e' f')
  | error {t u : Token} (h : P.Rel t u) : Exprs (.error t.line) (.error u.line)

/-- Operators with their right operands. -/
def Operations (x y : String × Expr) : Prop :=
  ∃ t u, P.Rel t u ∧ x.1 = t.lexeme ∧ y.1 = u.lexeme ∧ P.Exprs x.2 y.2

/-- Statements built alike from corresponding tokens. Statements in a body or a branch are given in pairs. -/
inductive Stmts : Stmt → Stmt → Prop where
  | classDecl {name name' : Token} {ms ms' : List Token} {body : List (Stmt × Stmt)} (hname : P.Rel name name')
    (hms : List.Forall₂ P.Rel ms ms') (h : ∀ x ∈ body, Stmts x.1 x.2) :
    Stmts (.classDecl name.lexeme (ms.map Word.ofToken) (body.map Prod.fst) name.line)
      (.classDecl name'.lexeme (ms'.map Word.ofToken) (body.map Prod.snd) name'.line)
  | methodDecl {name name' type type' : Token} {ms ms' : List Token} {body : List (Stmt × Stmt)}
    (hname : P.Rel name name') (htype : P.Rel type type') (hms : List.Forall₂ P.Rel ms ms')
    (h : ∀ x ∈ body, Stmts x.1 x.2) :
    Stmts (.methodDecl name.lexeme (.ofToken type) (ms.map Word.ofToken) (body.map Prod.fst) name.line)
      (.methodDecl name'.lexeme (.ofToken type') (ms'.map Word.ofToken) (body.map Prod.snd) name'.line)
  | declaration {type type' name name' : Token} {e e' : Option Expr} (htype : P.Rel type type')
    (hname : P.Rel name name') (he : Option.Rel P.Exprs e e') :
    Stmts (.declaration type.lexeme name.lexeme e type.line) (.declaration type'.lexeme name'.lexeme e' type'.line)
  | whileLoop {kw kw' : Token} {e e' : Expr} {body : Option (Stmt × Stmt)} (hkw : P.Rel kw kw') (he : P.Exprs e e')
    (h : ∀ x ∈ body, Stmts x.1 x.2) :
    Stmts (.whileLoop e (body.map Prod.fst) kw.line) (.whileLoop e' (body.map Prod.snd) kw'.line)
  | ifElse {kw kw' : Token} {e e' : Expr} {a b : Option (Stmt × Stmt)} (hkw : P.Rel kw kw') (he : P.Exprs e e')
    (ha : ∀ x ∈ a, Stmts x.1 x.2) (hb : ∀ x ∈ b, Stmts x.1 x.2) :
    Stmts (.ifElse e (a.map Prod.fst) (b.map Prod.fst) kw.line) (.ifElse e' (a.map Prod.snd) (b.map Prod.snd) kw'.line)
  | block {l l' : Token} {body : List (Stmt × Stmt)} (hl : P.Rel l l') (h : ∀ x ∈ body, Stmts x.1 x.2) :
    Stmts (.block (body.map Prod.fst) l.line) (.block (body.map Prod.snd) l'.line)
  | methodCall {first first' : Token} {name name' : List Token} {es es' : List Expr} (hfirst : P.Rel first first')
    (hname : List.Forall₂ P.Rel name name') (hes : List.Forall₂ P.Exprs es es') :
    Stmts (.methodCall (String.join (name.map Token.lexeme)) es first.line)
      (.methodCall (String.join (name'.map Token.lexeme)) es' first'.line)
  | assignment {name name' : Token} {e e' : Expr} (hname : P.Rel name name') (he : P.Exprs e e') :
    Stmts (.assignment name.lexeme e name.line) (.assignment name'.lexeme e' name'.line)
  | increment {name name' : Token} (hname : P.Rel name name') :
    Stmts (.increment name.lexeme name.line) (.increment name'.lexeme name'.line)
  | decrement {name name' : Token} (hname : P.Rel name name') :
    Stmts (.decrement name.lexeme name.line) (.decrement name'.lexeme name'.line)

/-- Statements in a row, built alike. -/
def Bodies (l l' : List Stmt) : Prop :=
  ∃ body : List (Stmt × Stmt), l = body.map Prod.fst ∧ l' = body.map Prod.snd ∧ ∀ x ∈ body, P.Stmts x.1 x.2

/-- Both come to values, or both to the same stop; at corresponding cursors and with corresponding logs. -/
inductive Outcomes {α β : Type} (V : α → β → Prop) : Outcome α → Outcome β → Prop where
  | done {a : α} {b : β} {c d : Cursor} {log log' : List Event} (h : V a b) (hc : P.Cursors c d)
    (hl : List.Forall₂ P.Events log log') : Outcomes V (.done a c log) (.done b d log')
  | stopped (stop : Stop) {c d : Cursor} {log log' : List Event} (hc : P.Cursors c d)
    (hl : List.Forall₂ P.Events log log') : Outcomes V (.stopped stop c log) (.stopped stop d log')

/-- From corresponding cursors the parsers come to corresponding outcomes. -/
def Parallel {α β : Type} (V : α → β → Prop) (p : Parser α) (q : Parser β) : Prop :=
  ∀ c d, P.Cursors c d → P.Outcomes V (p P.left c) (q P.right d)

/-! ### Places -/

variable {P}

theorem Ahead.length_add {ts us : List Token} (h : P.Ahead ts us) :
    ts.length + P.rightRest.length = us.length + P.leftRest.length := by
  induction h with
  | stop => simp only [List.length_cons]; omega
  | cons _ _ _ ih => simp only [List.length_cons]; omega

/-- Of two places, the same one comes first in both parses. -/
theorem Cursors.length_lt_iff {c d c' d' : Cursor} (h : P.Cursors c d) (h' : P.Cursors c' d') :
    c'.ahead.length < c.ahead.length ↔ d'.ahead.length < d.ahead.length := by
  have := h.ahead.length_add
  have := h'.ahead.length_add
  omega

theorem Ahead.head {ts us : List Token} (h : P.Ahead ts us) :
    ∃ t u ts' us', ts = t :: ts' ∧ us = u :: us' ∧ P.Rel t u ∧ (t.kind ≠ .eof → P.Ahead ts' us') := by
  cases h with
  | stop h ht => exact ⟨_, _, _, _, rfl, rfl, h, fun hne => absurd ht hne⟩
  | cons h _ h' => exact ⟨_, _, _, _, rfl, rfl, h, fun _ => h'⟩

/-- Where one parse resumes, so does the other. -/
theorem Ahead.skip {ts us : List Token} (h : P.Ahead ts us) (limit : Nat) :
    skippable limit us = skippable limit ts ∧
      P.Ahead (ts.drop (skippable limit ts)) (us.drop (skippable limit ts)) := by
  induction h generalizing limit with
  | @stop t u h ht =>
    have hu : u.kind = .eof := P.kind_eq h ▸ ht
    have hzero : ∀ (v : Token) (rest : List Token), v.kind = .eof → skippable limit (v :: rest) = 0 := by
      intro v rest hv
      unfold skippable
      split <;> simp_all
    rw [hzero t _ ht, hzero u _ hu]
    exact ⟨rfl, .stop h ht⟩
  | @cons t u ts us h ht h' ih =>
    obtain ⟨t', u', ts', us', rfl, rfl, -, -⟩ := h'.head
    have hk := P.kind_eq h
    unfold skippable
    simp only [← hk, if_neg ht]
    split
    · split
      · exact ⟨rfl, h'⟩
      · exact ⟨rfl, .cons h ht h'⟩
    · cases limit with
      | zero => exact ⟨rfl, .cons h ht h'⟩
      | succ limit =>
        obtain ⟨heq, hdrop⟩ := ih limit
        simp only [heq, Nat.add_comm 1, List.drop_succ_cons, true_and]
        exact hdrop

end Pairing

namespace Parser
variable {P : Pairing} {α β γ δ ι : Type} {V : α → β → Prop} {W : γ → δ → Prop}

/-! ### Sequences and choices -/

theorem parallel_pure {a : α} {b : β} (h : V a b) : P.Parallel V (pure a) (pure b) :=
  fun _ _ hc => .done h hc .nil

theorem outcomes_after {o : Outcome α} {o' : Outcome β} {log log' : List Event} (h : P.Outcomes V o o')
    (hl : List.Forall₂ P.Events log log') : P.Outcomes V (o.after log) (o'.after log') := by
  cases h with
  | done h hc hl' => exact .done h hc (List.rel_append hl hl')
  | stopped stop hc hl' => exact .stopped stop hc (List.rel_append hl hl')

theorem parallel_bind {p : Parser α} {q : Parser β} {f : α → Parser γ} {g : β → Parser δ} (hp : P.Parallel V p q)
    (hf : ∀ a b, V a b → P.Parallel W (f a) (g b)) : P.Parallel W (p >>= f) (q >>= g) := by
  intro c d hc
  show P.Outcomes W ((p P.left c).andThen fun a e => f a P.left e) ((q P.right d).andThen fun b e => g b P.right e)
  have hpq := hp c d hc
  generalize p P.left c = o, q P.right d = o' at hpq
  cases hpq with
  | done h he hl => exact outcomes_after (hf _ _ h _ _ he) hl
  | stopped stop he hl => exact .stopped stop he hl

theorem parallel_map {p : Parser α} {q : Parser β} {f : α → γ} {g : β → δ} (hp : P.Parallel V p q)
    (hf : ∀ a b, V a b → W (f a) (g b)) : P.Parallel W (f <$> p) (g <$> q) :=
  parallel_bind hp fun a b h => parallel_pure (hf a b h)

theorem parallel_ite {b : Prop} [Decidable b] {p p' : Parser α} {q q' : Parser β} (hp : P.Parallel V p q)
    (hp' : P.Parallel V p' q') : P.Parallel V (if b then p else p') (if b then q else q') := by
  split
  · exact hp
  · exact hp'

/-! ### Tokens and mistakes -/

theorem parallel_peek : P.Parallel P.Rel peek peek := by
  intro c d hc
  obtain ⟨t, u, ts, us, ht, hu, h, -⟩ := hc.ahead.head
  simp only [peek, ht, hu]
  exact .done h hc .nil

theorem parallel_advance : P.Parallel P.Rel advance advance := by
  intro c d hc
  obtain ⟨t, u, ts, us, ht, hu, h, hrest⟩ := hc.ahead.head
  simp only [advance, ht, hu, ← P.kind_eq h]
  by_cases hk : t.kind = .eof
  · rw [if_pos hk, if_pos hk]
    exact .done h hc .nil
  · rw [if_neg hk, if_neg hk]
    exact .done h ⟨hrest hk, hc.begun⟩ (.cons (.read _ _) .nil)

theorem parallel_check (kind : TokenKind) : P.Parallel Eq (check kind) (check kind) :=
  parallel_bind parallel_peek fun t u h => parallel_pure (by rw [P.kind_eq h])

theorem parallel_accept (kind : TokenKind) : P.Parallel Eq (accept kind) (accept kind) := by
  refine parallel_bind (parallel_check kind) ?_
  rintro b _ rfl
  exact parallel_ite (parallel_bind parallel_advance fun _ _ _ => parallel_pure rfl) (parallel_pure rfl)

theorem parallel_report {m m' : Mistake} (h : P.Mistakes m m') : P.Parallel Eq (report m) (report m') :=
  fun _ _ hc => .done rfl hc (.cons (.found h) .nil)

theorem parallel_expect (kind : TokenKind) (expectation : String) :
    P.Parallel P.Rel (expect kind expectation) (expect kind expectation) := by
  refine parallel_bind (parallel_check kind) ?_
  rintro b _ rfl
  exact parallel_ite parallel_advance (parallel_bind parallel_peek fun t u h =>
    parallel_bind (parallel_report (.unexpected expectation h)) fun _ _ _ => parallel_advance)

theorem parallel_expectSemicolon (construct : String) {t u : Token} (h : P.Rel t u) :
    P.Parallel Eq (expectSemicolon construct t) (expectSemicolon construct u) := by
  refine parallel_bind (parallel_accept _) ?_
  rintro b _ rfl
  exact parallel_ite (parallel_pure rfl) (parallel_report (.missingSemicolon construct h .none))

theorem parallel_speculate {p : Parser α} {q : Parser β} (h : P.Parallel V p q) :
    P.Parallel V (speculate p) (speculate q) := by
  intro c d hc
  have hpq := h c d hc
  unfold speculate
  generalize p P.left c = o, q P.right d = o' at hpq
  cases hpq with
  | done ha he hl => exact .done ha ⟨hc.ahead, he.begun⟩ hl
  | stopped _ he hl => exact .stopped _ ⟨hc.ahead, he.begun⟩ hl

theorem parallel_resume : P.Parallel Eq resume resume := by
  intro c d hc
  obtain ⟨heq, hdrop⟩ := hc.ahead.skip resumeLimit
  unfold resume
  simp only [heq]
  exact .done rfl ⟨hdrop, hc.begun⟩ (.cons (.resumed _ _ _) .nil)

/-! ### Recursion and repetition -/

theorem parallel_fixOver {rule : (ι → Parser α) → ι → Parser α} {rule' : (ι → Parser β) → ι → Parser β}
    (h : ∀ (p : ι → Parser α) (q : ι → Parser β), (∀ i, P.Parallel V (p i) (q i)) →
      ∀ i, P.Parallel V (rule p i) (rule' q i)) (i : ι) : P.Parallel V (fixOver rule i) (fixOver rule' i) := by
  intro c d hc
  induction hn : c.ahead.length using Nat.strongRecOn generalizing i c d with
  | ind n ih =>
    rw [fixOver, fixOver]
    refine h _ _ (fun j c' d' hc' => ?_) i c d hc
    have hiff := hc.length_lt_iff hc'
    by_cases hlt : c'.ahead.length < c.ahead.length
    · rw [if_pos hlt, if_pos (hiff.mp hlt)]
      exact ih _ (hn ▸ hlt) j c' d' hc' rfl
    · rw [if_neg hlt, if_neg (hlt ∘ hiff.mpr)]
      exact .stopped _ hc' .nil

theorem parallel_fix {rule : Parser α → Parser α} {rule' : Parser β → Parser β}
    (h : ∀ p q, P.Parallel V p q → P.Parallel V (rule p) (rule' q)) : P.Parallel V (fix rule) (fix rule') :=
  parallel_fixOver (fun _ _ hp _ => h _ _ (hp ())) ()

theorem parallel_repeatWhile {go : TokenKind → Bool} {p : Parser α} {q : Parser β} (h : P.Parallel V p q) :
    P.Parallel (List.Forall₂ V) (repeatWhile go p) (repeatWhile go q) :=
  parallel_fix fun _ _ hagain => parallel_bind parallel_peek fun t u ht => by
    rw [← P.kind_eq ht]
    exact parallel_ite (parallel_bind h fun _ _ ha => parallel_bind hagain fun _ _ hl => parallel_pure (.cons ha hl))
      (parallel_pure .nil)

/-! ### Expressions -/

theorem exprs_chain {e e' : Expr} {l l' : List (String × Expr)} (he : P.Exprs e e')
    (hl : List.Forall₂ P.Operations l l') :
    P.Exprs (e.chain l) (e'.chain l') := by
  induction hl generalizing e e' with
  | nil => exact he
  | @cons x y l l' hxy _ ih =>
    obtain ⟨o, e₂⟩ := x
    obtain ⟨o', e₂'⟩ := y
    obtain ⟨t, u, ht, rfl, rfl, h₂⟩ := hxy
    exact ih (.binary ht he h₂)

section
variable {condition condition' : Parser Expr} (h : P.Parallel P.Exprs condition condition')
include h

theorem parallel_factor : P.Parallel P.Exprs (factor condition) (factor condition') := by
  unfold factor
  refine parallel_bind parallel_peek fun t u ht => ?_
  rw [← P.kind_eq ht]
  split
  · exact parallel_bind parallel_advance fun _ _ _ => parallel_pure (.number ht)
  · refine parallel_bind parallel_advance fun _ _ _ => parallel_bind (parallel_accept _) ?_
    rintro b _ rfl
    refine parallel_ite (parallel_pure (.postIncrement ht)) (parallel_bind (parallel_accept _) ?_)
    rintro b _ rfl
    exact parallel_ite (parallel_pure (.postDecrement ht)) (parallel_pure (.identifier ht))
  · exact parallel_bind parallel_advance fun _ _ _ => parallel_pure (.string ht)
  · exact parallel_bind parallel_advance fun _ _ _ => parallel_bind h fun _ _ he =>
      parallel_bind (parallel_expect _ _) fun _ _ _ => parallel_pure he
  · exact parallel_bind (parallel_report (.invalidExpression ht)) fun _ _ _ =>
      parallel_bind parallel_advance fun _ _ _ => parallel_pure (.error ht)

omit h in
theorem parallel_chain {isOperator : TokenKind → Bool} {operand operand' : Parser Expr}
    (h : P.Parallel P.Exprs operand operand') :
    P.Parallel P.Exprs (chain isOperator operand) (chain isOperator operand') :=
  parallel_bind h fun _ _ he => parallel_bind
    (parallel_repeatWhile (V := P.Operations) (parallel_bind parallel_advance fun o o' ho =>
      parallel_bind h fun _ _ he => parallel_pure ⟨o, o', ho, rfl, rfl, he⟩))
    fun _ _ hl => parallel_pure (exprs_chain he hl)

theorem parallel_expression : P.Parallel P.Exprs (expression condition) (expression condition') :=
  parallel_chain (parallel_chain (parallel_factor h))

theorem parallel_conditionRule : P.Parallel P.Exprs (conditionRule condition) (conditionRule condition') := by
  refine parallel_bind (parallel_expression h) fun e e' he => parallel_bind parallel_peek fun t u ht => ?_
  rw [← P.kind_eq ht]
  exact parallel_ite (parallel_bind parallel_advance fun _ _ ho => parallel_bind (parallel_expression h) fun _ _ hf =>
    parallel_pure (.comparison ho he hf)) (parallel_pure he)

end

theorem parallel_condition : P.Parallel P.Exprs condition condition := parallel_fix fun _ _ => parallel_conditionRule

theorem parallel_value : P.Parallel P.Exprs (expression condition) (expression condition) :=
  parallel_expression parallel_condition

/-! ### Looking ahead and skipping -/

theorem parallel_namesMethod : P.Parallel Eq namesMethod namesMethod := by
  refine parallel_speculate <| parallel_bind parallel_advance fun _ _ _ => parallel_bind (parallel_accept _) ?_
  rintro b _ rfl
  exact parallel_ite (parallel_check _) (parallel_pure rfl)

theorem parallel_isLikelyMethod {ms ms' : List Token} (hms : List.Forall₂ P.Rel ms ms') {t u : Token} (h : P.Rel t u) :
    P.Parallel Eq (isLikelyMethod ms t) (isLikelyMethod ms' u) := by
  have hempty : ms.isEmpty = ms'.isEmpty := by cases hms <;> rfl
  unfold isLikelyMethod
  rw [← P.kind_eq h, hempty]
  exact parallel_ite (parallel_pure rfl) parallel_namesMethod

theorem parallel_continuesCall : P.Parallel Eq continuesCall continuesCall := by
  refine parallel_fix fun _ _ h => parallel_bind (parallel_accept _) ?_
  rintro b _ rfl
  refine parallel_ite (parallel_bind (parallel_accept _) ?_) (parallel_check _)
  rintro b _ rfl
  exact parallel_ite h (parallel_pure rfl)

theorem parallel_isMethodCall : P.Parallel Eq isMethodCall isMethodCall :=
  parallel_speculate <| parallel_bind parallel_advance fun _ _ _ => parallel_continuesCall

theorem parallel_dottedName : P.Parallel (List.Forall₂ P.Rel) dottedName dottedName := by
  refine parallel_fix fun _ _ h => parallel_bind (parallel_check _) ?_
  rintro b _ rfl
  refine parallel_ite (parallel_bind parallel_advance fun t u ht => parallel_bind (parallel_check _) ?_)
    (parallel_pure .nil)
  rintro b _ rfl
  exact parallel_ite (parallel_bind parallel_advance fun _ _ hdot => parallel_bind h fun _ _ hl =>
    parallel_pure (.cons ht (.cons hdot hl))) (parallel_pure (.cons ht .nil))

theorem parallel_skipParameters : P.Parallel Eq skipParameters skipParameters := by
  refine parallel_fixOver (fun p q h depth => parallel_bind parallel_peek fun t u ht => ?_) 0
  rw [← P.kind_eq ht]
  refine parallel_ite (parallel_pure rfl) (parallel_ite ?_ (parallel_bind parallel_advance fun _ _ _ => h _))
  cases depth with
  | zero => exact parallel_pure rfl
  | succ depth => exact parallel_bind parallel_advance fun _ _ _ => h depth

/-! ### Statements without statements in them -/

theorem parallel_begin : P.Parallel Eq begin begin := by
  intro c d hc
  have hbegun : P.left.interruption ≠ none → c.begun + 1 = d.begun + 1 := fun h => congrArg (· + 1) (hc.begun h)
  have hdone : P.Outcomes Eq (.done () { c with begun := c.begun + 1 } [.began c.ahead.length])
      (.done () { d with begun := d.begun + 1 } [.began d.ahead.length]) :=
    .done rfl ⟨hc.ahead, hbegun⟩ (.cons (.began _ _) .nil)
  unfold begin
  rw [← P.interruption_eq]
  cases hi : P.left.interruption with
  | none => exact hdone
  | some i =>
    have hsame := hbegun (by simp [hi])
    simp only [← hsame] at hdone ⊢
    split
    · exact .stopped _ ⟨hc.ahead, fun _ => rfl⟩ .nil
    · exact hdone

theorem parallel_initializer : P.Parallel (Option.Rel P.Exprs) initializer initializer := by
  refine parallel_bind (parallel_accept _) ?_
  rintro b _ rfl
  exact parallel_ite (parallel_map parallel_value fun _ _ h => .some h) (parallel_pure .none)

theorem parallel_endDeclaration {t u : Token} (h : P.Rel t u) :
    P.Parallel Eq (endDeclaration t) (endDeclaration u) := by
  refine parallel_bind (parallel_accept _) ?_
  rintro b _ rfl
  exact parallel_ite (parallel_pure rfl) (parallel_bind parallel_peek fun _ _ hfound =>
    parallel_bind (parallel_report (.missingSemicolon _ h (.some hfound))) fun _ _ _ => parallel_resume)

theorem parallel_declaration : P.Parallel (Option.Rel P.Stmts) declaration declaration := by
  refine parallel_bind parallel_advance fun _ _ htype => parallel_bind parallel_peek fun t u hname => ?_
  rw [← P.kind_eq hname]
  exact parallel_ite
    (parallel_bind parallel_advance fun _ _ _ => parallel_bind parallel_initializer fun _ _ he =>
      parallel_bind (parallel_endDeclaration hname) fun _ _ _ => parallel_pure (.some (.declaration htype hname he)))
    (parallel_bind (parallel_report (.unexpected _ hname)) fun _ _ _ => parallel_pure .none)

theorem parallel_separator : P.Parallel Eq separator separator := by
  refine parallel_bind (parallel_accept _) ?_
  rintro b _ rfl
  refine parallel_ite (parallel_pure rfl) (parallel_bind parallel_peek fun t u h => ?_)
  rw [← P.kind_eq h]
  exact parallel_ite (parallel_report (.unexpected _ h)) (parallel_pure rfl)

theorem parallel_argument : P.Parallel P.Exprs argument argument :=
  parallel_bind parallel_value fun _ _ he => parallel_bind parallel_separator fun _ _ _ => parallel_pure he

theorem parallel_methodCall : P.Parallel P.Stmts methodCall methodCall :=
  parallel_bind parallel_peek fun _ _ hfirst => parallel_bind parallel_dottedName fun _ _ hname =>
    parallel_bind (parallel_expect _ _) fun _ _ _ => parallel_bind (parallel_repeatWhile parallel_argument) fun _ _ hes =>
      parallel_bind (parallel_expect _ _) fun _ _ _ => parallel_bind (parallel_expectSemicolon _ hfirst) fun _ _ _ =>
        parallel_pure (.methodCall hfirst hname hes)

theorem parallel_assignment : P.Parallel (Option.Rel P.Stmts) assignment assignment := by
  refine parallel_bind (parallel_expect _ _) fun _ _ hname => parallel_bind (parallel_accept _) ?_
  rintro b _ rfl
  refine parallel_ite (parallel_bind parallel_value fun _ _ he => parallel_bind (parallel_expectSemicolon _ hname)
    fun _ _ _ => parallel_pure (.some (.assignment hname he))) (parallel_bind (parallel_accept _) ?_)
  rintro b _ rfl
  refine parallel_ite (parallel_bind (parallel_expectSemicolon _ hname) fun _ _ _ =>
    parallel_pure (.some (.increment hname))) (parallel_bind (parallel_accept _) ?_)
  rintro b _ rfl
  exact parallel_ite (parallel_bind (parallel_expectSemicolon _ hname) fun _ _ _ =>
    parallel_pure (.some (.decrement hname)))
    (parallel_bind (parallel_report (.invalidAssignment hname)) fun _ _ _ => parallel_pure .none)

/-! ### Statements with statements in them -/

/-- What could be read as statements in both. -/
theorem bodies_reduceOption {found found' : List (Option Stmt)}
    (h : List.Forall₂ (Option.Rel P.Stmts) found found') : P.Bodies found.reduceOption found'.reduceOption := by
  induction h with
  | nil => exact ⟨[], rfl, rfl, fun _ hx => by cases hx⟩
  | cons h _ ih =>
    obtain ⟨body, hl, hr, hbody⟩ := ih
    cases h with
    | none => exact ⟨body, hl, hr, hbody⟩
    | @some st st' h =>
      exact ⟨(st, st') :: body, by simp [List.reduceOption_cons_of_some, hl],
        by simp [List.reduceOption_cons_of_some, hr], List.forall_mem_cons.mpr ⟨h, hbody⟩⟩

theorem exists_pair {st st' : Option Stmt} (h : Option.Rel P.Stmts st st') :
    ∃ x : Option (Stmt × Stmt), st = x.map Prod.fst ∧ st' = x.map Prod.snd ∧ ∀ y ∈ x, P.Stmts y.1 y.2 := by
  cases h with
  | none => exact ⟨none, rfl, rfl, fun _ hy => by cases hy⟩
  | @some st st' h => exact ⟨some (st, st'), rfl, rfl, fun _ hy => by cases hy; exact h⟩

section
variable {statement statement' : Parser (Option Stmt)} (h : P.Parallel (Option.Rel P.Stmts) statement statement')
include h

theorem parallel_statementsUntilBrace :
    P.Parallel P.Bodies (statementsUntilBrace statement) (statementsUntilBrace statement') :=
  parallel_bind (parallel_repeatWhile h) fun _ _ hl => parallel_pure (bodies_reduceOption hl)

variable {ms ms' : List Token} (hms : List.Forall₂ P.Rel ms ms')

include hms in
theorem parallel_classDecl : P.Parallel P.Stmts (classDecl statement ms) (classDecl statement' ms') := by
  refine parallel_bind (parallel_expect _ _) fun _ _ _ => parallel_bind (parallel_expect _ _) fun _ _ hname =>
    parallel_bind (parallel_expect _ _) fun _ _ _ => parallel_bind (parallel_statementsUntilBrace h) ?_
  rintro _ _ ⟨body, rfl, rfl, hbody⟩
  exact parallel_bind (parallel_expect _ _) fun _ _ _ => parallel_pure (.classDecl hname hms hbody)

include hms in
theorem parallel_methodDecl : P.Parallel P.Stmts (methodDecl statement ms) (methodDecl statement' ms') := by
  refine parallel_bind parallel_advance fun _ _ htype => parallel_bind (parallel_expect _ _) fun _ _ hname =>
    parallel_bind (parallel_expect _ _) fun _ _ _ => parallel_bind parallel_skipParameters fun _ _ _ =>
      parallel_bind (parallel_expect _ _) fun _ _ _ => parallel_bind (parallel_expect _ _) fun _ _ _ =>
        parallel_bind (parallel_statementsUntilBrace h) ?_
  rintro _ _ ⟨body, rfl, rfl, hbody⟩
  exact parallel_bind (parallel_expect _ _) fun _ _ _ => parallel_pure (.methodDecl hname htype hms hbody)

theorem parallel_whileLoop : P.Parallel P.Stmts (whileLoop statement) (whileLoop statement') := by
  refine parallel_bind (parallel_expect _ _) fun _ _ hkw => parallel_bind (parallel_expect _ _) fun _ _ _ =>
    parallel_bind parallel_condition fun _ _ he => parallel_bind (parallel_expect _ _) fun _ _ _ =>
      parallel_bind h fun _ _ hb => ?_
  obtain ⟨body, rfl, rfl, hbody⟩ := exists_pair hb
  exact parallel_pure (.whileLoop hkw he hbody)

theorem parallel_elseBranch : P.Parallel (Option.Rel P.Stmts) (elseBranch statement) (elseBranch statement') := by
  refine parallel_bind (parallel_accept _) ?_
  rintro b _ rfl
  exact parallel_ite h (parallel_pure .none)

theorem parallel_ifElse : P.Parallel P.Stmts (ifElse statement) (ifElse statement') := by
  refine parallel_bind (parallel_expect _ _) fun _ _ hkw => parallel_bind (parallel_expect _ _) fun _ _ _ =>
    parallel_bind parallel_condition fun _ _ he => parallel_bind (parallel_expect _ _) fun _ _ _ =>
      parallel_bind h fun _ _ ha => parallel_bind (parallel_elseBranch h) fun _ _ hb => ?_
  obtain ⟨a, rfl, rfl, hpositive⟩ := exists_pair ha
  obtain ⟨b, rfl, rfl, hnegative⟩ := exists_pair hb
  exact parallel_pure (.ifElse hkw he hpositive hnegative)

theorem parallel_block : P.Parallel P.Stmts (block statement) (block statement') := by
  refine parallel_bind (parallel_expect _ _) fun _ _ hl => parallel_bind (parallel_statementsUntilBrace h) ?_
  rintro _ _ ⟨body, rfl, rfl, hbody⟩
  exact parallel_bind (parallel_expect _ _) fun _ _ _ => parallel_pure (.block hl hbody)

include hms in
theorem parallel_afterModifiers :
    P.Parallel (Option.Rel P.Stmts) (afterModifiers statement ms) (afterModifiers statement' ms') := by
  refine parallel_bind parallel_peek fun t u ht => ?_
  rw [← P.kind_eq ht]
  refine parallel_ite (parallel_map (parallel_classDecl h hms) fun _ _ => .some) <| parallel_ite ?type <|
    parallel_ite (parallel_map (parallel_whileLoop h) fun _ _ => .some) <|
    parallel_ite (parallel_map (parallel_ifElse h) fun _ _ => .some) <| parallel_ite ?name <|
    parallel_ite (parallel_map (parallel_block h) fun _ _ => .some) <|
    parallel_bind (parallel_report (.unrecognizedStatement ht)) fun _ _ _ =>
      parallel_bind parallel_advance fun _ _ _ => parallel_pure .none
  case type =>
    refine parallel_bind (parallel_isLikelyMethod hms ht) ?_
    rintro b _ rfl
    exact parallel_ite (parallel_map (parallel_methodDecl h hms) fun _ _ => .some) parallel_declaration
  case name =>
    refine parallel_bind parallel_isMethodCall ?_
    rintro b _ rfl
    exact parallel_ite (parallel_map parallel_methodCall fun _ _ => .some) parallel_assignment

theorem parallel_statementRule :
    P.Parallel (Option.Rel P.Stmts) (statementRule statement) (statementRule statement') :=
  parallel_bind parallel_begin fun _ _ _ => parallel_bind (parallel_repeatWhile parallel_advance) fun _ _ hms =>
    parallel_afterModifiers h hms

end

theorem parallel_statement : P.Parallel (Option.Rel P.Stmts) statement statement :=
  parallel_fix fun _ _ => parallel_statementRule

/-- The statements up to the end of the input, whatever was parsed before them. -/
theorem parallel_statements : P.Parallel (List.Forall₂ (Option.Rel P.Stmts)) (repeatWhile (· != .eof) statement)
    (repeatWhile (· != .eof) statement) :=
  parallel_repeatWhile parallel_statement

theorem parallel_beginProgram : P.Parallel Eq beginProgram beginProgram := by
  intro c d hc
  unfold beginProgram
  rw [← P.interruption_eq]
  split
  · exact .stopped _ hc .nil
  · exact .done rfl hc .nil

/-- Parses of corresponding tokens come to programs that are built alike, or are broken off at corresponding places; and
    they find the same mistakes at corresponding tokens. -/
theorem parallel_program : P.Parallel P.Bodies program program :=
  parallel_bind parallel_beginProgram fun _ _ _ => parallel_bind parallel_statements fun _ _ hl =>
    parallel_pure (bodies_reduceOption hl)

end Parser

end Curly
