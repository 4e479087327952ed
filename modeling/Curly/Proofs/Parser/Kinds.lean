import Curly.Proofs.Parser.Parallel
import Mathlib.Data.List.TakeWhile

/-! What a parse depends on. The kinds of the tokens up to the first end of the input decide the shape of the tree and
    where which mistakes are found; and these tokens themselves decide all the rest. Main statement: `parse_of_kinds`. -/

namespace Curly

/-! ### The tokens that matter -/

/-- The tokens that a parse can read: those before the first end of the input, and that end, which is added if there is
    none. -/
def Token.input (tokens : List Token) : List Token :=
  tokens.takeWhile (·.kind != .eof) ++ [(tokens.find? (·.kind == .eof)).getD (.addedEnd tokens)]

/-- The first tokens of the closed input are those that matter. -/
theorem close_begins (tokens : List Token) : Token.input tokens <+: Token.close tokens := by
  have hsplit := List.takeWhile_append_dropWhile (p := fun t : Token => t.kind != .eof) (l := tokens)
  have hfind : tokens.find? (·.kind == .eof) = (tokens.dropWhile (·.kind != .eof)).head? :=
    List.find?_eq_head?_dropWhile_not _ _
  unfold Token.input
  rw [hfind]
  cases hd : tokens.dropWhile (·.kind != .eof) with
  | cons stop rest =>
    rw [hd] at hsplit
    have hprefix : tokens.takeWhile (·.kind != .eof) ++ [stop] <+: tokens := ⟨rest, by simpa using hsplit⟩
    refine hprefix.trans ?_
    unfold Token.close
    split
    · exact List.prefix_refl _
    · exact List.prefix_append _ _
  | nil =>
    rw [hd, List.append_nil] at hsplit
    have hopen : tokens.getLast?.map Token.kind ≠ some .eof := by
      intro h
      obtain ⟨t, ht, hk⟩ := Option.map_eq_some_iff.mp h
      have := List.mem_takeWhile_imp (hsplit.symm ▸ List.mem_of_getLast? ht)
      simp [hk] at this
    rw [hsplit, Token.close, if_neg hopen]
    exact List.prefix_refl _

/-! ### What is built alike -/

namespace Pairing
variable {P : Pairing}

theorem Exprs.shape_eq {e e' : Expr} (h : P.Exprs e e') : e.toTree.shape = e'.toTree.shape := by
  induction h with
  | number | identifier | string | postIncrement | postDecrement | error => rfl
  | binary _ _ _ ihe ihf | comparison _ _ _ ihe ihf => simp only [Expr.toTree, Tree.shape, Tree.shapes, ihe, ihf]

theorem shapes_leaves {kind : NodeKind} {ms ms' : List Token} (h : List.Forall₂ P.Rel ms ms') :
    ((ms.map Word.ofToken).map (Word.toTree kind)).map Tree.shape =
      ((ms'.map Word.ofToken).map (Word.toTree kind)).map Tree.shape := by
  induction h with
  | nil => rfl
  | cons _ _ ih => exact congrArg₂ List.cons rfl ih

theorem shapes_body {body : List (Stmt × Stmt)} (h : ∀ x ∈ body, x.1.toTree.shape = x.2.toTree.shape) :
    (Stmt.toTrees (body.map Prod.fst)).map Tree.shape = (Stmt.toTrees (body.map Prod.snd)).map Tree.shape := by
  simp only [Stmt.toTrees_eq, List.map_map]
  exact List.map_congr_left h

theorem shapes_branch {kind : NodeKind} {branch : Option (Stmt × Stmt)}
    (h : ∀ x ∈ branch, x.1.toTree.shape = x.2.toTree.shape) :
    (Stmt.toBranch kind (branch.map Prod.fst)).map Tree.shape =
      (Stmt.toBranch kind (branch.map Prod.snd)).map Tree.shape := by
  cases branch with
  | none => rfl
  | some x => simp [Stmt.toBranch, Tree.shapes, Tree.label, Tree.shape, h x rfl]

theorem shapes_arguments {es es' : List Expr} (h : List.Forall₂ P.Exprs es es') :
    (es.map fun e => Tree.label .argument e.toTree).map Tree.shape =
      (es'.map fun e => Tree.label .argument e.toTree).map Tree.shape := by
  induction h with
  | nil => rfl
  | cons h _ ih => exact congrArg₂ List.cons (by simp only [Tree.label, Tree.shape, Tree.shapes, h.shape_eq]) ih

/-- Statements that are built alike have trees of one shape. -/
theorem Stmts.shape_eq {st st' : Stmt} (h : P.Stmts st st') : st.toTree.shape = st'.toTree.shape := by
  induction h with
  | classDecl _ hms _ ih =>
    simp only [Stmt.toTree, Tree.shape, Tree.shapes_eq, List.map_append, shapes_leaves hms, shapes_body ih]
  | methodDecl _ _ hms _ ih =>
    simp only [Stmt.toTree, Tree.shape, Tree.shapes_eq, List.map_append, List.cons_append, List.map_cons,
      shapes_leaves hms, shapes_body ih]
    rfl
  | declaration _ _ he =>
    cases he with
    | none => rfl
    | some he => simp [Stmt.toTree, Tree.shape, Tree.shapes, he.shape_eq]
  | whileLoop _ he _ ih =>
    simp only [Stmt.toTree, Tree.shape, Tree.shapes_eq, List.map_cons, Tree.label, List.map_nil, he.shape_eq,
      shapes_branch ih]
  | ifElse _ he _ _ iha ihb =>
    simp only [Stmt.toTree, Tree.shape, Tree.shapes_eq, List.map_cons, List.map_append, Tree.label, List.map_nil,
      he.shape_eq, shapes_branch iha, shapes_branch ihb]
  | block _ _ ih => simp only [Stmt.toTree, Tree.shape, Tree.shapes_eq, shapes_body ih]
  | methodCall _ _ hes => simp only [Stmt.toTree, Tree.shape, Tree.shapes_eq, shapes_arguments hes]
  | assignment _ he => simp only [Stmt.toTree, Tree.shape, Tree.shapes, he.shape_eq]
  | increment | decrement => rfl

/-! ### What is the same -/

section
variable (hP : ∀ t u, P.Rel t u → t = u)
include hP

theorem eq_of_forall₂ {ts us : List Token} (h : List.Forall₂ P.Rel ts us) : ts = us := by
  rw [← List.forall₂_eq_eq_eq]
  exact h.imp hP

theorem Mistakes.eq {m m' : Mistake} (h : P.Mistakes m m') : m = m' := by
  cases h with
  | missingSemicolon _ h h' =>
    cases h' with
    | none => rw [hP _ _ h]
    | some h' => rw [hP _ _ h, hP _ _ h']
  | unexpected _ h | unrecognizedStatement h | invalidExpression h | invalidAssignment h => rw [hP _ _ h]

theorem Exprs.eq {e e' : Expr} (h : P.Exprs e e') : e = e' := by
  induction h with
  | number h | identifier h | string h | postIncrement h | postDecrement h | error h => rw [hP _ _ h]
  | binary h _ _ ihe ihf | comparison h _ _ ihe ihf => rw [hP _ _ h, ihe, ihf]

theorem Stmts.eq {st st' : Stmt} (h : P.Stmts st st') : st = st' := by
  have body : ∀ {l : List (Stmt × Stmt)}, (∀ x ∈ l, x.1 = x.2) → l.map Prod.fst = l.map Prod.snd := List.map_congr_left
  have branch : ∀ {b : Option (Stmt × Stmt)}, (∀ x ∈ b, x.1 = x.2) → b.map Prod.fst = b.map Prod.snd :=
    fun h => Option.map_congr h
  induction h with
  | classDecl hname hms _ ih => rw [hP _ _ hname, eq_of_forall₂ hP hms, body ih]
  | methodDecl hname htype hms _ ih => rw [hP _ _ hname, hP _ _ htype, eq_of_forall₂ hP hms, body ih]
  | declaration htype hname he =>
    cases he with
    | none => rw [hP _ _ hname, hP _ _ htype]
    | some he => rw [hP _ _ hname, hP _ _ htype, he.eq hP]
  | whileLoop hkw he _ ih => rw [hP _ _ hkw, he.eq hP, branch ih]
  | ifElse hkw he _ _ iha ihb => rw [hP _ _ hkw, he.eq hP, branch iha, branch ihb]
  | block hl _ ih => rw [hP _ _ hl, body ih]
  | methodCall hfirst hname hes =>
    have hes' := hes.imp fun _ _ => Exprs.eq hP
    rw [List.forall₂_eq_eq_eq] at hes'
    rw [hP _ _ hfirst, eq_of_forall₂ hP hname, hes']
  | assignment hname he => rw [hP _ _ hname, he.eq hP]
  | increment hname | decrement hname => rw [hP _ _ hname]

end

/-! ### What is reported -/

/-- Diagnostics with one code, cited at corresponding tokens. -/
def Diagnostics (P : Pairing) (d e : Diagnostic) : Prop :=
  d.code = e.code ∧ ∃ t u, P.Rel t u ∧ d.location = t.location ∧ e.location = u.location

theorem Mistakes.diagnostics {m m' : Mistake} (h : P.Mistakes m m') : P.Diagnostics m.toDiagnostic m'.toDiagnostic := by
  cases h <;> exact ⟨rfl, _, _, ‹P.Rel _ _›, rfl, rfl⟩

theorem mistakes_of_events {log log' : List Event} (h : List.Forall₂ P.Events log log') :
    List.Forall₂ P.Mistakes (log.filterMap Event.mistake?) (log'.filterMap Event.mistake?) := by
  refine List.rel_filterMap (fun e e' he => ?_) h
  cases he with
  | found h => exact .some h
  | began | read | resumed => exact .none

theorem diagnostics_of_events {log log' : List Event} (h : List.Forall₂ P.Events log log') :
    List.Forall₂ P.Diagnostics ((log.filterMap Event.mistake?).map Mistake.toDiagnostic)
      ((log'.filterMap Event.mistake?).map Mistake.toDiagnostic) := by
  rw [List.forall₂_map_left_iff, List.forall₂_map_right_iff]
  exact (mistakes_of_events h).imp fun _ _ => Mistakes.diagnostics

theorem Cursors.current {c d : Cursor} (h : P.Cursors c d) : P.Rel (P.left.current c) (P.right.current d) := by
  obtain ⟨t, u, ts, us, ht, hu, htu, -⟩ := h.ahead.head
  simpa [Setting.current, ht, hu] using htu

section
variable {o o' : Outcome Program} (h : P.Outcomes P.Bodies o o') (c d : Cursor)
include h

theorem root_shape : (Report.ofOutcome P.left c o).root.map Tree.shape =
    (Report.ofOutcome P.right d o').root.map Tree.shape := by
  cases h with
  | stopped => rfl
  | done h =>
    obtain ⟨body, rfl, rfl, hbody⟩ := h
    have hshapes := shapes_body fun x hx => (hbody x hx).shape_eq
    simp [Report.root, Report.ofOutcome, Except.toOption, Program.toTree, Tree.shape, Tree.shapes_eq, hshapes]

theorem errors_correspond : List.Forall₂ P.Diagnostics (Report.ofOutcome P.left c o).errors
    (Report.ofOutcome P.right d o').errors := by
  cases h with
  | done _ _ hl => exact List.rel_append (diagnostics_of_events hl) .nil
  | stopped stop hc hl =>
    exact List.rel_append (diagnostics_of_events hl) (.cons ⟨rfl, _, _, hc.current, rfl, rfl⟩ .nil)

/-- If what corresponds is the same, then so are the reports. -/
theorem report_eq (hP : ∀ t u, P.Rel t u → t = u) :
    (Report.ofOutcome P.left c o).root = (Report.ofOutcome P.right d o').root ∧
      (Report.ofOutcome P.left c o).errors = (Report.ofOutcome P.right d o').errors ∧
      (Report.ofOutcome P.left c o).fatal = (Report.ofOutcome P.right d o').fatal := by
  have hmistakes : ∀ {log log'}, List.Forall₂ P.Events log log' →
      log.filterMap Event.mistake? = log'.filterMap Event.mistake? := by
    intro log log' hl
    rw [← List.forall₂_eq_eq_eq]
    exact (mistakes_of_events hl).imp fun _ _ => Mistakes.eq hP
  cases h with
  | done h hc hl =>
    obtain ⟨body, rfl, rfl, hbody⟩ := h
    have hp : body.map Prod.fst = body.map Prod.snd := List.map_congr_left fun x hx => (hbody x hx).eq hP
    simp only [Report.ofOutcome, Report.root, Report.errors, Report.mistakes, Report.fatal, Outcome.log, hp,
      hmistakes hl, and_self]
  | stopped stop hc hl =>
    simp only [Report.ofOutcome, Report.root, Report.errors, Report.mistakes, Report.fatal, Outcome.log,
      hP _ _ hc.current, hmistakes hl, and_self]

end

/-- Tokens that correspond one by one, up to the first end of the input. -/
theorem Ahead.of_forall₂ {ts us : List Token} {stop stop' : Token}
    (h : List.Forall₂ P.Rel (ts ++ [stop]) (us ++ [stop'])) (hts : ∀ t ∈ ts, t.kind ≠ .eof) (hstop : stop.kind = .eof) :
    P.Ahead (ts ++ [stop] ++ P.leftRest) (us ++ [stop'] ++ P.rightRest) := by
  induction ts generalizing us with
  | nil =>
    cases us with
    | nil =>
      cases h with
      | cons h _ => exact .stop h hstop
    | cons u us =>
      cases h with
      | cons _ h => cases us <;> cases h
  | cons t ts ih =>
    cases us with
    | nil =>
      cases h with
      | cons _ h => cases ts <;> cases h
    | cons u us =>
      cases h with
      | cons htu h =>
        exact .cons htu (hts t List.mem_cons_self) (ih h fun t ht => hts t (List.mem_cons_of_mem _ ht))

/-- The same for the whole input of two parses. -/
theorem Ahead.close {tokens tokens' : List Token} (h : List.Forall₂ P.Rel (Token.input tokens) (Token.input tokens'))
    (hl : P.leftRest = (Token.close tokens).drop (Token.input tokens).length)
    (hr : P.rightRest = (Token.close tokens').drop (Token.input tokens').length) :
    P.Ahead (Token.close tokens) (Token.close tokens') := by
  have hbefore : ∀ t ∈ tokens.takeWhile (·.kind != .eof), t.kind ≠ .eof := fun t ht => by
    simpa using List.mem_takeWhile_imp ht
  have hstop : ((tokens.find? (·.kind == .eof)).getD (.addedEnd tokens)).kind = .eof := by
    cases hf : tokens.find? (·.kind == .eof) with
    | none => rfl
    | some t => simpa using List.find?_some hf
  rw [← List.prefix_iff_eq_append.mp (close_begins tokens), ← List.prefix_iff_eq_append.mp (close_begins tokens'),
    ← hl, ← hr]
  exact .of_forall₂ h hbefore hstop

/-- Two inputs of the same kinds of tokens. Those at the same index correspond. -/
def ofInputs (tokens tokens' : List Token) (interruption : Option Interruption)
    (h : (Token.input tokens).map Token.kind = (Token.input tokens').map Token.kind) : Pairing where
  Rel t t' := ∃ n : Nat, (Token.input tokens)[n]? = some t ∧ (Token.input tokens')[n]? = some t'
  kind_eq := by
    rintro t t' ⟨n, ht, ht'⟩
    have hn := congrArg (fun kinds : List TokenKind => kinds[n]?) h
    simpa only [List.getElem?_map, ht, ht', Option.map_some, Option.some.injEq] using hn
  left := .ofTokens tokens interruption
  right := .ofTokens tokens' interruption
  interruption_eq := rfl
  leftRest := (Token.close tokens).drop (Token.input tokens).length
  rightRest := (Token.close tokens').drop (Token.input tokens').length

theorem cursors_ofInputs {tokens tokens' : List Token} (interruption : Option Interruption)
    (h : (Token.input tokens).map Token.kind = (Token.input tokens').map Token.kind) :
    (ofInputs tokens tokens' interruption h).Cursors (.ofTokens tokens) (.ofTokens tokens') := by
  have hlen : (Token.input tokens).length = (Token.input tokens').length := by
    simpa only [List.length_map] using congrArg List.length h
  refine ⟨.close (List.forall₂_iff_get.mpr ⟨hlen, fun n hn hn' => ?_⟩) rfl rfl, fun _ => rfl⟩
  exact ⟨n, List.getElem?_eq_getElem hn, List.getElem?_eq_getElem hn'⟩

end Pairing

/-- Diagnostics with one code, cited at tokens of the same index. -/
def Diagnostic.SameIndex (tokens tokens' : List Token) (d d' : Diagnostic) : Prop :=
  d.code = d'.code ∧ ∃ (n : Nat) (t t' : Token), (Token.input tokens)[n]? = some t ∧
    (Token.input tokens')[n]? = some t' ∧ d.location = t.location ∧ d'.location = t'.location

/-- The kinds of the tokens up to the first end of the input decide the shape of the tree, which mistakes are found in
    which order, and at which index each is cited. All the rest is decided by these tokens. -/
theorem parse_of_kinds (tokens tokens' : List Token) (interruption : Option Interruption)
    (h : (Token.input tokens).map Token.kind = (Token.input tokens').map Token.kind) :
    let r := Report.ofTokens tokens interruption
    let r' := Report.ofTokens tokens' interruption
    r.root.map Tree.shape = r'.root.map Tree.shape ∧
      List.Forall₂ (Diagnostic.SameIndex tokens tokens') r.errors r'.errors ∧
      (Token.input tokens = Token.input tokens' → r.root = r'.root ∧ r.errors = r'.errors ∧ r.fatal = r'.fatal) := by
  have ho := Parser.parallel_program _ _ (Pairing.cursors_ofInputs interruption h)
  refine ⟨Pairing.root_shape ho _ _, ?_, fun heq => ?_⟩
  · refine (Pairing.errors_correspond ho _ _).imp ?_
    rintro d d' ⟨hcode, t, t', ⟨n, ht, ht'⟩, hd, hd'⟩
    exact ⟨hcode, n, t, t', ht, ht', hd, hd'⟩
  · refine Pairing.report_eq ho _ _ ?_
    rintro t t' ⟨n, ht, ht'⟩
    rw [heq] at ht
    exact Option.some.inj (ht.symm.trans ht')

/-- Other names and another layout leave shape and mistakes as they are, and a token after the end changes nothing. -/
theorem parse_of_kinds_renamed :
    let tokens := (Source.mk "x" "int n = (1; g(a b").tokens
    let renamed := (Source.mk "y" "int count =\n  (22;\n go(left right").tokens
    let longer := tokens ++ [⟨.identifier, "z", "z", ⟨"x", 2, 1, 18⟩⟩]
    let r := Report.ofTokens tokens none
    ((Token.input tokens).map Token.kind = (Token.input renamed).map Token.kind ∧
      r.root.map Tree.shape = (Report.ofTokens renamed none).root.map Tree.shape ∧
      List.Forall₂ (Diagnostic.SameIndex tokens renamed) r.errors (Report.ofTokens renamed none).errors) ∧
    Token.input tokens = Token.input longer ∧ r.root = (Report.ofTokens longer none).root ∧
      r.errors = (Report.ofTokens longer none).errors := by
  intro tokens renamed longer r
  have hkinds : (Token.input tokens).map Token.kind = (Token.input renamed).map Token.kind := by decide +kernel
  have hinput : Token.input tokens = Token.input longer := by decide +kernel
  obtain ⟨hshape, herrors, -⟩ := parse_of_kinds tokens renamed none hkinds
  obtain ⟨hroot, hsame, -⟩ := (parse_of_kinds tokens longer none (congrArg _ hinput)).2.2 hinput
  exact ⟨⟨hkinds, hshape, herrors⟩, hinput, hroot, hsame⟩

end Curly
