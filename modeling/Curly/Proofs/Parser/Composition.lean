import Curly.Proofs.Parser.Completeness
import Curly.Proofs.Parser.Kinds
import Curly.Proofs.Parser.Sentences

/-! Programs compose. Behind tokens of which nothing is reported, others are parsed as if they stood alone: their
    statements follow in the tree, and what is wrong with them is reported in the same way. Only an `else` would be taken
    by what stands before it. Main statement: `parse_append`. -/

namespace Curly

namespace Parser
variable {s : Setting}

/-- Statements are parsed alike wherever a parse of them begins that is not to be broken off. -/
theorem statements_again (hs : s.interruption = none) {tokens : List Token} {m : Nat} {l : List (Option Stmt)}
    {d : Cursor} {log : List Event} (s' : Setting) (hs' : s'.interruption = none) (n : Nat)
    (h : repeatWhile (· != .eof) statement s ⟨Token.close tokens, m⟩ = .done l d log) :
    ∃ e more, repeatWhile (· != .eof) statement s' ⟨Token.close tokens, n⟩ = .done l e more ∧
      log.filterMap Event.mistake? = more.filterMap Event.mistake? := by
  let P : Pairing :=
    { Rel := Eq
      kind_eq := congrArg Token.kind
      left := s
      right := s'
      interruption_eq := hs.trans hs'.symm
      leftRest := (Token.close tokens).drop (Token.input tokens).length
      rightRest := (Token.close tokens).drop (Token.input tokens).length }
  have hc : P.Cursors ⟨Token.close tokens, m⟩ ⟨Token.close tokens, n⟩ :=
    ⟨.close (List.forall₂_same.mpr fun _ _ => rfl) rfl rfl, fun hne => absurd hs hne⟩
  have ho := parallel_statements _ _ hc
  rw [show P.left = s from rfl, h] at ho
  have hP : ∀ t u, P.Rel t u → t = u := fun _ _ => id
  rw [show P.right = s' from rfl] at ho
  generalize repeatWhile (· != .eof) statement s' ⟨Token.close tokens, n⟩ = o at ho ⊢
  cases ho with
  | @done _ l' _ e _ more hl _ hlog =>
    have heq : List.Forall₂ Eq l l' := hl.imp fun _ _ hst => by
      cases hst with
      | none => rfl
      | some hst => rw [hst.eq hP]
    have hmistakes := (Pairing.mistakes_of_events hlog).imp fun _ _ => Pairing.Mistakes.eq hP
    rw [List.forall₂_eq_eq_eq] at heq hmistakes
    subst heq
    exact ⟨e, more, rfl, hmistakes⟩

end Parser

/-! ### Reports of two inputs, one behind the other -/

theorem close_append {tokens more : List Token} (h : more ≠ []) :
    Token.close (tokens ++ more) = tokens ++ Token.close more := by
  have hlast : (tokens ++ more).getLast? = more.getLast? := List.getLast?_append_of_ne_nil _ h
  unfold Token.close Token.addedEnd
  rw [hlast]
  split
  · rfl
  · rw [List.append_assoc]

theorem close_cons (t : Token) (rest : List Token) : ∃ ahead, Token.close (t :: rest) = t :: ahead := by
  unfold Token.close
  split
  · exact ⟨rest, rfl⟩
  · exact ⟨_, List.cons_append⟩

section
variable {tokens : List Token}

/-- What is reported of a parse that nobody breaks off. -/
theorem report_of_finds {found : List Mistake} {p : Program} {d : Cursor}
    (h : Parser.Finds (.ofTokens tokens none) Parser.program (.ofTokens tokens) found p d) :
    (Report.ofTokens tokens none).root = some p.toTree ∧ (Report.ofTokens tokens none).mistakes = found ∧
      (Report.ofTokens tokens none).errors = found.map Mistake.toDiagnostic := by
  obtain ⟨log, hp, rfl⟩ := h
  simp [Report.ofTokens, Report.ofOutcome, Report.root, Report.errors, Report.mistakes, Report.fatal, hp,
    Except.toOption, Outcome.log]

theorem report_of_statements {l : List (Option Stmt)} {d : Cursor} {log : List Event}
    (h : Parser.repeatWhile (· != .eof) Parser.statement (.ofTokens tokens none) (.ofTokens tokens) = .done l d log) :
    (Report.ofTokens tokens none).root = some (Program.toTree l.reduceOption) ∧
      (Report.ofTokens tokens none).errors = (log.filterMap Event.mistake?).map Mistake.toDiagnostic := by
  obtain ⟨hroot, -, herrors⟩ := report_of_finds ⟨log, Parser.program_done (s := .ofTokens tokens none) rfl h, rfl⟩
  exact ⟨hroot, herrors⟩

/-- What the tokens up to the first end of the input are read as is what they are parsed as. -/
theorem report_of_readsProgram {p : Program} (h : ReadsProgram (tokens.takeWhile (·.kind != .eof)) p) :
    (Report.ofTokens tokens none).root = some p.toTree ∧ (Report.ofTokens tokens none).diagnostics = [] := by
  obtain ⟨stop, rest, hstop, hclose⟩ := close_eq tokens
  obtain ⟨m, ha⟩ : ∃ m, Parser.Accepts (.ofTokens tokens none) Parser.program
      ⟨tokens.takeWhile (·.kind != .eof) ++ stop :: rest, 0⟩ p ⟨stop :: rest, m⟩ := Parser.accepts_program rfl h hstop
  rw [← hclose] at ha
  obtain ⟨hroot, -, herrors⟩ := report_of_finds (Parser.finds_nil.mpr ha)
  exact ⟨hroot, by rw [Report.diagnostics, herrors]; rfl⟩

/-- Nothing is reported of just those tokens that up to the first end of the input are read as a program. -/
theorem diagnostics_eq_nil_iff : (Report.ofTokens tokens none).diagnostics = [] ↔
    ∃ p, ReadsProgram (tokens.takeWhile (·.kind != .eof)) p := by
  constructor
  · intro h
    obtain ⟨p, d, ha⟩ := accepts_of_diagnostics_nil h
    exact ⟨p, reads_of_accepts ha⟩
  · rintro ⟨p, h⟩
    exact (report_of_readsProgram h).2

end

/-- A parse that nobody breaks off reads statements up to the end of the input. -/
theorem statements_ofTokens (tokens : List Token) : ∃ l d log,
    Parser.repeatWhile (· != .eof) Parser.statement (.ofTokens tokens none) (.ofTokens tokens) = .done l d log := by
  have hopen := open_ofTokens tokens
  have hyields : Parser.Yields (Parser.repeatWhile (· != .eof) Parser.statement) (.ofTokens tokens none)
      (.ofTokens tokens) fun _ _ _ => True :=
    (Parser.yields_repeatWhile rfl _ hopen fun d hd _ => Parser.yields_statement rfl d (hd.isOpen hopen)).mono
      fun _ _ _ _ => trivial
  obtain ⟨l, d, log, h, -⟩ := Parser.yields_iff.mp hyields
  exact ⟨l, d, log, h⟩

/-- Nothing is read of no tokens, and nothing reported. -/
theorem report_nil : (Report.ofTokens [] none).root = some (.node .program "" 0 []) ∧
    (Report.ofTokens [] none).errors = [] := by
  have hnil : Parser.Accepts (.ofTokens [] none) (Parser.repeatWhile (· != .eof) Parser.statement) (.ofTokens []) []
      (.ofTokens []) :=
    Parser.accepts_repeatWhile_nil.mpr ⟨.addedEnd [], [], rfl, rfl, rfl⟩
  obtain ⟨log, h, hlog⟩ := hnil
  have hreport := report_of_statements h
  rwa [flawless_iff.mp hlog] at hreport

/-- Tokens behind statements are parsed as if they stood alone. -/
theorem report_behind {body : List (List Token × Stmt)} (hreads : ∀ x ∈ body, ReadsStmt x.1 x.2) {t : Token}
    (ht : t.kind ≠ .kwElse) (rest : List Token) :
    ∃ p : Program, (Report.ofTokens (t :: rest) none).root = some p.toTree ∧
      (Report.ofTokens (body.flatMap Prod.fst ++ t :: rest) none).root = some (Program.toTree (body.map Prod.snd ++ p)) ∧
      (Report.ofTokens (body.flatMap Prod.fst ++ t :: rest) none).errors = (Report.ofTokens (t :: rest) none).errors := by
  let s : Setting := .ofTokens (body.flatMap Prod.fst ++ t :: rest) none
  obtain ⟨rest', hrest⟩ := close_cons t rest
  have hstart : Cursor.ofTokens (body.flatMap Prod.fst ++ t :: rest) = ⟨body.flatMap Prod.fst ++ t :: rest', 0⟩ := by
    rw [Cursor.ofTokens, close_append (List.cons_ne_nil t rest), hrest]
  -- The tokens are parsed alone, and behind the statements, where more statements have begun.
  obtain ⟨l, d, log, hl⟩ := statements_ofTokens (t :: rest)
  have hgo : ∀ k : TokenKind, k.beginsStatement → k != .eof := fun k hk => by simp [TokenKind.beginsStatement_ne hk]
  obtain ⟨m, hbehind⟩ := Parser.finds_statements_append (s := s) hgo hreads
    (fun x hx => Parser.completeStmt rfl (hreads x hx)) ht Parser.agree_self 0
  obtain ⟨e, log', hl', hsame⟩ := Parser.statements_again rfl s rfl m hl
  rw [hrest] at hl'
  obtain ⟨both, hboth, hmistakes⟩ := hbehind ⟨log', hl', rfl⟩
  rw [← hstart] at hboth
  obtain ⟨hroot, herrors⟩ := report_of_statements hl
  obtain ⟨hroot', herrors'⟩ := report_of_statements hboth
  refine ⟨l.reduceOption, hroot, ?_, ?_⟩
  · rw [hroot', List.reduceOption_append, Parser.reduceOption_map_some]
  · rw [herrors, herrors', hmistakes, hsame]

/-- If nothing is reported of the first tokens, and none of them is an end of the input, then all that is reported of
    them with others behind them is what is reported of these alone; and in the tree, the statements of the others follow
    those of the first. The others must not begin with an `else`. -/
theorem parse_append (tokens more : List Token) (htokens : ∀ t ∈ tokens, t.kind ≠ .eof)
    (hnil : (Report.ofTokens tokens none).diagnostics = []) (hmore : ∀ t ∈ more.head?, t.kind ≠ .kwElse) :
    ∃ ts us : List Tree, (Report.ofTokens tokens none).root = some (.node .program "" 0 ts) ∧
      (Report.ofTokens more none).root = some (.node .program "" 0 us) ∧
      (Report.ofTokens (tokens ++ more) none).root = some (.node .program "" 0 (ts ++ us)) ∧
      (Report.ofTokens (tokens ++ more) none).errors = (Report.ofTokens more none).errors := by
  obtain ⟨p, d, ha⟩ := accepts_of_diagnostics_nil hnil
  have hroot : (Report.ofTokens tokens none).root = some p.toTree := by
    obtain ⟨log, hp, -⟩ := ha
    simp [Report.ofTokens, Report.ofOutcome, Report.root, hp, Except.toOption]
  cases more with
  | nil =>
    obtain ⟨hnone, hclean⟩ := report_nil
    rw [List.append_nil, List.map_eq_nil_iff.mp hnil, hclean]
    exact ⟨Stmt.toTrees p, [], hroot, hnone, by rw [List.append_nil]; exact hroot, rfl⟩
  | cons t rest =>
    obtain ⟨body, hreads, hbody, rfl⟩ := reads_of_accepts ha
    have hall : tokens.takeWhile (·.kind != .eof) = tokens := List.takeWhile_eq_self_iff.mpr (by simpa using htokens)
    rw [hall] at hbody
    obtain ⟨q, hq, hboth, herrors⟩ := report_behind hreads (hmore t rfl) rest
    rw [← hbody] at hboth herrors
    refine ⟨Stmt.toTrees (body.map Prod.snd), Stmt.toTrees q, hroot, hq, ?_, herrors⟩
    rw [hboth, Program.toTree, Stmt.toTrees_eq, Stmt.toTrees_eq, Stmt.toTrees_eq, List.map_append]

/-- A conditional without `else` in front of a call that is not closed and a stray `else`. -/
theorem parse_append_conditional :
    let tokens := (Source.mk "x" "if (a) x++;").tokens.dropLast
    let more := (Source.mk "x" "f(1; else").tokens
    (∀ t ∈ tokens, t.kind ≠ .eof) ∧ (Report.ofTokens tokens none).diagnostics = [] ∧
      (∀ t ∈ more.head?, t.kind ≠ .kwElse) ∧
      ∃ ts us : List Tree, (Report.ofTokens tokens none).root = some (.node .program "" 0 ts) ∧
        (Report.ofTokens more none).root = some (.node .program "" 0 us) ∧
        (Report.ofTokens (tokens ++ more) none).root = some (.node .program "" 0 (ts ++ us)) ∧
        (Report.ofTokens (tokens ++ more) none).errors = (Report.ofTokens more none).errors := by
  intro tokens more
  have htokens : ∀ t ∈ tokens, t.kind ≠ .eof := by decide +kernel
  have hnil : (Report.ofTokens tokens none).diagnostics = [] := by decide +kernel
  have hmore : ∀ t ∈ more.head?, t.kind ≠ .kwElse := by decide +kernel
  exact ⟨htokens, hnil, hmore, parse_append tokens more htokens hnil hmore⟩

end Curly
