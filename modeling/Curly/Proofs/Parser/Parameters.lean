import Curly.Proofs.Parser.Composition
import Curly.Proofs.Parser.Steps

/-! Parameters have no influence. Whatever stands between the parentheses of a method, it is skipped up to the parenthesis
    that closes the first one; and what is parsed, what is found wrong and where the method ends is decided by the tokens
    around it alone. Main statement: `statement_parameters`. -/

namespace Curly

/-! ### Parentheses -/

namespace Grammar

/-- Where `depth` parentheses are open already. -/
theorem closes_iff {depth : Nat} {kinds : List TokenKind} : closes depth kinds ↔ .eof ∉ kinds ∧
    (∀ i, (kinds.take i).count .rightParen ≤ depth + (kinds.take i).count .leftParen) ∧
    kinds.count .rightParen = depth + kinds.count .leftParen := by
  induction kinds generalizing depth with
  | nil => cases depth <;> simp [closes]
  | cons kind kinds ih =>
    rw [← Nat.and_forall_add_one]
    unfold closes
    simp only [List.take_zero, List.count_nil, List.take_succ_cons, List.count_cons, List.mem_cons, not_or]
    by_cases heof : kind = .eof
    · simp [heof]
    by_cases hright : kind = .rightParen
    · cases depth with
      | zero =>
        -- The first parenthesis is closed before any is opened.
        simp only [hright]
        refine iff_of_false (by simp) ?_
        rintro ⟨-, ⟨-, hopened⟩, -⟩
        simpa using hopened 0
      | succ depth => simp [hright, ih, Nat.add_right_comm]
    · by_cases hleft : kind = .leftParen
      · simp [hleft, ih, Nat.add_right_comm, ← Nat.add_assoc]
      · simp [hright, hleft, heof, ih, eq_comm (a := TokenKind.eof)]

theorem closes_zero_iff {kinds : List TokenKind} : closes 0 kinds ↔ Balanced kinds := by
  simp only [closes_iff, Nat.zero_add]
  exact ⟨fun ⟨hend, hopened, hclosed⟩ => ⟨hend, hopened, hclosed⟩, fun h => ⟨h.noEnd, h.opened, h.closed⟩⟩

end Grammar

namespace Parser
variable {s : Setting} {c : Cursor} {n : Nat}

/-! ### Parsers that do the same -/

namespace Agree

theorem bind {α β : Type} {p q : Parser α} (h : Agree s n p q) (f : α → Parser β) :
    Agree s n (p >>= f) (q >>= f) := by
  intro c hc
  show (q s c).andThen _ = (p s c).andThen _
  rw [h c hc]

/-- A repetition goes on only where fewer tokens are ahead, so it needs the parsers to do the same only there. -/
theorem repeatWhile {α : Type} {p q : Parser α} (h : Agree s n p q) (go : TokenKind → Bool) :
    Agree s n (repeatWhile go p) (repeatWhile go q) := by
  have rule : ∀ (p : Parser α) (c : Cursor), Parser.repeatWhile go p s c = (peek >>= fun t =>
      if go t.kind then p >>= fun a => later c (Parser.repeatWhile go p) >>= fun l => pure (a :: l)
      else pure []) s c := fun p c => fix_eq _ s c
  intro c hc
  induction hn : c.ahead.length using Nat.strongRecOn generalizing c with
  | ind m ih =>
    rw [rule, rule]
    cases hahead : c.ahead with
    | nil =>
      show (peek s c).andThen _ = (peek s c).andThen _
      simp only [peek, hahead, Outcome.andThen]
    | cons t rest =>
      rw [peek_bind hahead, peek_bind hahead]
      by_cases hgo : go t.kind
      · rw [if_pos hgo, if_pos hgo]
        show (q s c).andThen _ = (p s c).andThen _
        rw [h c hc]
        cases p s c with
        | stopped => rfl
        | done a d log =>
          have hagain : later c (Parser.repeatWhile go q) s d = later c (Parser.repeatWhile go p) s d := by
            unfold later
            split
            · next hlt => exact ih _ (hn ▸ hlt) d (Nat.lt_trans hlt hc) rfl
            · rfl
          show Outcome.after log ((later c (Parser.repeatWhile go q) s d).andThen _) =
            Outcome.after log ((later c (Parser.repeatWhile go p) s d).andThen _)
          rw [hagain]
      · rw [if_neg hgo, if_neg hgo]

end Agree

/-! ### Behind the parameters -/

section
variable (ms : List Token) (type name : Token) (hc : c.Open)
include hc

theorem expect_eq_next (kind : TokenKind) (expectation : String) :
    ∃ log, expect kind expectation s c = .done (s.current c) c.next log := by
  have h : Yields (expect kind expectation) s c fun t d _ => t = s.current c ∧ d = c.next :=
    (yields_expect hc).mpr ⟨rfl, rfl⟩
  obtain ⟨t, d, log, h, rfl, rfl⟩ := yields_iff.mp h
  exact ⟨log, h⟩

theorem Agree.afterParameters {p q : Parser (Option Stmt)} (h : Agree s n p q) (hlt : c.ahead.length < n) :
    afterParameters q ms type name s c = afterParameters p ms type name s c := by
  obtain ⟨log, hparen⟩ := expect_eq_next (s := s) hc .rightParen "Expected ')' after method parameters"
  obtain ⟨log', hbrace⟩ := expect_eq_next (s := s) (open_next.mpr hc) .leftBrace "Expected '\x7b' to start method body"
  have hle : c.next.next.ahead.length ≤ c.ahead.length := ((Onward.next c).trans (.next _)).length_le
  unfold Parser.afterParameters
  rw [bind_of_done hparen, bind_of_done hbrace, bind_of_done hparen, bind_of_done hbrace]
  exact congrArg _ (congrArg _ (((h.repeatWhile _).bind _).bind _ _ (Nat.lt_of_le_of_lt hle hlt)))

/-- Behind its parameters, a method is parsed to its end. -/
theorem yields_afterParameters (hs : s.interruption = none) :
    Yields (afterParameters statement ms type name) s c fun st _ _ =>
      ∃ body, st = .methodDecl name.lexeme (.ofToken type) (ms.map Word.ofToken) body name.line := by
  unfold afterParameters
  simp only [yields_bind, yields_expect, open_next, hc, yields_pure]
  have hd : Advances c c.next.next := (Advances.next c).trans (.next _)
  refine (yields_statementsUntilBrace c hc (fun d hd _ => yields_statement hs d hd) hd).mono fun body e _ he => ?_
  rw [yields_expect (he.isOpen hc)]
  exact ⟨body, rfl⟩

end

end Parser

/-! ### Methods -/

/-- Tokens further back that are no ends of the input do not count for what stays the same during a parse. -/
theorem setting_between {before ps rest : List Token} (hps : ∀ t ∈ ps, t.kind ≠ .eof) (hrest : rest ≠ [])
    (interruption : Option Interruption) :
    Setting.ofTokens (before ++ (ps ++ rest)) interruption = .ofTokens (before ++ rest) interruption := by
  have hnone : ps.find? (·.kind == .eof) = none := by simpa using hps
  have hlast : (before ++ (ps ++ rest)).getLast? = (before ++ rest).getLast? := by
    rw [List.getLast?_append_of_ne_nil _ (by simp [hrest]), List.getLast?_append_of_ne_nil _ hrest,
      List.getLast?_append_of_ne_nil _ hrest]
  simp only [Setting.ofTokens, Token.addedEnd, hlast, List.find?_append, hnone, Option.none_or]

/-- Of the statement that begins with modifiers, a type, a name and a parenthesis, the parameters decide nothing. There is
    one method, one list of mistakes and one place such that a parse of the statement comes to that method, finds just
    these mistakes and ends at that place, whatever the parameters are, if only they close just the parentheses that they
    open. They are skipped up to the parenthesis behind them. -/
theorem statement_parameters (before rest : List Token) (begun : Nat) {ms : List Token} {type name l r : Token}
    (hms : Modifiers ms) (htype : type.kind.isType) (hname : name.kind = .identifier) (hl : l.kind = .leftParen)
    (hr : r.kind = .rightParen) : ∃ body found d, ∀ ps : List Token, Grammar.Balanced (ps.map Token.kind) →
      let head := before ++ (ms ++ [type, name, l])
      let tokens := head ++ (ps ++ r :: rest)
      Parser.Finds (.ofTokens tokens none) Parser.statement ⟨(Token.close tokens).drop before.length, begun⟩ found
        (some (.methodDecl name.lexeme (.ofToken type) (ms.map Word.ofToken) body name.line)) d ∧
      Parser.Accepts (.ofTokens tokens none) Parser.skipParameters ⟨(Token.close tokens).drop head.length, begun⟩ ()
        ⟨(Token.close tokens).drop (head ++ ps).length, begun⟩ := by
  let s : Setting := .ofTokens (before ++ (ms ++ [type, name, l]) ++ r :: rest) none
  obtain ⟨ahead, hahead⟩ := close_cons r rest
  have hopen : Cursor.Open ⟨r :: ahead, begun + 1⟩ := hahead ▸ open_ofTokens (r :: rest)
  obtain ⟨st, d, log, hlog, body, rfl⟩ := Parser.yields_iff.mp <|
    Parser.yields_afterParameters (s := s) ms type name hopen rfl
  refine ⟨body, log.filterMap Event.mistake?, d, ?_⟩
  intro ps hps head tokens
  have hs : Setting.ofTokens tokens none = s := by
    refine setting_between (fun t ht hk => hps.noEnd ?_) (List.cons_ne_nil _ _) none
    exact hk ▸ List.mem_map_of_mem ht
  have hclose : Token.close tokens = head ++ (ps ++ r :: ahead) := by
    rw [close_append (by simp), close_append (by simp), hahead]
  have hcloses : Grammar.closes 0 (ps.map Token.kind) := Grammar.closes_zero_iff.mpr hps
  rw [hs]
  constructor
  · have hstart : (Token.close tokens).drop before.length = ms ++ type :: name :: l :: (ps ++ r :: ahead) := by
      rw [hclose, List.append_assoc, List.drop_left, List.append_assoc]
      rfl
    rw [hstart]
    refine Parser.finds_statement rfl hms (Parser.isModifier_of_isType htype) ?_
    refine Parser.finds_parameters htype hname hl hcloses hr ⟨log, ?_, rfl⟩
    rw [Parser.agree_within.afterParameters ms type name hopen, hlog]
    simp only [List.length_append, List.length_cons]
    omega
  · have hskip : (Token.close tokens).drop head.length = ps ++ r :: ahead := by
      rw [hclose, List.drop_left]
    have hstop : (Token.close tokens).drop (head ++ ps).length = r :: ahead := by
      rw [hclose, ← List.append_assoc, List.drop_left]
    rw [hskip, hstop]
    exact Parser.accepts_skipParametersWithin hcloses hr

/-- A method without a body, behind a stray brace: with parentheses one behind the other among its parameters, and with
    none. -/
theorem statement_parameters_adjacent :
    let token (kind : TokenKind) : Token := ⟨kind, "t", "t", ⟨"x", 1, 1, 0⟩⟩
    let head := [.rightBrace, .kwStatic, .kwInt, .identifier, .leftParen].map token
    let ps := [.leftParen, .rightBrace, .leftParen, .rightParen, .rightParen, .error, .leftParen, .rightParen].map token
    let rest := [.rightParen, .semicolon].map token
    Modifiers [token .kwStatic] ∧ Grammar.Balanced (ps.map Token.kind) ∧ ∃ st found d,
      Parser.Finds (.ofTokens (head ++ (ps ++ rest)) none) Parser.statement
        ⟨(Token.close (head ++ (ps ++ rest))).drop 1, 0⟩ found (some st) d ∧
      Parser.Finds (.ofTokens (head ++ rest) none) Parser.statement ⟨(Token.close (head ++ rest)).drop 1, 0⟩ found
        (some st) d := by
  intro token head ps rest
  have hms : Modifiers [token .kwStatic] := List.forall_mem_singleton.mpr rfl
  have hps : Grammar.Balanced (ps.map Token.kind) := Grammar.closes_zero_iff.mp (by decide)
  have htype : (token .kwInt).kind.isType := rfl
  have hname : (token .identifier).kind = .identifier := rfl
  have hl : (token .leftParen).kind = .leftParen := rfl
  have hr : (token .rightParen).kind = .rightParen := rfl
  obtain ⟨body, found, d, h⟩ := statement_parameters [token .rightBrace] [token .semicolon] 0 hms htype hname hl hr
  exact ⟨hms, hps, _, found, d, (h ps hps).1, (h [] (Grammar.closes_zero_iff.mp rfl)).1⟩

end Curly
