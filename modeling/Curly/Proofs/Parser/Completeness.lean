import Curly.Proofs.Parser.Finds
import Curly.Proofs.Parser.Soundness

/-! What reads as a construct is accepted as that construct, if what follows it cannot be taken for a part of it. Main
    statements: `accepts_statement`, `accepts_program`. -/

namespace Curly

/-- Whether an expression of the level would go on with a token of this kind. -/
def Level.goesOn : Level → TokenKind → Bool
  | factor, k => k == .increment || k == .decrement
  | term, k => k == .increment || k == .decrement || k.isMultiplicative
  | expression, k => k == .increment || k == .decrement || k.isMultiplicative || k.isAdditive
  | condition, k =>
    k == .increment || k == .decrement || k.isMultiplicative || k.isAdditive || k.isComparison

/-- A token of a kind with which no expression of the level goes on does not go on with this one. -/
theorem not_continues_of {level : Level} {ts : List Token} {t : Token} (h : level.goesOn t.kind = false) :
    ¬level.Continues ts t := by
  cases level <;> simp_all [Level.goesOn, Level.Continues]

/-- An expression begins with a token with which an argument may begin. -/
theorem ReadsExpr.head {level : Level} {ts : List Token} {e : Expr} (h : ReadsExpr level ts e) :
    ∃ t rest, ts = t :: rest ∧ Parser.goesOnArguments t.kind := by
  induction h with
  | number h | identifier h | postIncrement h | postDecrement h | string h =>
    exact ⟨_, _, rfl, by rw [h]; rfl⟩
  | parenthesized hl => exact ⟨_, _, rfl, by rw [hl]; rfl⟩
  | ofFactor _ ih | ofTerm _ ih | ofExpression _ ih => exact ih
  | product _ _ _ ih | sum _ _ _ ih | comparison _ _ _ ih =>
    rcases ih with ⟨t, rest, rfl, ht⟩
    exact ⟨t, _, rfl, ht⟩

/-- Whether a statement may begin with a token of this kind. -/
def TokenKind.beginsStatement (k : TokenKind) : Bool :=
  k.isModifier || k == .kwClass || k.isType || k == .kwWhile || k == .kwIf || k == .leftBrace || k == .identifier

/-- What begins a statement neither ends a body nor goes on with a conditional. -/
theorem TokenKind.beginsStatement_ne {k : TokenKind} (h : k.beginsStatement) :
    k ≠ .eof ∧ k ≠ .rightBrace ∧ k ≠ .kwElse := by
  refine ⟨?_, ?_, ?_⟩
  all_goals
    rintro rfl
    cases h

theorem Modifiers.head {ms ts : List Token} (hms : Modifiers ms) {t : Token} (ht : t.kind.beginsStatement) :
    ∃ u us, ms ++ t :: ts = u :: us ∧ u.kind.beginsStatement := by
  cases ms with
  | nil => exact ⟨t, ts, rfl, ht⟩
  | cons m ms => exact ⟨m, ms ++ t :: ts, rfl, by simp [TokenKind.beginsStatement, hms m List.mem_cons_self]⟩

theorem DottedName.head {name : List Token} (h : DottedName name) : ∃ t ts, name = t :: ts ∧ t.kind = .identifier := by
  cases h with
  | single ht => exact ⟨_, _, rfl, ht⟩
  | cons ht => exact ⟨_, _, rfl, ht⟩

theorem ReadsStmt.head {ts : List Token} {st : Stmt} (h : ReadsStmt ts st) :
    ∃ t rest, ts = t :: rest ∧ t.kind.beginsStatement := by
  cases h with
  | classDecl hms h | whileLoop hms h | ifThen hms h | ifElse hms h | block hms h | assignment hms h
  | increment hms h | decrement hms h => exact hms.head (by simp [TokenKind.beginsStatement, h])
  | methodDecl hms h => exact hms.head (by simp [TokenKind.beginsStatement, h])
  | declaration h | initialized h => exact ⟨_, _, rfl, by simp [TokenKind.beginsStatement, h]⟩
  | methodCall hms h =>
    rcases h.head with ⟨t, us, rfl, ht⟩
    exact hms.head (by simp [TokenKind.beginsStatement, ht])

namespace Parser

variable {s : Setting}

/-! ### Expressions -/

/-- An operator and its right operand. -/
def operation (operand : Parser Expr) : Parser (String × Expr) := do
  let operator ← advance
  let right ← operand
  return (operator.lexeme, right)

/-- One more operation is taken in front of others. -/
theorem accepts_operation {isOperator : TokenKind → Bool} (heof : isOperator .eof = false) {operand : Parser Expr}
    {o : Token} {ts rest : List Token} {n : Nat} {f : Expr} {l : List (String × Expr)} {d : Cursor}
    (ho : isOperator o.kind) (h : Accepts s operand ⟨ts ++ rest, n⟩ f ⟨rest, n⟩)
    (hl : Accepts s (repeatWhile isOperator (operation operand)) ⟨rest, n⟩ l d) :
    Accepts s (repeatWhile isOperator (operation operand)) ⟨o :: (ts ++ rest), n⟩ ((o.lexeme, f) :: l) d := by
  have hne : o.kind ≠ .eof := by
    intro hk
    rw [hk, heof] at ho
    cases ho
  refine accepts_repeatWhile_cons.mpr ⟨o, _, rfl, ho, ⟨rest, n⟩, ?_, ?_, hl⟩
  · unfold operation
    rw [accepts_advance_bind_of rfl hne]
    exact accepts_bind.mpr ⟨f, _, h, accepts_pure.mpr ⟨rfl, rfl⟩⟩
  · simp only [List.length_cons, List.length_append]
    omega

theorem accepts_chain {isOperator : TokenKind → Bool} {operand : Parser Expr} {c c' d : Cursor} {e : Expr}
    {l : List (String × Expr)} (h : Accepts s operand c e c')
    (hl : Accepts s (repeatWhile isOperator (operation operand)) c' l d) :
    Accepts s (chain isOperator operand) c (e.chain l) d :=
  accepts_bind.mpr ⟨e, c', h, accepts_bind.mpr ⟨l, d, hl, accepts_pure.mpr ⟨rfl, rfl⟩⟩⟩

/-- What is accepted of the tokens of an expression. Of operands that are joined by operators, those that follow are
    accepted as well. -/
def Complete (s : Setting) : Level → List Token → Expr → Prop
  | .factor, ts, e => ∀ {t rest n q}, ¬Level.factor.Continues ts t →
      Agree s (ts ++ t :: rest).length condition q →
      Accepts s (factor q) ⟨ts ++ t :: rest, n⟩ e ⟨t :: rest, n⟩
  | .term, ts, e => ∀ {t rest n q l d}, ¬Level.factor.Continues ts t →
      Agree s (ts ++ t :: rest).length condition q →
      Accepts s (repeatWhile TokenKind.isMultiplicative (operation (factor q))) ⟨t :: rest, n⟩ l d →
      Accepts s (term q) ⟨ts ++ t :: rest, n⟩ (e.chain l) d
  | .expression, ts, e => ∀ {t rest n q l d}, ¬Level.term.Continues ts t →
      Agree s (ts ++ t :: rest).length condition q →
      Accepts s (repeatWhile TokenKind.isAdditive (operation (term q))) ⟨t :: rest, n⟩ l d →
      Accepts s (expression q) ⟨ts ++ t :: rest, n⟩ (e.chain l) d
  | .condition, ts, e => ∀ {t rest n}, Level.goesOn .condition t.kind = false →
      Accepts s condition ⟨ts ++ t :: rest, n⟩ e ⟨t :: rest, n⟩

theorem Complete.term {ts rest : List Token} {e : Expr} (h : Complete s .term ts e) {t : Token} {n : Nat}
    {q : Parser Expr} (ht : ¬Level.term.Continues ts t) (hq : Agree s (ts ++ t :: rest).length condition q) :
    Accepts s (Parser.term q) ⟨ts ++ t :: rest, n⟩ e ⟨t :: rest, n⟩ := by
  obtain ⟨ht, ho⟩ := not_or.mp ht
  exact h ht hq (accepts_repeatWhile_nil.mpr ⟨t, rest, rfl, Bool.eq_false_iff.mpr ho, rfl⟩)

theorem Complete.expression {ts rest : List Token} {e : Expr} (h : Complete s .expression ts e) {t : Token} {n : Nat}
    {q : Parser Expr} (ht : ¬Level.expression.Continues ts t)
    (hq : Agree s (ts ++ t :: rest).length condition q) :
    Accepts s (Parser.expression q) ⟨ts ++ t :: rest, n⟩ e ⟨t :: rest, n⟩ := by
  obtain ⟨ht, ho⟩ := not_or.mp fun h => ht (continues_expression.mpr h)
  exact h ht hq (accepts_repeatWhile_nil.mpr ⟨t, rest, rfl, Bool.eq_false_iff.mpr ho, rfl⟩)

theorem goesOn_of_isMultiplicative {k : TokenKind} (h : k.isMultiplicative) : Level.goesOn .factor k = false := by
  cases k <;> first | rfl | cases h

theorem goesOn_of_isAdditive {k : TokenKind} (h : k.isAdditive) : Level.goesOn .term k = false := by
  cases k <;> first | rfl | cases h

theorem goesOn_of_isComparison {k : TokenKind} (h : k.isComparison) : Level.goesOn .expression k = false := by
  cases k <;> first | rfl | cases h

theorem accepts_condition {c d : Cursor} {e : Expr} :
    Accepts s condition c e d ↔ Accepts s (conditionRule (later c condition)) c e d :=
  accepts_fix_iff

/-- What follows an operand is no longer than the whole. -/
theorem length_operand_le (ts us rest : List Token) {o t : Token} :
    (us ++ t :: rest).length ≤ (ts ++ o :: (us ++ t :: rest)).length := by
  simp only [List.length_append, List.length_cons]
  omega

/-- An expression that is not compared with another is a condition. -/
theorem accepts_condition_ofExpression {ts rest : List Token} {e : Expr} (h : Complete s .expression ts e) {t : Token}
    {n : Nat} (ht : ¬Level.expression.Continues ts t) (hk : t.kind.isComparison = false) :
    Accepts s condition ⟨ts ++ t :: rest, n⟩ e ⟨t :: rest, n⟩ := by
  rw [accepts_condition]
  unfold conditionRule
  refine accepts_bind.mpr ⟨e, _, h.expression ht (agree_later (Nat.le_refl _)), ?_⟩
  rw [accepts_peek_bind_of rfl, if_neg (by simp [hk]), accepts_pure]
  exact ⟨rfl, rfl⟩

/-- Behind the second of two expressions that are compared, it does not matter whether a comparison comes. -/
theorem accepts_condition_comparison {ts us rest : List Token} {o : Token} {e f : Expr} (h : Complete s .expression ts e)
    (ho : o.kind.isComparison) (h' : Complete s .expression us f) {t : Token} {n : Nat}
    (ht : ¬Level.expression.Continues us t) :
    Accepts s condition ⟨ts ++ o :: us ++ t :: rest, n⟩ (.comparison o.lexeme e f) ⟨t :: rest, n⟩ := by
  have hne : o.kind ≠ .eof := by
    intro hk
    rw [hk] at ho
    cases ho
  rw [List.append_assoc, List.cons_append, accepts_condition]
  unfold conditionRule
  refine accepts_bind.mpr
    ⟨e, _, h.expression (not_continues_of (goesOn_of_isComparison ho)) (agree_later (Nat.le_refl _)), ?_⟩
  rw [accepts_peek_bind_of rfl, if_pos ho, accepts_advance_bind_of rfl hne]
  exact accepts_bind.mpr ⟨f, ⟨t :: rest, n⟩, h'.expression ht (agree_later (length_operand_le ts us rest)),
    accepts_pure.mpr ⟨rfl, rfl⟩⟩

theorem complete {level : Level} {ts : List Token} {e : Expr} (h : ReadsExpr level ts e) : Complete s level ts e := by
  induction h with
  | number hk =>
    intro t rest n q _ _
    unfold factor
    rw [List.singleton_append, accepts_peek_bind_of rfl]
    simp only [hk]
    rw [accepts_advance_bind_of rfl (by simp [hk]), accepts_pure]
    exact ⟨rfl, rfl⟩
  | identifier hk =>
    intro t rest n q ht _
    obtain ⟨hinc, hdec⟩ := not_or.mp fun h => ht ⟨⟨_, rfl, hk⟩, h⟩
    unfold factor
    rw [List.singleton_append, accepts_peek_bind_of rfl]
    simp only [hk]
    rw [accepts_advance_bind_of rfl (by simp [hk]), accepts_accept_bind_other rfl hinc, if_neg (by simp),
      accepts_accept_bind_other rfl hdec, if_neg (by simp), accepts_pure]
    exact ⟨rfl, rfl⟩
  | postIncrement hk hu =>
    intro t rest n q _ _
    unfold factor
    rw [List.cons_append, accepts_peek_bind_of rfl]
    simp only [hk]
    rw [accepts_advance_bind_of rfl (by simp [hk]), accepts_accept_bind_of rfl hu (by simp), if_pos rfl, accepts_pure]
    exact ⟨rfl, rfl⟩
  | postDecrement hk hu =>
    intro t rest n q _ _
    unfold factor
    rw [List.cons_append, accepts_peek_bind_of rfl]
    simp only [hk]
    rw [accepts_advance_bind_of rfl (by simp [hk]), accepts_accept_bind_other rfl (by simp [hu]),
      if_neg (by simp), accepts_accept_bind_of rfl hu (by simp), if_pos rfl, accepts_pure]
    exact ⟨rfl, rfl⟩
  | string hk =>
    intro t rest n q _ _
    unfold factor
    rw [List.singleton_append, accepts_peek_bind_of rfl]
    simp only [hk]
    rw [accepts_advance_bind_of rfl (by simp [hk]), accepts_pure]
    exact ⟨rfl, rfl⟩
  | @parenthesized l r ts e hl _ hr ih =>
    intro t rest n q _ hq
    unfold factor
    rw [List.cons_append, accepts_peek_bind_of rfl]
    simp only [hl]
    rw [accepts_advance_bind_of rfl (by simp [hl]), List.append_assoc, List.singleton_append]
    refine accepts_bind.mpr ⟨e, ⟨r :: t :: rest, n⟩, hq.accepts (by simp) (ih (by simp [hr, Level.goesOn,
      TokenKind.isMultiplicative, TokenKind.isAdditive, TokenKind.isComparison])), ?_⟩
    rw [accepts_expect_bind_of rfl hr (by simp), accepts_pure]
    exact ⟨rfl, rfl⟩
  | ofFactor _ ih =>
    intro t rest n q l d ht hq hl
    exact accepts_chain (ih ht hq) hl
  | @product ts us o e f _ ho hf ihe ihf =>
    intro t rest n q l d ht hq hl
    rw [List.append_assoc, List.cons_append] at hq ⊢
    have ht' := fun h => ht ((continues_operand _ (by simp) hf).mpr h)
    have hop := accepts_operation rfl ho (ihf ht' (hq.mono (length_operand_le ts us rest))) hl
    exact ihe (not_continues_of (goesOn_of_isMultiplicative ho)) hq hop
  | ofTerm _ ih =>
    intro t rest n q l d ht hq hl
    exact accepts_chain (Complete.term ih ht hq) hl
  | @sum ts us o e f _ ho hf ihe ihf =>
    intro t rest n q l d ht hq hl
    rw [List.append_assoc, List.cons_append] at hq ⊢
    have ht' := fun h => ht ((continues_operand _ (by simp) hf).mpr h)
    have hop := accepts_operation rfl ho (Complete.term ihf ht' (hq.mono (length_operand_le ts us rest))) hl
    exact ihe (not_continues_of (goesOn_of_isAdditive ho)) hq hop
  | ofExpression _ ih =>
    intro t rest n ht
    obtain ⟨ht, hk⟩ := Bool.or_eq_false_iff.mp ht
    exact accepts_condition_ofExpression ih (not_continues_of ht) hk
  | comparison _ ho _ ihe ihf =>
    intro t rest n ht
    exact accepts_condition_comparison ihe ho ihf (not_continues_of (Bool.or_eq_false_iff.mp ht).1)

theorem accepts_value {ts rest : List Token} {e : Expr} (h : ReadsExpr .expression ts e) {t : Token} {n : Nat}
    (ht : Level.goesOn .expression t.kind = false) :
    Accepts s (expression condition) ⟨ts ++ t :: rest, n⟩ e ⟨t :: rest, n⟩ :=
  Complete.expression (complete h) (not_continues_of ht) agree_self

/-! ### Names, parameters and arguments -/

theorem accepts_modifiers {ms rest : List Token} (hms : Modifiers ms) {t : Token} {n : Nat}
    (ht : t.kind.isModifier = false) :
    Accepts s (repeatWhile TokenKind.isModifier advance) ⟨ms ++ t :: rest, n⟩ ms ⟨t :: rest, n⟩ := by
  induction ms with
  | nil => exact accepts_repeatWhile_nil.mpr ⟨t, rest, rfl, ht, rfl⟩
  | cons m ms ih =>
    rcases List.forall_mem_cons.mp hms with ⟨hm, hms'⟩
    have hne : m.kind ≠ .eof := by
      intro hk
      rw [hk] at hm
      cases hm
    refine accepts_repeatWhile_cons.mpr ⟨m, ms ++ t :: rest, rfl, hm, ⟨ms ++ t :: rest, n⟩, ?_, ?_, ih hms'⟩
    · exact accepts_advance.mpr ⟨_, rfl, (next_of_ahead (c := ⟨m :: ms ++ t :: rest, n⟩) rfl hne).symm⟩
    · exact Nat.lt_succ_self _

/-- An argument with the comma after it, or without one in front of a token with which no argument begins. -/
theorem accepts_argument {ts rest : List Token} {e : Expr} (h : ReadsExpr .expression ts e) {t : Token} {n : Nat}
    (ht : Level.goesOn .expression t.kind = false) {d : Cursor} (hd : Accepts s separator ⟨t :: rest, n⟩ () d) :
    Accepts s argument ⟨ts ++ t :: rest, n⟩ e d :=
  accepts_bind.mpr ⟨e, _, accepts_value h ht, accepts_bind.mpr ⟨(), d, hd, accepts_pure.mpr ⟨rfl, rfl⟩⟩⟩

theorem accepts_separator_comma {o : Token} {rest : List Token} {n : Nat} (ho : o.kind = .comma) :
    Accepts s separator ⟨o :: rest, n⟩ () ⟨rest, n⟩ := by
  unfold separator
  rw [accepts_accept_bind_of rfl ho (by simp), if_pos rfl, accepts_pure]
  exact ⟨rfl, rfl⟩

theorem accepts_separator_rightParen {r : Token} {rest : List Token} {n : Nat} (hr : r.kind = .rightParen) :
    Accepts s separator ⟨r :: rest, n⟩ () ⟨r :: rest, n⟩ := by
  unfold separator
  rw [accepts_accept_bind_other rfl (by simp [hr]), if_neg (by simp), accepts_peek_bind_of rfl,
    if_neg (by simp [hr, goesOnArguments, TokenKind.endsArguments]), accepts_pure]
  exact ⟨rfl, rfl⟩

theorem accepts_arguments {ts rest : List Token} {es : List Expr} (h : ReadsArguments ts es) {r : Token} {n : Nat}
    (hr : r.kind = .rightParen) :
    Accepts s (repeatWhile goesOnArguments argument) ⟨ts ++ r :: rest, n⟩ es ⟨r :: rest, n⟩ := by
  have hnil : Accepts s (repeatWhile goesOnArguments argument) ⟨r :: rest, n⟩ [] ⟨r :: rest, n⟩ :=
    accepts_repeatWhile_nil.mpr ⟨r, rest, rfl, by rw [hr]; rfl, rfl⟩
  induction h with
  | none => exact hnil
  | @last ts e h =>
    rcases h.head with ⟨t, us, rfl, ht⟩
    refine accepts_repeatWhile_cons.mpr ⟨t, _, rfl, ht, ⟨r :: rest, n⟩, ?_, ?_, hnil⟩
    · exact accepts_argument h (by rw [hr]; rfl) (accepts_separator_rightParen hr)
    · simp only [List.length_append, List.length_cons]
      omega
  | @cons ts us o e es h ho _ ih =>
    rcases h.head with ⟨t, vs, rfl, ht⟩
    refine accepts_repeatWhile_cons.mpr ⟨t, _, rfl, ht, ⟨us ++ r :: rest, n⟩, ?_, ?_, ih⟩
    · rw [List.append_assoc]
      exact accepts_argument h (by rw [ho]; rfl) (accepts_separator_comma ho)
    · simp only [List.length_append, List.length_cons]
      omega

/-- Parameters are skipped up to the parenthesis that closes them. -/
theorem accepts_skipParametersWithin {ps rest : List Token} {r : Token} {n depth : Nat}
    (hps : Grammar.closes depth (ps.map Token.kind)) (hr : r.kind = .rightParen) :
    Accepts s (skipParametersWithin depth) ⟨ps ++ r :: rest, n⟩ () ⟨r :: rest, n⟩ := by
  induction ps generalizing depth with
  | nil =>
    have hdepth : depth = 0 := by simpa [Grammar.closes] using hps
    subst hdepth
    unfold skipParametersWithin
    rw [List.nil_append, accepts_fixOver_iff, accepts_peek_bind_of rfl, if_neg (by simp [hr]), if_pos hr, accepts_pure]
    exact ⟨rfl, rfl⟩
  | cons p ps ih =>
    have again : ∀ depth', Grammar.closes depth' (ps.map Token.kind) →
        Accepts s (later ⟨p :: ps ++ r :: rest, n⟩ (skipParametersWithin depth')) ⟨ps ++ r :: rest, n⟩ ()
          ⟨r :: rest, n⟩ := by
      intro depth' h
      exact accepts_later.mpr ⟨Nat.lt_succ_self _, ih h⟩
    unfold skipParametersWithin
    rw [List.cons_append, accepts_fixOver_iff, accepts_peek_bind_of rfl]
    by_cases he : p.kind = .eof
    · simp [Grammar.closes, he] at hps
    rw [if_neg he]
    by_cases hp : p.kind = .rightParen
    · rw [if_pos hp]
      cases depth with
      | zero => simp [Grammar.closes, hp] at hps
      | succ depth =>
        rw [accepts_advance_bind_of rfl he]
        exact again depth (by simpa [Grammar.closes, hp] using hps)
    · rw [if_neg hp, accepts_advance_bind_of rfl he]
      exact again _ (by simpa [Grammar.closes, he, hp] using hps)

/-! ### Looking ahead -/

theorem isType_ne {k : TokenKind} (h : k.isType) : k ≠ .eof ∧ k ≠ .kwClass := by
  constructor
  all_goals
    rintro rfl
    cases h

/-- After the first name of a dotted one, the parenthesis is found. -/
theorem accepts_continuesCall_of {name : List Token} (hname : DottedName name) {l : Token} (rest : List Token) (n : Nat)
    (hl : l.kind = .leftParen) : ∃ t tail, name = t :: tail ∧ t.kind = .identifier ∧
      Accepts s continuesCall ⟨tail ++ l :: rest, n⟩ true ⟨l :: rest, n⟩ := by
  induction hname with
  | @single t ht =>
    refine ⟨t, [], rfl, ht, ?_⟩
    unfold continuesCall
    rw [List.nil_append, accepts_fix_iff, accepts_accept_bind_other rfl (by simp [hl]), if_neg (by simp)]
    unfold check
    rw [accepts_peek_bind_of rfl, accepts_pure]
    exact ⟨by simp [hl], rfl⟩
  | @cons t dot ts ht hdot _ ih =>
    rcases ih with ⟨u, tail, rfl, hu, ha⟩
    refine ⟨t, dot :: u :: tail, rfl, ht, ?_⟩
    unfold continuesCall
    rw [List.cons_append, List.cons_append, accepts_fix_iff, accepts_accept_bind_of rfl hdot (by simp), if_pos rfl,
      accepts_accept_bind_of rfl hu (by simp), if_pos rfl]
    refine accepts_later.mpr ⟨?_, ha⟩
    simp only [List.length_cons]
    omega

theorem accepts_isMethodCall_of {name rest : List Token} (hname : DottedName name) {l : Token} {n : Nat}
    (hl : l.kind = .leftParen) :
    Accepts s isMethodCall ⟨name ++ l :: rest, n⟩ true ⟨name ++ l :: rest, n⟩ := by
  rcases accepts_continuesCall_of (s := s) hname rest n hl with ⟨t, tail, rfl, ht, ha⟩
  refine accepts_speculate.mpr ⟨⟨l :: rest, n⟩, ?_, rfl⟩
  rw [List.cons_append, accepts_advance_bind_of rfl (by simp [ht])]
  exact ha

theorem accepts_isMethodCall_false {t u : Token} {rest : List Token} {n : Nat} (ht : t.kind = .identifier)
    (hdot : u.kind ≠ .dot) (hl : u.kind ≠ .leftParen) :
    Accepts s isMethodCall ⟨t :: u :: rest, n⟩ false ⟨t :: u :: rest, n⟩ := by
  refine accepts_speculate.mpr ⟨⟨u :: rest, n⟩, ?_, rfl⟩
  rw [accepts_advance_bind_of rfl (by simp [ht])]
  unfold continuesCall
  rw [accepts_fix_iff, accepts_accept_bind_other rfl hdot, if_neg (by simp)]
  unfold check
  rw [accepts_peek_bind_of rfl, accepts_pure]
  exact ⟨by simp [hl], rfl⟩

/-- A type begins a method just if modifiers go before it, it is `void`, or a parenthesis follows the name after it. -/
theorem accepts_isLikelyMethod_of {ms rest : List Token} {type name u : Token} {n : Nat} (htype : type.kind.isType)
    (hname : name.kind = .identifier) :
    Accepts s (isLikelyMethod ms type) ⟨type :: name :: u :: rest, n⟩
      (!ms.isEmpty || type.kind == .kwVoid || u.kind == .leftParen) ⟨type :: name :: u :: rest, n⟩ := by
  unfold isLikelyMethod
  rw [accepts_ite]
  split
  · next h =>
    rw [h, accepts_pure]
    exact ⟨rfl, rfl⟩
  · next h =>
    rw [Bool.eq_false_iff.mpr h, Bool.false_or]
    refine accepts_speculate.mpr ⟨⟨u :: rest, n⟩, ?_, rfl⟩
    rw [accepts_advance_bind_of rfl (isType_ne htype).1, accepts_accept_bind_of rfl hname (by simp), if_pos rfl]
    unfold check
    rw [accepts_peek_bind_of rfl, accepts_pure]
    exact ⟨rfl, rfl⟩

/-! ### Statements without statements in them -/

theorem accepts_begin_of (hs : s.interruption = none) {ahead : List Token} {n : Nat} :
    Accepts s begin ⟨ahead, n⟩ () ⟨ahead, n + 1⟩ := by
  refine ⟨[.began ahead.length], ?_, by simp [Flawless]⟩
  unfold begin
  rw [hs]

/-- A statement is read after its modifiers. -/
theorem finds_statement (hs : s.interruption = none) {ms ts : List Token} (hms : Modifiers ms) {t : Token}
    (ht : t.kind.isModifier = false) {n : Nat} {found : List Mistake} {st : Option Stmt} {d : Cursor}
    (h : Finds s (afterModifiers (later ⟨ms ++ t :: ts, n⟩ statement) ms) ⟨t :: ts, n + 1⟩ found st d) :
    Finds s statement ⟨ms ++ t :: ts, n⟩ found st d :=
  finds_fix (finds_bind_of (accepts_begin_of hs) (finds_bind_of (accepts_modifiers hms ht) h))

/-- Within a statement, statements are read where fewer tokens are ahead. -/
theorem agree_within {ms ts : List Token} {t : Token} {n : Nat} :
    Agree s (ts.length + 1) statement (later ⟨ms ++ t :: ts, n⟩ statement) := by
  refine agree_later ?_
  rw [List.length_append, List.length_cons]
  omega

/-- A statement is read after its modifiers, with any parser that does there what the parser of statements does. -/
theorem finds_statement_of (hs : s.interruption = none) {ms ts rest : List Token} (hms : Modifiers ms) {t : Token}
    (ht : t.kind.isModifier = false) {n : Nat} {found : List Mistake} {st : Option Stmt}
    (h : ∀ q, Agree s (ts.length + 1) statement q →
      ∃ m, Finds s (afterModifiers q ms) ⟨t :: ts, n + 1⟩ found st ⟨rest, m⟩) :
    ∃ m, Finds s statement ⟨ms ++ t :: ts, n⟩ found st ⟨rest, m⟩ := by
  rcases h _ agree_within with ⟨m, ha⟩
  exact ⟨m, finds_statement hs hms ht ha⟩

theorem accepts_statement_of (hs : s.interruption = none) {ms ts rest : List Token} (hms : Modifiers ms) {t : Token}
    (ht : t.kind.isModifier = false) {n : Nat} {st : Option Stmt}
    (h : ∀ q, Agree s (ts.length + 1) statement q →
      ∃ m, Finds s (afterModifiers q ms) ⟨t :: ts, n + 1⟩ [] st ⟨rest, m⟩) :
    ∃ m, Accepts s statement ⟨ms ++ t :: ts, n⟩ st ⟨rest, m⟩ := by
  rcases finds_statement_of hs hms ht h with ⟨m, hst⟩
  exact ⟨m, finds_nil.mp hst⟩

theorem accepts_endDeclaration_of {semi name : Token} {rest : List Token} {n : Nat} (h : semi.kind = .semicolon) :
    Accepts s (endDeclaration name) ⟨semi :: rest, n⟩ () ⟨rest, n⟩ := by
  unfold endDeclaration
  rw [accepts_accept_bind_of rfl h (by simp), if_pos rfl, accepts_pure]
  exact ⟨rfl, rfl⟩

theorem accepts_initializer_none {t : Token} {rest : List Token} {n : Nat} (ht : t.kind ≠ .assign) :
    Accepts s initializer ⟨t :: rest, n⟩ none ⟨t :: rest, n⟩ := by
  unfold initializer
  rw [accepts_accept_bind_other rfl ht, if_neg (by simp), accepts_pure]
  exact ⟨rfl, rfl⟩

theorem accepts_initializer_some {o t : Token} {ts rest : List Token} {n : Nat} {e : Expr} (ho : o.kind = .assign)
    (h : ReadsExpr .expression ts e) (ht : Level.goesOn .expression t.kind = false) :
    Accepts s initializer ⟨o :: (ts ++ t :: rest), n⟩ (some e) ⟨t :: rest, n⟩ := by
  unfold initializer
  rw [accepts_accept_bind_of rfl ho (by simp), if_pos rfl, accepts_map]
  exact ⟨e, accepts_value h ht, rfl⟩

section
variable {found : List Mistake} {d : Cursor} {n : Nat} {q : Parser (Option Stmt)}

/-- A declaration is read with whatever is accepted as the initial value, and ended as its end is. -/
theorem finds_declaration {type name : Token} {ts ahead : List Token} {e : Option Expr} {u : Token}
    (htype : type.kind.isType) (hvoid : type.kind ≠ .kwVoid) (hname : name.kind = .identifier)
    (hu : u.kind ≠ .leftParen) (h : Accepts s initializer ⟨u :: ts, n⟩ e ⟨ahead, n⟩)
    (hend : Finds s (endDeclaration name) ⟨ahead, n⟩ found () d) :
    Finds s (afterModifiers q []) ⟨type :: name :: u :: ts, n⟩ found
      (some (.declaration type.lexeme name.lexeme e type.line)) d := by
  unfold afterModifiers
  refine finds_bind_of (accepts_peek_of rfl) ?_
  rw [if_neg (by simpa using (isType_ne htype).2), if_pos htype]
  refine finds_bind_of (accepts_isLikelyMethod_of htype hname) ?_
  rw [if_neg (by simp [hvoid, hu])]
  unfold declaration
  refine finds_bind_of (accepts_advance_of rfl (isType_ne htype).1) (finds_bind_of (accepts_peek_of rfl) ?_)
  rw [if_pos (by simp [hname])]
  refine finds_bind_of (accepts_advance_of rfl (by simp [hname])) (finds_bind_of h ?_)
  exact finds_bind_pure hend

theorem finds_methodCall {name ts ahead ms : List Token} {l r : Token} {es : List Expr} (hname : DottedName name)
    (hl : l.kind = .leftParen) (h : ReadsArguments ts es) (hr : r.kind = .rightParen)
    (hend : ∀ first ∈ name.head?, Finds s (expectSemicolon "method call" first) ⟨ahead, n⟩ found () d) :
    Finds s (afterModifiers q ms) ⟨name ++ l :: (ts ++ r :: ahead), n⟩ found
      (some (.methodCall (String.join (name.map Token.lexeme)) es ((name.head?.map Token.line).getD 0))) d := by
  have hdotted : Accepts s dottedName ⟨name ++ l :: (ts ++ r :: ahead), n⟩ name ⟨l :: (ts ++ r :: ahead), n⟩ :=
    (accepts_dottedName hname hl rfl).mpr ⟨rfl, rfl⟩
  have hcall : Accepts s isMethodCall ⟨name ++ l :: (ts ++ r :: ahead), n⟩ true ⟨name ++ l :: (ts ++ r :: ahead), n⟩ :=
    accepts_isMethodCall_of hname hl
  rcases hname.head with ⟨t, us, rfl, ht⟩
  unfold afterModifiers
  rw [List.cons_append] at hcall hdotted ⊢
  refine finds_bind_of (accepts_peek_of rfl) ?_
  simp only [ht, TokenKind.isType, beq_iff_eq, reduceCtorEq, ↓reduceIte, Bool.false_eq_true]
  refine finds_bind_of hcall ?_
  rw [if_pos rfl]
  refine finds_map ?_
  unfold methodCall
  refine finds_bind_of (accepts_peek_of rfl) (finds_bind_of hdotted ?_)
  refine finds_bind_of (accepts_expect_of rfl hl (by simp)) (finds_bind_of (accepts_arguments h hr) ?_)
  exact finds_bind_of (accepts_expect_of rfl hr (by simp)) (finds_bind_pure (hend t rfl))

/-- A name begins an assignment if neither a dot nor a parenthesis follows it. -/
theorem finds_afterModifiers_assignment {name u : Token} {ts ms : List Token} {st : Option Stmt}
    (hname : name.kind = .identifier) (hdot : u.kind ≠ .dot) (hu : u.kind ≠ .leftParen)
    (h : Finds s assignment ⟨name :: u :: ts, n⟩ found st d) :
    Finds s (afterModifiers q ms) ⟨name :: u :: ts, n⟩ found st d := by
  unfold afterModifiers
  refine finds_bind_of (accepts_peek_of rfl) ?_
  simp only [hname, TokenKind.isType, beq_iff_eq, reduceCtorEq, ↓reduceIte, Bool.false_eq_true]
  exact finds_bind_of (accepts_isMethodCall_false hname hdot hu) h

section
variable {name o : Token} {ms : List Token} (hname : name.kind = .identifier)
include hname

theorem finds_assignment {t : Token} {ts rest : List Token} {e : Expr} (ho : o.kind = .assign)
    (h : ReadsExpr .expression ts e) (ht : Level.goesOn .expression t.kind = false)
    (hend : Finds s (expectSemicolon "assignment" name) ⟨t :: rest, n⟩ found () d) :
    Finds s (afterModifiers q ms) ⟨name :: o :: (ts ++ t :: rest), n⟩ found
      (some (.assignment name.lexeme e name.line)) d := by
  refine finds_afterModifiers_assignment hname (by simp [ho]) (by simp [ho]) ?_
  unfold assignment
  refine finds_bind_of (accepts_expect_of rfl hname (by simp)) ?_
  refine finds_bind_of (accepts_accept_of rfl ho (by simp)) ?_
  rw [if_pos rfl]
  exact finds_bind_of (accepts_value h ht) (finds_bind_pure hend)

theorem finds_increment {rest : List Token} (ho : o.kind = .increment)
    (hend : Finds s (expectSemicolon "increment" name) ⟨rest, n⟩ found () d) :
    Finds s (afterModifiers q ms) ⟨name :: o :: rest, n⟩ found (some (.increment name.lexeme name.line)) d := by
  refine finds_afterModifiers_assignment hname (by simp [ho]) (by simp [ho]) ?_
  unfold assignment
  refine finds_bind_of (accepts_expect_of rfl hname (by simp)) ?_
  refine finds_bind_of (accepts_accept_other rfl (by simp [ho])) ?_
  rw [if_neg (by simp)]
  refine finds_bind_of (accepts_accept_of rfl ho (by simp)) ?_
  rw [if_pos rfl]
  exact finds_bind_pure hend

theorem finds_decrement {rest : List Token} (ho : o.kind = .decrement)
    (hend : Finds s (expectSemicolon "decrement" name) ⟨rest, n⟩ found () d) :
    Finds s (afterModifiers q ms) ⟨name :: o :: rest, n⟩ found (some (.decrement name.lexeme name.line)) d := by
  refine finds_afterModifiers_assignment hname (by simp [ho]) (by simp [ho]) ?_
  unfold assignment
  refine finds_bind_of (accepts_expect_of rfl hname (by simp)) ?_
  refine finds_bind_of (accepts_accept_other rfl (by simp [ho])) ?_
  rw [if_neg (by simp)]
  refine finds_bind_of (accepts_accept_other rfl (by simp [ho])) ?_
  rw [if_neg (by simp)]
  refine finds_bind_of (accepts_accept_of rfl ho (by simp)) ?_
  rw [if_pos rfl]
  exact finds_bind_pure hend

end

/-! ### Statements with statements in them -/

theorem finds_statementsUntilBrace {c : Cursor} {l : List Stmt}
    (h : Finds s (repeatWhile (fun k => k != .eof && k != .rightBrace) q) c found (l.map some) d) :
    Finds s (statementsUntilBrace q) c found l d := by
  have hl : (l.map some).reduceOption = l.map id := reduceOption_map_some id l
  have hbody := finds_bind_pure (f := List.reduceOption) h
  rwa [hl, List.map_id] at hbody

/-- What comes after the parameters of a method. -/
def afterParameters (statement : Parser (Option Stmt)) (ms : List Token) (type name : Token) : Parser Stmt := do
  let _ ← expect .rightParen "Expected ')' after method parameters"
  let _ ← expect .leftBrace "Expected '\x7b' to start method body"
  let body ← statementsUntilBrace statement
  let _ ← expect .rightBrace "Expected '\x7d' to close method body"
  return .methodDecl name.lexeme (.ofToken type) (ms.map Word.ofToken) body name.line

/-- A method is read up to the end of its parameters, whatever comes after them. -/
theorem finds_parameters {ms ps ahead : List Token} {type name l r : Token} {st : Stmt} (htype : type.kind.isType)
    (hname : name.kind = .identifier) (hl : l.kind = .leftParen) (hps : Grammar.closes 0 (ps.map Token.kind))
    (hr : r.kind = .rightParen) (h : Finds s (afterParameters q ms type name) ⟨r :: ahead, n⟩ found st d) :
    Finds s (afterModifiers q ms) ⟨type :: name :: l :: (ps ++ r :: ahead), n⟩ found (some st) d := by
  unfold afterModifiers
  refine finds_bind_of (accepts_peek_of rfl) ?_
  rw [if_neg (by simpa using (isType_ne htype).2), if_pos htype]
  refine finds_bind_of (accepts_isLikelyMethod_of htype hname) ?_
  rw [if_pos (by simp [hl])]
  refine finds_map ?_
  unfold methodDecl
  refine finds_bind_of (accepts_advance_of rfl (isType_ne htype).1) ?_
  refine finds_bind_of (accepts_expect_of rfl hname (by simp)) ?_
  refine finds_bind_of (accepts_expect_of rfl hl (by simp)) ?_
  exact finds_bind_of (accepts_skipParametersWithin hps hr) h

section
variable {ahead rest : List Token} {l : List Stmt} {r : Token} {k : Nat} {ms : List Token}
  (hr : r.kind = .rightBrace) (h : Finds s (statementsUntilBrace q) ⟨ahead, n⟩ found l ⟨r :: rest, k⟩)
include hr h

theorem finds_classDecl {kw name lb : Token} (hkw : kw.kind = .kwClass) (hname : name.kind = .identifier)
    (hlb : lb.kind = .leftBrace) :
    Finds s (afterModifiers q ms) ⟨kw :: name :: lb :: ahead, n⟩ found
      (some (.classDecl name.lexeme (ms.map Word.ofToken) l name.line)) ⟨rest, k⟩ := by
  unfold afterModifiers
  refine finds_bind_of (accepts_peek_of rfl) ?_
  rw [if_pos (by simp [hkw])]
  refine finds_map ?_
  unfold classDecl
  refine finds_bind_of (accepts_expect_of rfl hkw (by simp)) ?_
  refine finds_bind_of (accepts_expect_of rfl hname (by simp)) ?_
  refine finds_bind_of (accepts_expect_of rfl hlb (by simp)) (finds_bind_accepts h ?_)
  rw [accepts_expect_bind_of rfl hr (by simp), accepts_pure]
  exact ⟨rfl, rfl⟩

theorem finds_methodDecl {ps : List Token} {type name lp rp lb : Token} (htype : type.kind.isType)
    (hname : name.kind = .identifier) (hlp : lp.kind = .leftParen) (hps : Grammar.closes 0 (ps.map Token.kind))
    (hrp : rp.kind = .rightParen) (hlb : lb.kind = .leftBrace) :
    Finds s (afterModifiers q ms) ⟨type :: name :: lp :: (ps ++ rp :: lb :: ahead), n⟩ found
      (some (.methodDecl name.lexeme (.ofToken type) (ms.map Word.ofToken) l name.line)) ⟨rest, k⟩ := by
  refine finds_parameters htype hname hlp hps hrp ?_
  refine finds_bind_of (accepts_expect_of rfl hrp (by simp)) ?_
  refine finds_bind_of (accepts_expect_of rfl hlb (by simp)) (finds_bind_accepts h ?_)
  rw [accepts_expect_bind_of rfl hr (by simp), accepts_pure]
  exact ⟨rfl, rfl⟩

theorem finds_block {lb : Token} (hlb : lb.kind = .leftBrace) :
    Finds s (afterModifiers q ms) ⟨lb :: ahead, n⟩ found (some (.block l lb.line)) ⟨rest, k⟩ := by
  unfold afterModifiers
  refine finds_bind_of (accepts_peek_of rfl) ?_
  simp only [hlb, TokenKind.isType, beq_iff_eq, reduceCtorEq, ↓reduceIte, Bool.false_eq_true]
  refine finds_map ?_
  unfold block
  refine finds_bind_of (accepts_expect_of rfl hlb (by simp)) (finds_bind_accepts h ?_)
  rw [accepts_expect_bind_of rfl hr (by simp), accepts_pure]
  exact ⟨rfl, rfl⟩

end

section
variable {ts ahead : List Token} {kw l r : Token} {e : Expr} {ms : List Token} (hl : l.kind = .leftParen)
  (he : ReadsExpr .condition ts e) (hr : r.kind = .rightParen)
include hl he hr

theorem finds_whileLoop (hkw : kw.kind = .kwWhile) {b : Option Stmt} (h : Finds s q ⟨ahead, n⟩ found b d) :
    Finds s (afterModifiers q ms) ⟨kw :: l :: (ts ++ r :: ahead), n⟩ found (some (.whileLoop e b kw.line)) d := by
  unfold afterModifiers
  refine finds_bind_of (accepts_peek_of rfl) ?_
  simp only [hkw, TokenKind.isType, beq_iff_eq, reduceCtorEq, ↓reduceIte, Bool.false_eq_true]
  refine finds_map ?_
  unfold whileLoop
  refine finds_bind_of (accepts_expect_of rfl hkw (by simp)) ?_
  refine finds_bind_of (accepts_expect_of rfl hl (by simp)) ?_
  refine finds_bind_of (complete he (by rw [hr]; rfl)) ?_
  exact finds_bind_of (accepts_expect_of rfl hr (by simp)) (finds_bind_pure h)

/-- The branch after `else` is given by what is found of it. -/
theorem finds_ifElse (hkw : kw.kind = .kwIf) {found' : List Mistake} {a b : Option Stmt} {c : Cursor}
    (ha : Finds s q ⟨ahead, n⟩ found a c) (hb : Finds s (elseBranch q) c found' b d) :
    Finds s (afterModifiers q ms) ⟨kw :: l :: (ts ++ r :: ahead), n⟩ (found ++ found')
      (some (.ifElse e a b kw.line)) d := by
  unfold afterModifiers
  refine finds_bind_of (accepts_peek_of rfl) ?_
  simp only [hkw, TokenKind.isType, beq_iff_eq, reduceCtorEq, ↓reduceIte, Bool.false_eq_true]
  refine finds_map ?_
  unfold ifElse
  refine finds_bind_of (accepts_expect_of rfl hkw (by simp)) ?_
  refine finds_bind_of (accepts_expect_of rfl hl (by simp)) ?_
  refine finds_bind_of (complete he (by rw [hr]; rfl)) ?_
  exact finds_bind_of (accepts_expect_of rfl hr (by simp)) (finds_bind ha (finds_bind_pure hb))

end

theorem accepts_elseBranch_none {t : Token} {rest : List Token} (ht : t.kind ≠ .kwElse) :
    Accepts s (elseBranch q) ⟨t :: rest, n⟩ none ⟨t :: rest, n⟩ := by
  unfold elseBranch
  rw [accepts_accept_bind_other rfl ht, if_neg (by simp), accepts_pure]
  exact ⟨rfl, rfl⟩

theorem finds_elseBranch {o : Token} {rest : List Token} {b : Option Stmt} (ho : o.kind = .kwElse)
    (h : Finds s q ⟨rest, n⟩ found b d) : Finds s (elseBranch q) ⟨o :: rest, n⟩ found b d := by
  refine finds_bind_of (accepts_accept_of rfl ho (by simp)) ?_
  rw [if_pos rfl]
  exact h

end

/-- The tokens are accepted as the statement, unless an `else` follows a conditional that could have it. -/
def CompleteStmt (s : Setting) (ts : List Token) (st : Stmt) : Prop :=
  ∀ t rest n, (st.endsOpen → t.kind ≠ .kwElse) → ∃ m, Accepts s statement ⟨ts ++ t :: rest, n⟩ (some st) ⟨t :: rest, m⟩

/-- What follows a statement in a row of them is no `else`: the next one does not begin with it. -/
theorem head_statements {body : List (List Token × Stmt)} (hreads : ∀ x ∈ body, ReadsStmt x.1 x.2) {r : Token}
    (helse : r.kind ≠ .kwElse) (rest : List Token) :
    ∃ t more, body.flatMap Prod.fst ++ r :: rest = t :: more ∧ t.kind ≠ .kwElse := by
  cases body with
  | nil => exact ⟨r, rest, rfl, helse⟩
  | cons x body =>
    rcases (hreads x List.mem_cons_self).head with ⟨t, ts, ht, hb⟩
    exact ⟨t, ts ++ (body.flatMap Prod.fst ++ r :: rest), by simp [ht], (TokenKind.beginsStatement_ne hb).2.2⟩

section
variable {go : TokenKind → Bool} (hgo : ∀ k : TokenKind, k.beginsStatement → go k) {body : List (List Token × Stmt)}
  (hreads : ∀ x ∈ body, ReadsStmt x.1 x.2) (h : ∀ x ∈ body, CompleteStmt s x.1 x.2) {q : Parser (Option Stmt)}
include hgo hreads h

/-- Behind statements that are accepted, those that follow are parsed as if parsing began there, except that more
    statements have begun. -/
theorem finds_statements_append {t : Token} (ht : t.kind ≠ .kwElse) {rest : List Token}
    (hq : Agree s ((body.flatMap Prod.fst ++ t :: rest).length + 1) statement q) (n : Nat) :
    ∃ m, ∀ {found l d}, Finds s (repeatWhile go q) ⟨t :: rest, m⟩ found l d →
      Finds s (repeatWhile go q) ⟨body.flatMap Prod.fst ++ t :: rest, n⟩ found (body.map (some ∘ Prod.snd) ++ l) d := by
  induction body generalizing n with
  | nil => exact ⟨n, fun hl => hl⟩
  | cons x body ih =>
    rcases List.forall_mem_cons.mp hreads with ⟨hx, hbody⟩
    rcases List.forall_mem_cons.mp h with ⟨hcx, hcbody⟩
    rcases head_statements hbody ht rest with ⟨v, more, hmore, hv⟩
    rcases hx.head with ⟨u, us, hu, hb⟩
    rw [List.flatMap_cons, List.append_assoc, hu] at hq ⊢
    rcases hcx v more n (fun _ => hv) with ⟨k, hst⟩
    rw [hu, ← hmore] at hst
    have hlt : (body.flatMap Prod.fst ++ t :: rest).length <
        (u :: us ++ (body.flatMap Prod.fst ++ t :: rest)).length := by
      simp only [List.cons_append, List.length_cons, List.length_append]
      omega
    rcases ih hbody hcbody (hq.mono (Nat.le_succ_of_le hlt)) k with ⟨m, hrest⟩
    refine ⟨m, fun hl => ?_⟩
    exact finds_repeatWhile_cons (hgo _ hb) (hq.finds (Nat.lt_succ_self _) (finds_nil.mpr hst)) hlt (hrest hl)

/-- Statements are accepted one after another, up to a token with which no statement begins. -/
theorem accepts_statements {r : Token} (hr : go r.kind = false) (helse : r.kind ≠ .kwElse) {rest : List Token}
    (hq : Agree s ((body.flatMap Prod.fst ++ r :: rest).length + 1) statement q) (n : Nat) :
    ∃ m, Accepts s (repeatWhile go q) ⟨body.flatMap Prod.fst ++ r :: rest, n⟩ (body.map (some ∘ Prod.snd))
      ⟨r :: rest, m⟩ := by
  rcases finds_statements_append hgo hreads h helse hq n with ⟨m, hall⟩
  have hnil : Accepts s (repeatWhile go q) ⟨r :: rest, m⟩ [] ⟨r :: rest, m⟩ :=
    accepts_repeatWhile_nil.mpr ⟨r, rest, rfl, hr, rfl⟩
  have hl := hall (finds_nil.mpr hnil)
  rw [List.append_nil] at hl
  exact ⟨m, finds_nil.mp hl⟩

end

/-- The statements of a body are accepted up to the closing brace. -/
theorem accepts_body {body : List (List Token × Stmt)} (hreads : ∀ x ∈ body, ReadsStmt x.1 x.2)
    (h : ∀ x ∈ body, CompleteStmt s x.1 x.2) {r : Token} (hr : r.kind = .rightBrace) (rest : List Token) {n N : Nat}
    {q : Parser (Option Stmt)} (hq : Agree s N statement q) (hN : (body.flatMap Prod.fst ++ r :: rest).length < N) :
    ∃ m, Finds s (statementsUntilBrace q) ⟨body.flatMap Prod.fst ++ r :: rest, n⟩ [] (body.map Prod.snd)
      ⟨r :: rest, m⟩ := by
  have hgo : ∀ k : TokenKind, k.beginsStatement → (k != .eof && k != .rightBrace) := by
    intro k hk
    simp [TokenKind.beginsStatement_ne hk]
  rcases accepts_statements hgo hreads h (by simp [hr]) (by simp [hr]) (hq.mono hN) n with ⟨m, hl⟩
  rw [← List.map_map] at hl
  exact ⟨m, finds_statementsUntilBrace (finds_nil.mpr hl)⟩

theorem isModifier_of_isType {k : TokenKind} (h : k.isType) : k.isModifier = false := by
  cases k <;> first | rfl | cases h

theorem completeStmt (hs : s.interruption = none) {ts : List Token} {st : Stmt} (h : ReadsStmt ts st) :
    CompleteStmt s ts st := by
  induction h with
  | @classDecl ms kw name l r body hms hkw hname hl hreads hr ih =>
    intro t rest n _
    simp only [List.append_assoc, List.cons_append, List.nil_append]
    refine accepts_statement_of hs hms (by rw [hkw]; rfl) fun q hq => ?_
    rcases accepts_body hreads ih hr (t :: rest) hq (by simp only [List.length_cons]; omega) with ⟨m, hb⟩
    exact ⟨m, finds_classDecl hr hb hkw hname hl⟩
  | @methodDecl ms ps type name l r lb rb body hms htype hname hl hps hr hlb hreads hrb ih =>
    intro t rest n _
    simp only [List.append_assoc, List.cons_append, List.nil_append]
    refine accepts_statement_of hs hms (isModifier_of_isType htype) fun q hq => ?_
    rcases accepts_body hreads ih hrb (t :: rest) hq
      (by simp only [List.length_append, List.length_cons]; omega) with ⟨m, hb⟩
    exact ⟨m, finds_methodDecl hrb hb htype hname hl hps hr hlb⟩
  | declaration htype hvoid hname hsemi =>
    intro t rest n _
    refine accepts_statement_of hs modifiers_nil (isModifier_of_isType htype) fun q _ => ⟨n + 1, ?_⟩
    exact finds_declaration htype hvoid hname (by simp [hsemi]) (accepts_initializer_none (by simp [hsemi]))
      (finds_nil.mpr (accepts_endDeclaration_of hsemi))
  | initialized htype hvoid hname ho h hsemi =>
    intro t rest n _
    simp only [List.append_assoc, List.cons_append, List.nil_append]
    refine accepts_statement_of hs modifiers_nil (isModifier_of_isType htype) fun q _ => ⟨n + 1, ?_⟩
    exact finds_declaration htype hvoid hname (by simp [ho]) (accepts_initializer_some ho h (by rw [hsemi]; rfl))
      (finds_nil.mpr (accepts_endDeclaration_of hsemi))
  | whileLoop hms hkw hl he hr _ ih =>
    intro t rest n ht
    simp only [List.append_assoc, List.cons_append]
    refine accepts_statement_of hs hms (by rw [hkw]; rfl) fun q hq => ?_
    rcases ih t rest (n + 1) (by simpa [Stmt.endsOpen, Stmt.endsOpenIn] using ht) with ⟨m, hb⟩
    refine ⟨m, finds_whileLoop hl he hr hkw (hq.finds ?_ (finds_nil.mpr hb))⟩
    simp only [List.length_append, List.length_cons]
    omega
  | ifThen hms hkw hl he hr _ ih =>
    intro t rest n ht
    have hne : t.kind ≠ .kwElse := ht rfl
    simp only [List.append_assoc, List.cons_append]
    refine accepts_statement_of hs hms (by rw [hkw]; rfl) fun q hq => ?_
    rcases ih t rest (n + 1) (fun _ => hne) with ⟨m, ha⟩
    refine ⟨m, finds_ifElse hl he hr hkw (hq.finds ?_ (finds_nil.mpr ha)) (finds_nil.mpr (accepts_elseBranch_none hne))⟩
    simp only [List.length_append, List.length_cons]
    omega
  | @ifElse ms ts us vs kw l r o e a b hms hkw hl he hr _ hopen ho _ iha ihb =>
    intro t rest n ht
    simp only [List.append_assoc, List.cons_append]
    refine accepts_statement_of hs hms (by rw [hkw]; rfl) fun q hq => ?_
    rcases iha o (vs ++ t :: rest) (n + 1) (fun h => by simp [hopen] at h) with ⟨m, ha⟩
    rcases ihb t rest m (by simpa [Stmt.endsOpen, Stmt.endsOpenIn] using ht) with ⟨k, hb⟩
    refine ⟨k, finds_ifElse hl he hr hkw (hq.finds ?_ (finds_nil.mpr ha))
      (finds_elseBranch ho (hq.finds ?_ (finds_nil.mpr hb)))⟩ <;>
    · simp only [List.length_append, List.length_cons]
      omega
  | block hms hl hreads hr ih =>
    intro t rest n _
    simp only [List.append_assoc, List.cons_append, List.nil_append]
    refine accepts_statement_of hs hms (by rw [hl]; rfl) fun q hq => ?_
    rcases accepts_body hreads ih hr (t :: rest) hq (Nat.lt_succ_self _) with ⟨m, hb⟩
    exact ⟨m, finds_block hr hb hl⟩
  | @methodCall ms name ts l r semi es hms hname hl h hr hsemi =>
    intro t rest n _
    rcases hname.head with ⟨u, us, hu, hk⟩
    have hcall : ∀ q, Finds s (afterModifiers q ms) ⟨name ++ l :: (ts ++ r :: semi :: t :: rest), n + 1⟩ [] _ _ :=
      fun _ => finds_methodCall hname hl h hr fun _ _ => finds_nil.mpr (accepts_expectSemicolon_of rfl hsemi)
    simp only [List.append_assoc, List.cons_append, List.nil_append]
    simp only [hu, List.cons_append] at hcall ⊢
    exact accepts_statement_of hs hms (by rw [hk]; rfl) fun q _ => ⟨n + 1, hcall q⟩
  | assignment hms hname ho h hsemi =>
    intro t rest n _
    simp only [List.append_assoc, List.cons_append, List.nil_append]
    refine accepts_statement_of hs hms (by rw [hname]; rfl) fun q _ => ⟨n + 1, ?_⟩
    exact finds_assignment hname ho h (by rw [hsemi]; rfl) (finds_nil.mpr (accepts_expectSemicolon_of rfl hsemi))
  | increment hms hname ho hsemi =>
    intro t rest n _
    simp only [List.append_assoc, List.cons_append, List.nil_append]
    refine accepts_statement_of hs hms (by rw [hname]; rfl) fun q _ => ⟨n + 1, ?_⟩
    exact finds_increment hname ho (finds_nil.mpr (accepts_expectSemicolon_of rfl hsemi))
  | decrement hms hname ho hsemi =>
    intro t rest n _
    simp only [List.append_assoc, List.cons_append, List.nil_append]
    refine accepts_statement_of hs hms (by rw [hname]; rfl) fun q _ => ⟨n + 1, ?_⟩
    exact finds_decrement hname ho (finds_nil.mpr (accepts_expectSemicolon_of rfl hsemi))

theorem program_done (hs : s.interruption = none) {c d : Cursor} {l : List (Option Stmt)} {log : List Event}
    (h : repeatWhile (· != .eof) statement s c = .done l d log) : program s c = .done l.reduceOption d log := by
  have hbegin : beginProgram s c = .done () c [] := by
    unfold beginProgram
    rw [hs]
  show (beginProgram s c).andThen (fun _ c => (repeatWhile (· != .eof) statement s c).andThen
    fun found d => .done found.reduceOption d []) = _
  simp only [hbegin, Outcome.andThen, h, Outcome.after, List.append_nil, List.nil_append]

theorem finds_program_of (hs : s.interruption = none) {c d : Cursor} {found : List Mistake} {l : List Stmt}
    (h : Finds s (repeatWhile (· != .eof) statement) c found (l.map some) d) : Finds s program c found l d := by
  rcases h with ⟨log, h, hfound⟩
  refine ⟨log, ?_, hfound⟩
  rw [program_done hs h, show (l.map some).reduceOption = l.map id from reduceOption_map_some id l, List.map_id]

/-- What reads as a program is accepted up to the end of the input. -/
theorem accepts_program (hs : s.interruption = none) {ts rest : List Token} {p : Program} (h : ReadsProgram ts p)
    {r : Token} (hr : r.kind = .eof) {n : Nat} : ∃ m, Accepts s program ⟨ts ++ r :: rest, n⟩ p ⟨r :: rest, m⟩ := by
  rcases h with ⟨body, hreads, rfl, rfl⟩
  have hgo : ∀ k : TokenKind, k.beginsStatement → k != .eof := by
    intro k hk
    simp [TokenKind.beginsStatement_ne hk]
  have hl : ∃ m, Accepts s (repeatWhile (· != .eof) statement) ⟨body.flatMap Prod.fst ++ r :: rest, n⟩
      (body.map (some ∘ Prod.snd)) ⟨r :: rest, m⟩ :=
    accepts_statements hgo hreads (fun x hx => completeStmt hs (hreads x hx)) (by simp [hr]) (by simp [hr]) agree_self n
  rcases hl with ⟨m, hl⟩
  rw [← List.map_map] at hl
  exact ⟨m, finds_nil.mp (finds_program_of hs (finds_nil.mpr hl))⟩

end Parser

end Curly
