import Curly.Proofs.Parser.Completeness
import Curly.Proofs.Parser.Totality
import Curly.Proofs.Syntax.Grammar

/-! Conditions are parsed exactly. Where nothing is reported, the tokens that were taken are the longest condition of the
    grammar with which the tokens ahead begin; it can be read in one way only, and so it was read. Main statement:
    `condition_exact`. -/

namespace Curly
open Grammar

namespace Parser
variable {s : Setting} {c d : Cursor} {ts us : List Token} {e f : Expr} {t : Token}

/-! ### One reading

Two readings of the same tokens would be accepted of the same tokens. So it is enough to let an end of the input follow. -/

/-- An expression is not two expressions with a comparison between them. -/
theorem not_compares (h : ReadsExpr .expression ts e) : ¬Compares ts := by
  rintro ⟨us, o, vs, f, g, rfl, hus, ho, -⟩
  let stop := Token.addedEnd []
  have hwhole : Accepts (.ofTokens [] none) (expression condition) ⟨us ++ o :: vs ++ [stop], 0⟩ e ⟨[stop], 0⟩ :=
    accepts_value h rfl
  rw [List.append_assoc, List.cons_append] at hwhole
  have hahead : [stop] = o :: (vs ++ [stop]) :=
    congrArg Cursor.ahead (hwhole.unique (accepts_value hus (goesOn_of_isComparison ho))).2
  simp at hahead

/-- A condition is taken as a whole wherever it does not go on. -/
theorem accepts_condition_of (h : ReadsExpr .condition ts e) (ht : ¬Level.condition.Continues ts t)
    (rest : List Token) (n : Nat) : Accepts s condition ⟨ts ++ t :: rest, n⟩ e ⟨t :: rest, n⟩ := by
  obtain ⟨hgo, hcompared⟩ := not_or.mp fun h => ht (continues_condition.mpr h)
  cases h with
  | ofExpression h =>
    refine accepts_condition_ofExpression (complete h) hgo (Bool.eq_false_iff.mpr fun ho => ?_)
    exact hcompared ⟨ho, not_compares h⟩
  | comparison h ho h' =>
    refine accepts_condition_comparison (complete h) ho (complete h') fun hgo' => hgo ?_
    exact (continues_operand _ (by simp) h').mpr hgo'

theorem reads_condition_unique (h : ReadsExpr .condition ts e) (h' : ReadsExpr .condition ts f) : f = e := by
  have hend : ¬Level.condition.Continues ts (Token.addedEnd []) := not_continues_of rfl
  have ha := accepts_condition_of (s := .ofTokens [] none) h hend [] 0
  exact ((accepts_condition_of h' hend [] 0).unique ha).1

/-! ### The longest condition -/

/-- Where a condition is the beginning of a longer one, the next token goes on with it. -/
theorem continues_of_longer (h : ReadsExpr .condition ts e) (h' : ReadsExpr .condition (ts ++ t :: us) f) :
    Level.condition.Continues ts t := by
  by_contra ht
  let stop := Token.addedEnd []
  have hwhole := accepts_condition_of (s := .ofTokens [] none) h' (t := stop) (not_continues_of rfl) [] 0
  rw [List.append_assoc, List.cons_append] at hwhole
  have hahead : [stop] = t :: (us ++ [stop]) :=
    congrArg Cursor.ahead (hwhole.unique (accepts_condition_of h ht (us ++ [stop]) 0)).2
  simp at hahead

end Parser

theorem ReadsUpTo.longest {ts us ahead : List Token} {e f : Expr} (h : ReadsUpTo .condition ts e ahead)
    (h' : ReadsExpr .condition us f) (hus : us <+: ts ++ ahead) : us.length ≤ ts.length := by
  by_contra hlt
  obtain ⟨vs, rfl⟩ := List.prefix_of_prefix_length_le (List.prefix_append ts ahead) hus (Nat.le_of_not_le hlt)
  cases vs with
  | nil => simp at hlt
  | cons t vs =>
    obtain ⟨rest, rfl⟩ := (List.prefix_append_right_inj ts).mp hus
    exact h.ends t rfl (Parser.continues_of_longer h.reads h')

/-- The tokens `ts`, behind which `t` stands, are the condition with which the tokens ahead begin, and it is read as `e`. -/
structure TakesCondition (ahead ts : List Token) (e : Expr) (t : Token) : Prop where
  sentence : Matches (production false) (.symbol .condition) (ts.map Token.kind)
  reads : ReadsExpr .condition ts e
  sole {f : Expr} (h : ReadsExpr .condition ts f) : f = e
  operator : t.kind.isAdditive = false ∧ t.kind.isMultiplicative = false
  step : EndsInName ts → t.kind ≠ .increment ∧ t.kind ≠ .decrement
  comparison : t.kind.isComparison → Compares ts
  longest {us : List Token} (hus : us <+: ahead)
    (h : Matches (production false) (.symbol .condition) (us.map Token.kind)) : us.length ≤ ts.length

section
variable {ts rest : List Token} {e : Expr} {t : Token}

theorem not_continues_condition : ¬Level.condition.Continues ts t ↔
    (t.kind.isAdditive = false ∧ t.kind.isMultiplicative = false) ∧
      (EndsInName ts → t.kind ≠ .increment ∧ t.kind ≠ .decrement) ∧ (t.kind.isComparison → Compares ts) := by
  simp only [Level.Continues, not_or, not_and, Bool.not_eq_true, not_not]
  tauto

/-- What does not go on is the longest. -/
theorem takesCondition_iff :
    TakesCondition (ts ++ t :: rest) ts e t ↔ ReadsExpr .condition ts e ∧ ¬Level.condition.Continues ts t := by
  constructor
  · intro h
    exact ⟨h.reads, not_continues_condition.mpr ⟨h.operator, h.step, h.comparison⟩⟩
  · rintro ⟨hreads, ht⟩
    obtain ⟨hoperator, hstep, hcomparison⟩ := not_continues_condition.mp ht
    have hends : ReadsUpTo .condition ts e (t :: rest) := ⟨hreads, fun u hu => by cases hu; exact ht⟩
    refine ⟨hreads.matches, hreads, fun h => Parser.reads_condition_unique hreads h, hoperator, hstep, hcomparison,
      fun {us} hus h => ?_⟩
    obtain ⟨f, hf⟩ : ∃ f, ReadsExpr .condition us f := matches_level_iff.mp h
    exact hends.longest hf hus

end

/-- Conditions are parsed exactly. Wherever the parse may stand, something is made of the tokens ahead. If nothing is
    reported, then they begin with a condition, the longest there is, and this was taken and read in the one way in which
    it can be read; and if they begin with a condition that does not go on, then nothing is reported. -/
theorem condition_exact (tokens : List Token) (interruption : Option Interruption) {c : Cursor}
    (hc : c.ahead <:+ Token.close tokens) (hle : c.index tokens ≤ Token.endIndex tokens) :
    ∃ e d log, Parser.condition (.ofTokens tokens interruption) c = .done e d log ∧
      (Flawless log → ∃ ts t rest, c.ahead = ts ++ t :: rest ∧ d.ahead = t :: rest ∧ TakesCondition c.ahead ts e t) ∧
      ((∃ ts f t rest, c.ahead = ts ++ t :: rest ∧ TakesCondition c.ahead ts f t) → Flawless log) := by
  have hopen := open_of_index_le hc hle
  obtain ⟨e, d, log, hd, hadvances⟩ := Parser.yields_iff.mp <|
    Parser.yields_condition (s := .ofTokens tokens interruption) c hopen
  refine ⟨e, d, log, hd, fun hlog => ?_, ?_⟩
  · obtain ⟨ts, hts, hreads, hends⟩ := Parser.sound_condition _ _ _ ⟨log, hd, hlog⟩
    obtain ⟨t, rest, ht⟩ := (hadvances.isOpen hopen).ahead
    rw [ht] at hts hends
    exact ⟨ts, t, rest, hts, ht, hts ▸ takesCondition_iff.mpr ⟨hreads, hends t rfl⟩⟩
  · rintro ⟨ts, f, t, rest, hahead, htakes⟩
    rw [hahead] at htakes
    obtain ⟨hreads, ht⟩ := takesCondition_iff.mp htakes
    obtain ⟨ahead, n⟩ := c
    subst hahead
    obtain ⟨log', hd', hlog'⟩ := Parser.accepts_condition_of (s := .ofTokens tokens interruption) hreads ht rest n
    cases hd.symm.trans hd'
    exact hlog'

/-- A comparison is not chained: `a < 1 + 2` is all that is taken of `a < 1 + 2 < b`. -/
theorem condition_exact_chained :
    let tokens := (Source.mk "x" "a < 1 + 2 < b").tokens
    ∃ e d log, Parser.condition (.ofTokens tokens none) (.ofTokens tokens) = .done e d log ∧ ∃ ts t,
      ts.length = 5 ∧ t.kind = .less ∧ TakesCondition (Token.close tokens) ts e t := by
  intro tokens
  have hlog : (Parser.condition (.ofTokens tokens none) (.ofTokens tokens)).log.filterMap Event.mistake? = [] := by
    decide +kernel
  have hkinds : (Parser.condition (.ofTokens tokens none) (.ofTokens tokens)).cursor.ahead.map Token.kind =
      [.less, .identifier, .eof] := by decide +kernel
  have hlength : (Token.close tokens).length = 8 := by decide +kernel
  obtain ⟨e, d, log, hd, hexact, -⟩ :=
    condition_exact tokens none (c := .ofTokens tokens) (List.suffix_refl _) (by decide +kernel)
  rw [hd] at hlog hkinds
  obtain ⟨ts, t, rest, hahead, hrest, htakes⟩ := hexact (flawless_iff.mpr hlog)
  have hkinds' : (t :: rest).map Token.kind = [.less, .identifier, .eof] := hrest ▸ hkinds
  have hrest' : (t :: rest).length = 3 := by simpa using congrArg List.length hkinds'
  refine ⟨e, d, log, hd, ts, t, ?_, (List.cons.inj hkinds').1, htakes⟩
  have hsum : ts.length + (t :: rest).length = 8 := by rw [← List.length_append, ← hahead]; exact hlength
  omega

end Curly
