import Curly.Syntax.Reading

/-! How far expressions reach. Whether a token can go on with the tokens of an expression is decided by the token, by the
    last of the tokens, and by whether two expressions were compared already. -/

namespace Curly

theorem ReadsExpr.ne_nil {level : Level} {ts : List Token} {e : Expr} (h : ReadsExpr level ts e) : ts ≠ [] := by
  induction h with
  | ofFactor _ ih | ofTerm _ ih | ofExpression _ ih => exact ih
  | _ => simp

/-- The last token is a name. -/
def EndsInName (ts : List Token) : Prop := ∃ t ∈ ts.getLast?, t.kind = .identifier

/-- The tokens are two expressions with a comparison between them. -/
def Compares (ts : List Token) : Prop := ∃ us o vs e f,
  ts = us ++ o :: vs ∧ ReadsExpr .expression us e ∧ o.kind.isComparison ∧ ReadsExpr .expression vs f

/-- The token goes on with an expression of the level, behind its tokens. -/
def Level.Continues : Level → List Token → Token → Prop
  | factor, ts, t => EndsInName ts ∧ (t.kind = .increment ∨ t.kind = .decrement)
  | term, ts, t => EndsInName ts ∧ (t.kind = .increment ∨ t.kind = .decrement) ∨ t.kind.isMultiplicative
  | expression, ts, t =>
    EndsInName ts ∧ (t.kind = .increment ∨ t.kind = .decrement) ∨ t.kind.isMultiplicative ∨ t.kind.isAdditive
  | condition, ts, t =>
    EndsInName ts ∧ (t.kind = .increment ∨ t.kind = .decrement) ∨ t.kind.isMultiplicative ∨ t.kind.isAdditive ∨
      t.kind.isComparison ∧ ¬Compares ts

/-- The tokens are read as an expression of the level, and what comes behind them does not go on with it. -/
structure ReadsUpTo (level : Level) (ts : List Token) (e : Expr) (ahead : List Token) : Prop where
  reads : ReadsExpr level ts e
  ends : ∀ t ∈ ahead.head?, ¬level.Continues ts t

theorem continues_expression {ts : List Token} {t : Token} :
    Level.expression.Continues ts t ↔ Level.term.Continues ts t ∨ t.kind.isAdditive := by
  simp only [Level.Continues, or_assoc]

theorem continues_condition {ts : List Token} {t : Token} :
    Level.condition.Continues ts t ↔ Level.expression.Continues ts t ∨ t.kind.isComparison ∧ ¬Compares ts := by
  simp only [Level.Continues, or_assoc]

section
variable {us : List Token} (ts : List Token)

theorem endsInName_append (h : us ≠ []) : EndsInName (ts ++ us) ↔ EndsInName us := by
  rw [EndsInName, EndsInName, List.getLast?_append, List.getLast?_eq_some_getLast h, Option.some_or]

theorem not_continues_factor {t : Token} (ht : t.kind ≠ .identifier) {u : Token} :
    ¬Level.factor.Continues (ts ++ [t]) u := by
  simp [Level.Continues, EndsInName, ht]

/-- But for comparisons, only the last operand counts. -/
theorem continues_operand {level inner : Level} (hl : level ≠ .condition) {e : Expr} (h : ReadsExpr inner us e)
    {o t : Token} : level.Continues (ts ++ o :: us) t ↔ level.Continues us t := by
  have hends : EndsInName (ts ++ o :: us) ↔ EndsInName us := by
    rw [endsInName_append ts (by simp), ← List.singleton_append, endsInName_append _ h.ne_nil]
  cases level with
  | condition => exact absurd rfl hl
  | factor | term | expression => simp only [Level.Continues, hends]

end

end Curly
