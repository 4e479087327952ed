import Curly.Proofs.Parser.Accepts
import Curly.Proofs.Syntax.Extent
import Mathlib.Data.List.ReduceOption

/-! What was accepted without a mistake is read: the tokens that a rule took are tokens of the construct that it came to.
    Main statements: `sound_statement`, `sound_program`. -/

namespace Curly.Parser

variable {α ι : Type} {s : Setting}

/-- If the parser accepts, then the tokens that it takes, what it comes to, and the tokens ahead are related by `Q`. -/
def Sound (s : Setting) (p : Parser α) (Q : List Token → α → List Token → Prop) : Prop :=
  ∀ c a d, Accepts s p c a d → ∃ ts, c.ahead = ts ++ d.ahead ∧ Q ts a d.ahead

theorem sound_fix {rule : Parser α → Parser α} {Q : List Token → α → List Token → Prop}
    (h : ∀ p, Sound s p Q → Sound s (rule p) Q) : Sound s (fix rule) Q := fun _ _ _ ha =>
  accepts_fix (Q := fun c a d => ∃ ts, c.ahead = ts ++ d.ahead ∧ Q ts a d.ahead) h ha

/-! ### Expressions -/

section
variable {condition : Parser Expr} (h : Sound s condition (ReadsUpTo .condition))
include h

theorem sound_factor : Sound s (factor condition) (ReadsUpTo .factor) := by
  intro c a d ha
  unfold factor at ha
  obtain ⟨t, rest, hc, ha⟩ := accepts_peek_bind.mp ha
  split at ha
  · next hk =>
    rw [accepts_advance_bind_of hc (by simp [hk]), accepts_pure] at ha
    obtain ⟨rfl, rfl⟩ := ha
    exact ⟨[t], hc, .number hk, fun _ _ => not_continues_factor [] (by simp [hk])⟩
  · next hk =>
    rw [accepts_advance_bind_of hc (by simp [hk])] at ha
    obtain ⟨u, rest', hu, ⟨hku, ha⟩ | ⟨hinc, ha⟩⟩ := (accepts_accept_bind (by simp)).mp ha
    · obtain ⟨rfl, rfl⟩ := accepts_pure.mp ha
      exact ⟨[t, u], by rw [hc]; exact congrArg _ hu, .postIncrement hk hku,
        fun _ _ => not_continues_factor [t] (by simp [hku])⟩
    · obtain ⟨u', rest'', hu', ⟨hku, ha⟩ | ⟨hdec, ha⟩⟩ := (accepts_accept_bind (by simp)).mp ha
      · obtain ⟨rfl, rfl⟩ := accepts_pure.mp ha
        exact ⟨[t, u'], by rw [hc]; exact congrArg _ hu', .postDecrement hk hku,
          fun _ _ => not_continues_factor [t] (by simp [hku])⟩
      · obtain ⟨rfl, rfl⟩ := accepts_pure.mp ha
        cases hu.symm.trans hu'
        refine ⟨[t], hc, .identifier hk, fun v hv => ?_⟩
        cases (congrArg List.head? hu).symm.trans hv
        exact fun hgo => hgo.2.elim hinc hdec
  · next hk =>
    rw [accepts_advance_bind_of hc (by simp [hk]), accepts_pure] at ha
    obtain ⟨rfl, rfl⟩ := ha
    exact ⟨[t], hc, .string hk, fun _ _ => not_continues_factor [] (by simp [hk])⟩
  · next hk =>
    rw [accepts_advance_bind_of hc (by simp [hk])] at ha
    obtain ⟨e, c', hcond, ha⟩ := accepts_bind.mp ha
    obtain ⟨ts, hts, he⟩ := h _ _ _ hcond
    obtain ⟨r, rest', hr, hkr, ha⟩ := (accepts_expect_bind (by simp)).mp ha
    obtain ⟨rfl, rfl⟩ := accepts_pure.mp ha
    refine ⟨t :: (ts ++ [r]), ?_, .parenthesized hk he.reads hkr,
      fun _ _ => not_continues_factor (t :: ts) (by simp [hkr])⟩
    have hrest : rest = ts ++ c'.ahead := hts
    simp [hc, hrest, hr]
  · exact absurd ha not_accepts_report_bind

omit h in
/-- Operators of one level are taken from the left, as long as there are any. -/
theorem sound_chain {isOperator : TokenKind → Bool} {operand : Parser Expr} {level inner : Level}
    (heof : isOperator .eof = false) (hinner : inner ≠ .condition)
    (hfirst : ∀ {ts e}, ReadsExpr inner ts e → ReadsExpr level ts e)
    (hnext : ∀ {ts us o e f}, ReadsExpr level ts e → isOperator o.kind → ReadsExpr inner us f →
      ReadsExpr level (ts ++ o :: us) (.binary o.lexeme e f))
    (hends : ∀ {ts t}, level.Continues ts t → inner.Continues ts t ∨ isOperator t.kind)
    (h : Sound s operand (ReadsUpTo inner)) : Sound s (chain isOperator operand) (ReadsUpTo level) := by
  -- What was read so far is the left operand of what follows.
  have hrest : ∀ (l : List (String × Expr)) c d ts e, ReadsExpr level ts e →
      (∀ t ∈ c.ahead.head?, ¬inner.Continues ts t) →
      Accepts s (repeatWhile isOperator do
        let operator ← advance
        let right ← operand
        return (operator.lexeme, right)) c l d →
      ∃ us, c.ahead = us ++ d.ahead ∧ ReadsUpTo level (ts ++ us) (e.chain l) d.ahead := by
    intro l
    induction l with
    | nil =>
      intro c d ts e he hstop ha
      obtain ⟨t, rest, hc, ho, rfl⟩ := accepts_repeatWhile_nil.mp ha
      refine ⟨[], rfl, by rw [List.append_nil]; exact he, fun u hu => ?_⟩
      rw [List.append_nil]
      cases (congrArg List.head? hc).symm.trans hu
      exact fun hgo => (hends hgo).elim (hstop t hu) fun ho' => by cases ho.symm.trans ho'
    | cons x l ih =>
      intro c d ts e he _ ha
      obtain ⟨o, rest, hc, ho, c', hx, -, hl⟩ := accepts_repeatWhile_cons.mp ha
      rw [accepts_advance_bind_of hc fun hk => by simp [hk, heof] at ho] at hx
      obtain ⟨f, c'', hf, hx⟩ := accepts_bind.mp hx
      obtain ⟨rfl, rfl⟩ := accepts_pure.mp hx
      obtain ⟨us, hus, hread⟩ := h _ _ _ hf
      obtain ⟨vs, hvs, hchain⟩ := ih c' d _ _ (hnext he ho hread.reads)
        (fun t ht hgo => hread.ends t ht ((continues_operand _ hinner hread.reads).mp hgo)) hl
      have hrest : rest = us ++ (vs ++ d.ahead) := by rw [← hvs]; exact hus
      refine ⟨o :: (us ++ vs), by simp [hc, hrest], ?_⟩
      simpa [Expr.chain] using hchain
  intro c a d ha
  obtain ⟨first, c', hf, ha⟩ := accepts_bind.mp ha
  obtain ⟨l, d', hl, ha⟩ := accepts_bind.mp ha
  obtain ⟨rfl, rfl⟩ := accepts_pure.mp ha
  obtain ⟨ts, hts, hread⟩ := h _ _ _ hf
  obtain ⟨us, hus, hchain⟩ := hrest l c' _ ts first (hfirst hread.reads) hread.ends hl
  exact ⟨ts ++ us, by rw [hts, hus, List.append_assoc], hchain⟩

theorem sound_expression : Sound s (expression condition) (ReadsUpTo .expression) :=
  sound_chain rfl (by simp) .ofTerm .sum continues_expression.mp
    (sound_chain rfl (by simp) .ofFactor .product id (sound_factor h))

theorem sound_conditionRule : Sound s (conditionRule condition) (ReadsUpTo .condition) := by
  intro c a d ha
  unfold conditionRule at ha
  obtain ⟨left, c', hl, ha⟩ := accepts_bind.mp ha
  obtain ⟨ts, hts, hleft⟩ := sound_expression h _ _ _ hl
  obtain ⟨o, rest, hc', ha⟩ := accepts_peek_bind.mp ha
  rw [accepts_ite] at ha
  split at ha
  · next ho =>
    rw [accepts_advance_bind_of hc' fun hk => by simp [hk, TokenKind.isComparison] at ho] at ha
    obtain ⟨right, c'', hr, ha⟩ := accepts_bind.mp ha
    obtain ⟨rfl, rfl⟩ := accepts_pure.mp ha
    obtain ⟨us, hus, hright⟩ := sound_expression h _ _ _ hr
    have hrest : rest = us ++ d.ahead := hus
    refine ⟨ts ++ o :: us, by simp [hts, hc', hrest], .comparison hleft.reads ho hright.reads, fun t ht hgo => ?_⟩
    rcases continues_condition.mp hgo with hgo | ⟨-, hfirst⟩
    · exact hright.ends t ht ((continues_operand _ (by simp) hright.reads).mp hgo)
    · exact hfirst ⟨ts, o, us, left, right, rfl, hleft.reads, ho, hright.reads⟩
  · next ho =>
    obtain ⟨rfl, rfl⟩ := accepts_pure.mp ha
    refine ⟨ts, hts, .ofExpression hleft.reads, fun t ht hgo => ?_⟩
    cases (congrArg List.head? hc').symm.trans ht
    exact (continues_condition.mp hgo).elim (hleft.ends o ht) fun hcompares => ho hcompares.1

end

theorem sound_condition : Sound s condition (ReadsUpTo .condition) :=
  sound_fix fun _ => sound_conditionRule

theorem sound_value : Sound s (expression condition) (ReadsUpTo .expression) :=
  sound_expression sound_condition

/-! ### Names, parameters and arguments -/

/-- If a call is found ahead, then the name before it is a dotted one. -/
theorem accepts_continuesCall {c d : Cursor} (ha : Accepts s continuesCall c true d) :
    ∃ tail l rest, c.ahead = tail ++ l :: rest ∧ l.kind = .leftParen ∧
      ∀ t : Token, t.kind = .identifier → DottedName (t :: tail) := by
  refine accepts_fix (Q := fun c a d => a = true → ∃ tail l rest, c.ahead = tail ++ l :: rest ∧ l.kind = .leftParen ∧
    ∀ t : Token, t.kind = .identifier → DottedName (t :: tail)) (fun again ih c a d ha hat => ?_) ha rfl
  obtain ⟨dot, rest, hc, ⟨hdot, ha⟩ | ⟨-, ha⟩⟩ := (accepts_accept_bind (by simp)).mp ha
  · obtain ⟨u, rest', hu, ⟨hku, ha⟩ | ⟨-, ha⟩⟩ := (accepts_accept_bind (by simp)).mp ha
    · obtain ⟨tail, l, more, htail, hl, hname⟩ := ih _ _ _ ha hat
      have hrest : rest = u :: (tail ++ l :: more) := htail ▸ hu
      exact ⟨dot :: u :: tail, l, more, by rw [hc, hrest]; rfl, hl, fun t ht => .cons ht hdot (hname u hku)⟩
    · obtain ⟨rfl, -⟩ := accepts_pure.mp ha
      cases hat
  · unfold check at ha
    obtain ⟨t, rest', hc', ha⟩ := accepts_peek_bind.mp ha
    obtain ⟨rfl, -⟩ := accepts_pure.mp ha
    exact ⟨[], t, rest', hc', by simpa using hat, fun u hu => .single hu⟩

/-- After a name, a dotted name goes on if a dot follows. -/
theorem accepts_dottedName_cons {t u : Token} {rest a : List Token} {c d : Cursor} (hc : c.ahead = t :: u :: rest)
    (ht : t.kind = .identifier) : Accepts s dottedName c a d ↔
      if u.kind = .dot then ∃ b, Accepts s dottedName ⟨rest, c.begun⟩ b d ∧ a = t :: u :: b
      else a = [t] ∧ d = ⟨u :: rest, c.begun⟩ := by
  have hd : Cursor.ahead ⟨u :: rest, c.begun⟩ = u :: rest := rfl
  conv_lhs => unfold dottedName
  rw [accepts_fix_iff, accepts_check_bind_of hc, if_pos (by simp [ht]), accepts_advance_bind_of hc (by simp [ht]),
    accepts_check_bind_of hd]
  by_cases hu : u.kind = .dot
  · rw [if_pos hu, if_pos (by simp [hu]), accepts_advance_bind_of hd (by simp [hu])]
    simp only [accepts_bind, accepts_later, accepts_pure]
    constructor
    · rintro ⟨b, d', ⟨-, hb⟩, rfl, rfl⟩
      exact ⟨b, hb, rfl⟩
    · rintro ⟨b, hb, rfl⟩
      have hlt : rest.length < c.ahead.length := by
        rw [hc, List.length_cons, List.length_cons]
        omega
      exact ⟨b, d, ⟨hlt, hb⟩, rfl, rfl⟩
  · rw [if_neg hu, if_neg (by simpa using hu), accepts_pure]

/-- A dotted name is taken as a whole. -/
theorem accepts_dottedName {name : List Token} (hname : DottedName name) {l : Token} {rest a : List Token}
    {c d : Cursor} (hl : l.kind = .leftParen) (hc : c.ahead = name ++ l :: rest) :
    Accepts s dottedName c a d ↔ a = name ∧ d = ⟨l :: rest, c.begun⟩ := by
  induction hname generalizing c a with
  | @single t ht =>
    rw [accepts_dottedName_cons hc ht, if_neg (by simp [hl])]
  | @cons t dot ts ht hdot _ ih =>
    rw [accepts_dottedName_cons hc ht, if_pos hdot]
    constructor
    · rintro ⟨b, hb, rfl⟩
      obtain ⟨rfl, rfl⟩ := (ih rfl).mp hb
      exact ⟨rfl, rfl⟩
    · rintro ⟨rfl, rfl⟩
      exact ⟨ts, (ih rfl).mpr ⟨rfl, rfl⟩, rfl⟩

/-- The tokens that are skipped close the parentheses among them. -/
theorem sound_skipParametersWithin {depth : Nat} {c d : Cursor} {u : Unit}
    (ha : Accepts s (skipParametersWithin depth) c u d) :
    ∃ ts, c.ahead = ts ++ d.ahead ∧
      ∀ t rest, d.ahead = t :: rest → t.kind ≠ .eof → Grammar.closes depth (ts.map Token.kind) := by
  refine accepts_fixOver (Q := fun depth c _ d => ∃ ts, c.ahead = ts ++ d.ahead ∧
    ∀ t rest, d.ahead = t :: rest → t.kind ≠ .eof → Grammar.closes depth (ts.map Token.kind))
    (fun again ih depth c _ d ha => ?_) ha
  obtain ⟨t, rest, hc, ha⟩ := accepts_peek_bind.mp ha
  rw [accepts_ite] at ha
  split at ha
  · next hk =>
    obtain ⟨-, rfl⟩ := accepts_pure.mp ha
    refine ⟨[], rfl, fun t' rest' hc' hk' => ?_⟩
    cases hc.symm.trans hc'
    exact absurd hk hk'
  · next hk =>
    have skip : ∀ depth', Accepts s (again depth') ⟨rest, c.begun⟩ () d →
        (∀ ks, Grammar.closes depth' ks → Grammar.closes depth (t.kind :: ks)) →
        ∃ ts, c.ahead = ts ++ d.ahead ∧
          ∀ t rest, d.ahead = t :: rest → t.kind ≠ .eof → Grammar.closes depth (ts.map Token.kind) := by
      intro depth' ha hcloses
      obtain ⟨ts, hts, hnext⟩ := ih _ _ _ _ ha
      have hrest : rest = ts ++ d.ahead := hts
      exact ⟨t :: ts, by rw [hc, hrest]; rfl, fun t' rest' hd hk' => hcloses _ (hnext t' rest' hd hk')⟩
    rw [accepts_ite] at ha
    split at ha
    · next hr =>
      cases depth with
      | zero =>
        obtain ⟨-, rfl⟩ := accepts_pure.mp ha
        exact ⟨[], rfl, fun _ _ _ _ => rfl⟩
      | succ depth =>
        rw [accepts_advance_bind_of hc hk] at ha
        exact skip depth ha fun ks hks => by simpa [Grammar.closes, hr] using hks
    · next hr =>
      rw [accepts_advance_bind_of hc hk] at ha
      exact skip _ ha fun ks hks => by simpa [Grammar.closes, hk, hr] using hks

theorem sound_modifiers : Sound s (repeatWhile TokenKind.isModifier advance) fun ts ms _ => ts = ms ∧ Modifiers ms := by
  intro c ms d ha
  induction ms generalizing c with
  | nil =>
    obtain ⟨t, rest, -, -, rfl⟩ := accepts_repeatWhile_nil.mp ha
    exact ⟨[], rfl, rfl, fun _ h => by cases h⟩
  | cons m ms ih =>
    obtain ⟨t, rest, hc, hm, c', hx, -, hl⟩ := accepts_repeatWhile_cons.mp ha
    obtain ⟨rest', hc', rfl⟩ := accepts_advance.mp hx
    cases hc.symm.trans hc'
    rw [next_of_ahead hc fun hk => by simp [hk, TokenKind.isModifier] at hm] at hl
    obtain ⟨_, hts, rfl, hms⟩ := ih _ hl
    exact ⟨_, by rw [hc]; exact congrArg _ hts, rfl, List.forall_mem_cons.mpr ⟨hm, hms⟩⟩

/-- The comma after an argument is missing only if no argument follows. -/
theorem accepts_separator {c d : Cursor} {u : Unit} (ha : Accepts s separator c u d) : ∃ t rest, c.ahead = t :: rest ∧
    (t.kind = .comma ∧ d = ⟨rest, c.begun⟩ ∨ goesOnArguments t.kind = false ∧ d = c) := by
  unfold separator at ha
  obtain ⟨t, rest, hc, ⟨ht, ha⟩ | ⟨-, ha⟩⟩ := (accepts_accept_bind (by simp)).mp ha
  · exact ⟨t, rest, hc, .inl ⟨ht, (accepts_pure.mp ha).2⟩⟩
  · rw [if_neg (by simp), accepts_peek_bind_of hc, accepts_ite] at ha
    split at ha
    · exact absurd ha not_accepts_report
    · next hgo => exact ⟨t, rest, hc, .inr ⟨by simpa using hgo, (accepts_pure.mp ha).2⟩⟩

theorem sound_arguments : Sound s (repeatWhile goesOnArguments argument) fun ts es _ => ReadsArguments ts es := by
  intro c es d ha
  induction es generalizing c with
  | nil =>
    obtain ⟨t, rest, -, -, rfl⟩ := accepts_repeatWhile_nil.mp ha
    exact ⟨[], rfl, .none⟩
  | cons e es ih =>
    obtain ⟨t, rest, hc, -, c', hx, -, hl⟩ := accepts_repeatWhile_cons.mp ha
    obtain ⟨e', c₁, he, hx⟩ := accepts_bind.mp hx
    obtain ⟨_, c₂, hsep, hx⟩ := accepts_bind.mp hx
    obtain ⟨rfl, rfl⟩ := accepts_pure.mp hx
    obtain ⟨ts, hts, hread, -⟩ := sound_value _ _ _ he
    obtain ⟨o, rest', ho, ⟨hcomma, rfl⟩ | ⟨hgo, rfl⟩⟩ := accepts_separator hsep
    · obtain ⟨us, hus, hargs⟩ := ih _ hl
      have hrest : rest' = us ++ d.ahead := hus
      exact ⟨ts ++ o :: us, by rw [hts, ho, hrest, List.append_assoc]; rfl, .cons hread hcomma hargs⟩
    · cases es with
      | nil =>
        obtain ⟨_, _, -, -, rfl⟩ := accepts_repeatWhile_nil.mp hl
        exact ⟨ts, hts, .last hread⟩
      | cons e es =>
        obtain ⟨u, rest'', hu, hgo', -⟩ := accepts_repeatWhile_cons.mp hl
        cases ho.symm.trans hu
        rw [hgo] at hgo'
        cases hgo'

/-! ### Looking ahead -/

/-- A type that begins no method is not `void`, and no modifiers stand before it. -/
theorem accepts_isLikelyMethod {ms : List Token} {t : Token} {b : Bool} {c d : Cursor}
    (ha : Accepts s (isLikelyMethod ms t) c b d) :
    d.ahead = c.ahead ∧ (b = false → ms = [] ∧ t.kind ≠ .kwVoid) := by
  unfold isLikelyMethod namesMethod at ha
  rw [accepts_ite] at ha
  split at ha
  · obtain ⟨rfl, rfl⟩ := accepts_pure.mp ha
    exact ⟨rfl, fun h => by cases h⟩
  · next h =>
    obtain ⟨d', -, rfl⟩ := accepts_speculate.mp ha
    exact ⟨rfl, fun _ => by simpa using h⟩

/-- Before the parenthesis of a call stands a dotted name. -/
theorem accepts_isMethodCall {t : Token} {b : Bool} {rest : List Token} {c d : Cursor} (hc : c.ahead = t :: rest)
    (ht : t.kind = .identifier) (ha : Accepts s isMethodCall c b d) : d.ahead = c.ahead ∧
      (b = true → ∃ name l rest, c.ahead = name ++ l :: rest ∧ l.kind = .leftParen ∧ DottedName name) := by
  obtain ⟨d', hp, rfl⟩ := accepts_speculate.mp ha
  refine ⟨rfl, fun hb => ?_⟩
  rw [accepts_advance_bind_of hc (by simp [ht]), hb] at hp
  obtain ⟨tail, l, rest', hrest, hl, hname⟩ := accepts_continuesCall hp
  have : rest = tail ++ l :: rest' := hrest
  exact ⟨t :: tail, l, rest', by simp [*], hl, hname t ht⟩

/-! ### Statements without statements in them -/

/-- What the tokens after modifiers are read as, and that no `else` follows a conditional that could have it. -/
def ReadsAfter (ms ts : List Token) (st : Stmt) (rest : List Token) : Prop :=
  ReadsStmt (ms ++ ts) st ∧ (st.endsOpen → ∀ t ∈ rest.head?, t.kind ≠ .kwElse)

theorem ReadsAfter.closed {ms ts rest : List Token} {st : Stmt} (h : ReadsStmt (ms ++ ts) st)
    (ho : st.endsOpen = false) : ReadsAfter ms ts st rest :=
  ⟨h, fun h' => by simp [ho] at h'⟩

/-- A statement is there, and it is read. -/
def ReadsSome (ms ts : List Token) (st : Option Stmt) (rest : List Token) : Prop :=
  ∃ st', st = some st' ∧ ReadsAfter ms ts st' rest

theorem sound_map {α : Type} {p : Parser α} {f : α → Option Stmt} {Q R : List Token → _ → List Token → Prop}
    (h : Sound s p Q) (hf : ∀ ts a rest, Q ts a rest → R ts (f a) rest) : Sound s (f <$> p) R := by
  intro c a d ha
  obtain ⟨a, hp, rfl⟩ := accepts_map.mp ha
  obtain ⟨ts, hts, hQ⟩ := h _ _ _ hp
  exact ⟨ts, hts, hf _ _ _ hQ⟩

theorem sound_initializer {c d : Cursor} {e : Option Expr} (ha : Accepts s initializer c e d) :
    (e = none ∧ d = c) ∨ ∃ o ts f, c.ahead = o :: (ts ++ d.ahead) ∧ o.kind = .assign ∧ e = some f ∧
      ReadsExpr .expression ts f := by
  unfold initializer at ha
  obtain ⟨o, rest, hc, ⟨ho, ha⟩ | ⟨-, ha⟩⟩ := (accepts_accept_bind (by simp)).mp ha
  · obtain ⟨f, hf, rfl⟩ := accepts_map.mp ha
    obtain ⟨ts, hts, hread, -⟩ := sound_value _ _ _ hf
    have hrest : rest = ts ++ d.ahead := hts
    exact .inr ⟨o, ts, f, by rw [hc, hrest], ho, rfl, hread⟩
  · exact .inl (accepts_pure.mp ha)

theorem accepts_endDeclaration {name : Token} {c d : Cursor} {u : Unit} (ha : Accepts s (endDeclaration name) c u d) :
    ∃ t, c.ahead = t :: d.ahead ∧ t.kind = .semicolon := by
  unfold endDeclaration at ha
  obtain ⟨t, rest, hc, ⟨ht, ha⟩ | ⟨-, ha⟩⟩ := (accepts_accept_bind (by simp)).mp ha
  · obtain ⟨-, rfl⟩ := accepts_pure.mp ha
    exact ⟨t, hc, ht⟩
  · rw [if_neg (by simp), accepts_peek_bind_of hc] at ha
    exact absurd ha not_accepts_report_bind

/-- The declaration of a variable, at whose type the parser stands. -/
theorem sound_declaration {c d : Cursor} {t : Token} {rest : List Token} {st : Option Stmt} (hc : c.ahead = t :: rest)
    (ht : t.kind.isType) (hv : t.kind ≠ .kwVoid) (ha : Accepts s declaration c st d) :
    ∃ ts, c.ahead = ts ++ d.ahead ∧ ReadsSome [] ts st d.ahead := by
  unfold declaration at ha
  rw [accepts_advance_bind_of hc fun hk => by simp [hk, TokenKind.isType] at ht] at ha
  obtain ⟨name, rest', hrest, ha⟩ := accepts_peek_bind.mp ha
  rw [accepts_ite] at ha
  split at ha
  · next hn =>
    have hname : name.kind = .identifier := by simpa using hn
    rw [accepts_advance_bind_of hrest (by simp [hname])] at ha
    obtain ⟨e, c₁, he, ha⟩ := accepts_bind.mp ha
    obtain ⟨_, c₂, hsemi, ha⟩ := accepts_bind.mp ha
    obtain ⟨rfl, rfl⟩ := accepts_pure.mp ha
    obtain ⟨semi, hc₁, hk⟩ := accepts_endDeclaration hsemi
    obtain ⟨rfl, rfl⟩ | ⟨o, ts, f, ho, hok, rfl, hread⟩ := sound_initializer he
    · refine ⟨[t, name, semi], ?_, _, rfl, .closed (.declaration ht hv hname hk) rfl⟩
      have : rest = name :: rest' := hrest
      have : rest' = semi :: d.ahead := hc₁
      simp [*]
    · refine ⟨t :: name :: o :: (ts ++ [semi]), ?_, _, rfl, .closed (.initialized ht hv hname hok hread hk) rfl⟩
      have : rest = name :: rest' := hrest
      have : rest' = o :: (ts ++ c₁.ahead) := ho
      simp [*]
  · exact absurd ha not_accepts_report_bind

theorem sound_assignment {ms : List Token} (hms : Modifiers ms) : Sound s assignment (ReadsSome ms) := by
  intro c st d ha
  unfold assignment at ha
  obtain ⟨name, rest, hc, hname, ha⟩ := (accepts_expect_bind (by simp)).mp ha
  obtain ⟨o, rest', hrest, ⟨ho, ha⟩ | ⟨-, ha⟩⟩ := (accepts_accept_bind (by simp)).mp ha
  · rw [if_pos rfl] at ha
    obtain ⟨e, c', he, ha⟩ := accepts_bind.mp ha
    obtain ⟨ts, hts, hread, -⟩ := sound_value _ _ _ he
    obtain ⟨semi, rest'', hc', hsemi, ha⟩ := accepts_expectSemicolon_bind.mp ha
    obtain ⟨rfl, rfl⟩ := accepts_pure.mp ha
    refine ⟨name :: o :: (ts ++ [semi]), ?_, _, rfl, .closed (.assignment hms hname ho hread hsemi) rfl⟩
    have : rest = o :: rest' := hrest
    have : rest' = ts ++ c'.ahead := hts
    simp [*]
  · rw [if_neg (by simp)] at ha
    obtain ⟨o, rest', hrest, ⟨ho, ha⟩ | ⟨-, ha⟩⟩ := (accepts_accept_bind (by simp)).mp ha
    · rw [if_pos rfl] at ha
      obtain ⟨semi, rest'', hrest', hsemi, ha⟩ := accepts_expectSemicolon_bind.mp ha
      obtain ⟨rfl, rfl⟩ := accepts_pure.mp ha
      refine ⟨[name, o, semi], ?_, _, rfl, .closed (.increment hms hname ho hsemi) rfl⟩
      have : rest = o :: rest' := hrest
      have : rest' = semi :: rest'' := hrest'
      simp [*]
    · rw [if_neg (by simp)] at ha
      obtain ⟨o, rest', hrest, ⟨ho, ha⟩ | ⟨-, ha⟩⟩ := (accepts_accept_bind (by simp)).mp ha
      · rw [if_pos rfl] at ha
        obtain ⟨semi, rest'', hrest', hsemi, ha⟩ := accepts_expectSemicolon_bind.mp ha
        obtain ⟨rfl, rfl⟩ := accepts_pure.mp ha
        refine ⟨[name, o, semi], ?_, _, rfl, .closed (.decrement hms hname ho hsemi) rfl⟩
        have : rest = o :: rest' := hrest
        have : rest' = semi :: rest'' := hrest'
        simp [*]
      · rw [if_neg (by simp)] at ha
        exact absurd ha not_accepts_report_bind

/-- A call, before whose parenthesis a dotted name stands. -/
theorem sound_methodCall {ms name rest : List Token} {l : Token} {c d : Cursor} {st : Stmt} (hms : Modifiers ms)
    (hname : DottedName name) (hl : l.kind = .leftParen) (hc : c.ahead = name ++ l :: rest)
    (ha : Accepts s methodCall c st d) : ∃ ts, c.ahead = ts ++ d.ahead ∧ ReadsAfter ms ts st d.ahead := by
  unfold methodCall at ha
  obtain ⟨first, more, hfirst, ha⟩ := accepts_peek_bind.mp ha
  obtain ⟨taken, c₁, hn, ha⟩ := accepts_bind.mp ha
  obtain ⟨htaken, rfl⟩ := (accepts_dottedName hname hl hc).mp hn
  rw [htaken, accepts_expect_bind_of rfl hl (by simp)] at ha
  obtain ⟨es, c₂, hargs, ha⟩ := accepts_bind.mp ha
  obtain ⟨ts, hts, hread⟩ := sound_arguments _ _ _ hargs
  obtain ⟨r, rest₂, hc₂, hr, ha⟩ := (accepts_expect_bind (by simp)).mp ha
  obtain ⟨semi, rest₃, hrest₂, hsemi, ha⟩ := accepts_expectSemicolon_bind.mp ha
  obtain ⟨rfl, rfl⟩ := accepts_pure.mp ha
  have hline : first.line = (name.head?.map Token.line).getD 0 := by
    cases hname <;> cases hfirst.symm.trans hc <;> rfl
  rw [hline]
  refine ⟨name ++ l :: (ts ++ [r, semi]), ?_, .closed (.methodCall hms hname hl hread hr hsemi) rfl⟩
  have : rest = ts ++ c₂.ahead := hts
  have : rest₂ = semi :: rest₃ := hrest₂
  simp [*]

/-! ### Statements with statements in them -/

theorem accepts_begin {c d : Cursor} {u : Unit} (ha : Accepts s begin c u d) : d.ahead = c.ahead := by
  obtain ⟨log, hb, -⟩ := ha
  unfold begin at hb
  split at hb
  · simp only at hb
    split at hb <;> cases hb
    rfl
  · cases hb
    rfl

theorem accepts_beginProgram {c d : Cursor} {u : Unit} (ha : Accepts s beginProgram c u d) : d = c := by
  obtain ⟨log, hb, -⟩ := ha
  unfold beginProgram at hb
  split at hb <;> cases hb
  rfl

/-- Nothing is dropped where nothing is missing. -/
theorem reduceOption_map_some {β γ : Type} (f : β → γ) (l : List β) : (l.map (some ∘ f)).reduceOption = l.map f := by
  induction l with
  | nil => rfl
  | cons x l ih => rw [List.map_cons, List.map_cons, Function.comp_apply, List.reduceOption_cons_of_some, ih]

section
variable {statement : Parser (Option Stmt)} (h : Sound s statement (ReadsSome []))
include h

/-- Statements that are repeated, each with its tokens. -/
theorem sound_repeatWhile {go : TokenKind → Bool} {c d : Cursor} {l : List (Option Stmt)}
    (ha : Accepts s (repeatWhile go statement) c l d) :
    ∃ body : List (List Token × Stmt), (∀ x ∈ body, ReadsStmt x.1 x.2) ∧ l = body.map (some ∘ Prod.snd) ∧
      c.ahead = body.flatMap Prod.fst ++ d.ahead ∧ ∃ t rest, d.ahead = t :: rest ∧ go t.kind = false := by
  induction l generalizing c with
  | nil =>
    obtain ⟨t, rest, hc, hgo, rfl⟩ := accepts_repeatWhile_nil.mp ha
    exact ⟨[], (fun _ hx => by cases hx), rfl, rfl, t, rest, hc, hgo⟩
  | cons st l ih =>
    obtain ⟨_, _, -, -, c', hst, -, hl⟩ := accepts_repeatWhile_cons.mp ha
    obtain ⟨ts, hts, st', rfl, hread, -⟩ := h _ _ _ hst
    obtain ⟨body, hbody, rfl, hc', hend⟩ := ih hl
    refine ⟨(ts, st') :: body, List.forall_mem_cons.mpr ⟨hread, hbody⟩, rfl, ?_, hend⟩
    rw [hts, hc', List.flatMap_cons, List.append_assoc]

theorem sound_statementsUntilBrace {c d : Cursor} {l : List Stmt}
    (ha : Accepts s (statementsUntilBrace statement) c l d) :
    ∃ body : List (List Token × Stmt), (∀ x ∈ body, ReadsStmt x.1 x.2) ∧ l = body.map Prod.snd ∧
      c.ahead = body.flatMap Prod.fst ++ d.ahead := by
  obtain ⟨l', c', hl, ha⟩ := accepts_bind.mp ha
  obtain ⟨rfl, rfl⟩ := accepts_pure.mp ha
  obtain ⟨body, hbody, rfl, hc, -⟩ := sound_repeatWhile h hl
  exact ⟨body, hbody, reduceOption_map_some _ body, hc⟩

variable {ms : List Token} (hms : Modifiers ms)
include hms

theorem sound_classDecl : Sound s (classDecl statement ms) (ReadsAfter ms) := by
  intro c st d ha
  unfold classDecl at ha
  obtain ⟨kw, rest₁, hc, hkw, ha⟩ := (accepts_expect_bind (by simp)).mp ha
  obtain ⟨name, rest₂, hrest₁, hname, ha⟩ := (accepts_expect_bind (by simp)).mp ha
  obtain ⟨l, rest₃, hrest₂, hl, ha⟩ := (accepts_expect_bind (by simp)).mp ha
  obtain ⟨_, c', hb, ha⟩ := accepts_bind.mp ha
  obtain ⟨body, hbody, rfl, hrest₃⟩ := sound_statementsUntilBrace h hb
  obtain ⟨r, rest₄, hc', hr, ha⟩ := (accepts_expect_bind (by simp)).mp ha
  obtain ⟨rfl, rfl⟩ := accepts_pure.mp ha
  refine ⟨kw :: name :: l :: (body.flatMap Prod.fst ++ [r]), ?_, .closed (.classDecl hms hkw hname hl hbody hr) rfl⟩
  have : rest₁ = name :: rest₂ := hrest₁
  have : rest₂ = l :: rest₃ := hrest₂
  have : rest₃ = body.flatMap Prod.fst ++ c'.ahead := hrest₃
  simp [*]

theorem sound_methodDecl {c d : Cursor} {type : Token} {rest : List Token} {st : Stmt} (hc : c.ahead = type :: rest)
    (htype : type.kind.isType) (ha : Accepts s (methodDecl statement ms) c st d) :
    ∃ ts, c.ahead = ts ++ d.ahead ∧ ReadsAfter ms ts st d.ahead := by
  unfold methodDecl at ha
  rw [accepts_advance_bind_of hc fun hk => by simp [hk, TokenKind.isType] at htype] at ha
  obtain ⟨name, rest₁, hrest, hname, ha⟩ := (accepts_expect_bind (by simp)).mp ha
  obtain ⟨l, rest₂, hrest₁, hl, ha⟩ := (accepts_expect_bind (by simp)).mp ha
  obtain ⟨_, c₁, hp, ha⟩ := accepts_bind.mp ha
  obtain ⟨ps, hrest₂, hcloses⟩ := sound_skipParametersWithin hp
  obtain ⟨r, rest₃, hc₁, hr, ha⟩ := (accepts_expect_bind (by simp)).mp ha
  obtain ⟨lb, rest₄, hrest₃, hlb, ha⟩ := (accepts_expect_bind (by simp)).mp ha
  obtain ⟨_, c₂, hb, ha⟩ := accepts_bind.mp ha
  obtain ⟨body, hbody, rfl, hrest₄⟩ := sound_statementsUntilBrace h hb
  obtain ⟨rb, rest₅, hc₂, hrb, ha⟩ := (accepts_expect_bind (by simp)).mp ha
  obtain ⟨rfl, rfl⟩ := accepts_pure.mp ha
  have hps := hcloses r rest₃ hc₁ (by simp [hr])
  refine ⟨type :: name :: l :: (ps ++ r :: lb :: (body.flatMap Prod.fst ++ [rb])), ?_,
    .closed (.methodDecl hms htype hname hl hps hr hlb hbody hrb) rfl⟩
  have : rest = name :: rest₁ := hrest
  have : rest₁ = l :: rest₂ := hrest₁
  have : rest₂ = ps ++ c₁.ahead := hrest₂
  have : rest₃ = lb :: rest₄ := hrest₃
  have : rest₄ = body.flatMap Prod.fst ++ c₂.ahead := hrest₄
  simp [*]

theorem sound_block : Sound s (block statement) (ReadsAfter ms) := by
  intro c st d ha
  unfold block at ha
  obtain ⟨l, rest, hc, hl, ha⟩ := (accepts_expect_bind (by simp)).mp ha
  obtain ⟨_, c', hb, ha⟩ := accepts_bind.mp ha
  obtain ⟨body, hbody, rfl, hrest⟩ := sound_statementsUntilBrace h hb
  obtain ⟨r, rest', hc', hr, ha⟩ := (accepts_expect_bind (by simp)).mp ha
  obtain ⟨rfl, rfl⟩ := accepts_pure.mp ha
  refine ⟨l :: (body.flatMap Prod.fst ++ [r]), ?_, .closed (.block hms hl hbody hr) rfl⟩
  have : rest = body.flatMap Prod.fst ++ c'.ahead := hrest
  simp [*]

theorem sound_whileLoop : Sound s (whileLoop statement) (ReadsAfter ms) := by
  intro c st d ha
  unfold whileLoop at ha
  obtain ⟨kw, rest₁, hc, hkw, ha⟩ := (accepts_expect_bind (by simp)).mp ha
  obtain ⟨l, rest₂, hrest₁, hl, ha⟩ := (accepts_expect_bind (by simp)).mp ha
  obtain ⟨e, c₁, he, ha⟩ := accepts_bind.mp ha
  obtain ⟨ts, hrest₂, hread, -⟩ := sound_condition _ _ _ he
  obtain ⟨r, rest₃, hc₁, hr, ha⟩ := (accepts_expect_bind (by simp)).mp ha
  obtain ⟨_, c₂, hb, ha⟩ := accepts_bind.mp ha
  obtain ⟨us, hrest₃, b, rfl, hbody, hopen⟩ := h _ _ _ hb
  obtain ⟨rfl, rfl⟩ := accepts_pure.mp ha
  refine ⟨kw :: l :: (ts ++ r :: us), ?_, .whileLoop hms hkw hl hread hr hbody, fun ho => hopen ?_⟩
  · have : rest₁ = l :: rest₂ := hrest₁
    have : rest₂ = ts ++ c₁.ahead := hrest₂
    have : rest₃ = us ++ d.ahead := hrest₃
    simp [*]
  · simpa [Stmt.endsOpen, Stmt.endsOpenIn] using ho

theorem sound_ifElse : Sound s (ifElse statement) (ReadsAfter ms) := by
  intro c st d ha
  unfold ifElse at ha
  obtain ⟨kw, rest₁, hc, hkw, ha⟩ := (accepts_expect_bind (by simp)).mp ha
  obtain ⟨l, rest₂, hrest₁, hl, ha⟩ := (accepts_expect_bind (by simp)).mp ha
  obtain ⟨e, c₁, he, ha⟩ := accepts_bind.mp ha
  obtain ⟨ts, hrest₂, hread, -⟩ := sound_condition _ _ _ he
  obtain ⟨r, rest₃, hc₁, hr, ha⟩ := (accepts_expect_bind (by simp)).mp ha
  obtain ⟨_, c₂, hpos, ha⟩ := accepts_bind.mp ha
  obtain ⟨us, hrest₃, a, rfl, hthen, hopen⟩ := h _ _ _ hpos
  obtain ⟨_, c₃, hneg, ha⟩ := accepts_bind.mp ha
  obtain ⟨rfl, rfl⟩ := accepts_pure.mp ha
  unfold elseBranch at hneg
  have : rest₁ = l :: rest₂ := hrest₁
  have : rest₂ = ts ++ c₁.ahead := hrest₂
  have : rest₃ = us ++ c₂.ahead := hrest₃
  obtain ⟨o, rest₄, hc₂, ⟨ho, hneg⟩ | ⟨ho, hneg⟩⟩ := (accepts_accept_bind (by simp)).mp hneg
  · obtain ⟨vs, hrest₄, b, rfl, helse, hopen'⟩ := h _ _ _ hneg
    have hclosed : a.endsOpen = false := by
      by_contra hne
      exact hopen (by simpa using hne) o (by simp [hc₂]) ho
    refine ⟨kw :: l :: (ts ++ r :: (us ++ o :: vs)), ?_, .ifElse hms hkw hl hread hr hthen hclosed ho helse,
      fun ho => hopen' ?_⟩
    · have : rest₄ = vs ++ d.ahead := hrest₄
      simp [*]
    · simpa [Stmt.endsOpen, Stmt.endsOpenIn] using ho
  · obtain ⟨rfl, rfl⟩ := accepts_pure.mp hneg
    refine ⟨kw :: l :: (ts ++ r :: us), by simp [*], .ifThen hms hkw hl hread hr hthen, fun _ t ht => ?_⟩
    rw [hc₂, List.head?_cons, Option.mem_some_iff] at ht
    exact ht ▸ ho

theorem sound_afterModifiers : Sound s (afterModifiers statement ms) (ReadsSome ms) := by
  intro c st d ha
  unfold afterModifiers at ha
  obtain ⟨t, rest, hc, ha⟩ := accepts_peek_bind.mp ha
  have hsome : ∀ (ts : List Token) (st : Stmt) (rest : List Token), ReadsAfter ms ts st rest →
      ReadsSome ms ts (some st) rest := fun _ st _ hr => ⟨st, rfl, hr⟩
  simp only [accepts_ite] at ha
  split at ha
  · exact sound_map (sound_classDecl h hms) hsome _ _ _ ha
  split at ha
  · next htype =>
    obtain ⟨likely, c', hlikely, hrest⟩ := accepts_bind.mp ha
    obtain ⟨hahead, hnot⟩ := accepts_isLikelyMethod hlikely
    rw [← hahead] at hc ⊢
    rw [accepts_ite] at hrest
    split at hrest
    · obtain ⟨st, hst, rfl⟩ := accepts_map.mp hrest
      obtain ⟨ts, hts, hread⟩ := sound_methodDecl h hms hc htype hst
      exact ⟨ts, hts, st, rfl, hread⟩
    · next hfalse =>
      obtain ⟨rfl, hv⟩ := hnot (by simpa using hfalse)
      exact sound_declaration hc htype hv hrest
  split at ha
  · exact sound_map (sound_whileLoop h hms) hsome _ _ _ ha
  split at ha
  · exact sound_map (sound_ifElse h hms) hsome _ _ _ ha
  split at ha
  · next hid =>
    obtain ⟨call, c', hcall, ha⟩ := accepts_bind.mp ha
    obtain ⟨hahead, hname⟩ := accepts_isMethodCall hc (by simpa using hid) hcall
    rw [← hahead] at hname ⊢
    rw [accepts_ite] at ha
    split at ha
    · next htrue =>
      obtain ⟨name, l, rest', hc', hl, hname⟩ := hname htrue
      obtain ⟨st, hst, rfl⟩ := accepts_map.mp ha
      obtain ⟨ts, hts, hread⟩ := sound_methodCall hms hname hl hc' hst
      exact ⟨ts, hts, st, rfl, hread⟩
    · exact sound_assignment hms _ _ _ ha
  split at ha
  · exact sound_map (sound_block h hms) hsome _ _ _ ha
  · exact absurd ha not_accepts_report_bind

omit hms in
theorem sound_statementRule : Sound s (statementRule statement) (ReadsSome []) := by
  intro c st d ha
  obtain ⟨_, c₁, hbegin, ha⟩ := accepts_bind.mp ha
  have hahead : c₁.ahead = c.ahead := accepts_begin hbegin
  obtain ⟨ms, c₂, hm, ha⟩ := accepts_bind.mp ha
  obtain ⟨_, hms, rfl, hmods⟩ := sound_modifiers _ _ _ hm
  obtain ⟨ts, hts, hread⟩ := sound_afterModifiers h hmods _ _ _ ha
  exact ⟨_ ++ ts, by rw [← hahead, hms, hts, List.append_assoc], hread⟩

end

theorem sound_statement : Sound s statement (ReadsSome []) := sound_fix fun _ => sound_statementRule

/-- What is accepted as a program reads as one, up to the next end of the input. -/
theorem sound_program {c d : Cursor} {p : Program} (ha : Accepts s program c p d) :
    ∃ ts, c.ahead = ts ++ d.ahead ∧ ReadsProgram ts p ∧ ∃ t rest, d.ahead = t :: rest ∧ t.kind = .eof := by
  obtain ⟨_, c₁, hbegin, ha⟩ := accepts_bind.mp ha
  have hc : c₁ = c := accepts_beginProgram hbegin
  obtain ⟨l, c₂, hl, ha⟩ := accepts_bind.mp ha
  obtain ⟨rfl, rfl⟩ := accepts_pure.mp ha
  obtain ⟨body, hbody, rfl, hts, t, rest, hd, ht⟩ := sound_repeatWhile sound_statement hl
  exact ⟨_, hc ▸ hts, ⟨body, hbody, rfl, reduceOption_map_some _ body⟩, t, rest, hd, by simpa using ht⟩

end Curly.Parser
