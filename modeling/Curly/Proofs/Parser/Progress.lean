import Curly.Parser.Report
import Curly.Proofs.Parser.Yields

/-! Every rule comes to a value, unless the parse is interrupted, and a rule that is repeated or called by itself reads a
    token first, so `noProgress` never stops a parse. Main statements: `yields_statement`, `yields_program`. -/

namespace Curly

/-- The second cursor stands at or after the first, and after it unless that stands at an end of the input. -/
structure Advances (c d : Cursor) : Prop where
  onward : Onward c d
  moves : c.stop.length < c.ahead.length → d.ahead.length < c.ahead.length

namespace Advances
variable {c d e : Cursor}

theorem isOpen (h : Advances c d) (hc : c.Open) : d.Open := h.onward.isOpen hc

theorem trans (h : Advances c d) (h' : Onward d e) : Advances c e :=
  ⟨h.onward.trans h', fun hc => Nat.lt_of_le_of_lt h'.length_le (h.moves hc)⟩

/-- Whoever stands after a later cursor stands after the earlier one. -/
theorem of_onward (h : Onward c d) (h' : Advances d e) : Advances c e := by
  refine ⟨h.trans h'.onward, fun hc => ?_⟩
  have hd := h.length_le
  have he := h'.onward.length_le
  have hstop : d.stop.length = c.stop.length := by rw [h.stop]
  by_cases hn : d.stop.length < d.ahead.length
  · exact Nat.lt_of_lt_of_le (h'.moves hn) hd
  · omega

/-- Reading the current token. -/
theorem next (c : Cursor) : Advances c c.next := by
  refine ⟨.next c, fun h => ?_⟩
  obtain ⟨ahead, n⟩ := c
  cases ahead with
  | nil => simp [Cursor.stop] at h
  | cons t rest =>
    by_cases ht : t.kind = .eof
    · simp [Cursor.stop, ht] at h
    · simp [Cursor.next, ht]

end Advances

namespace Parser
variable {s : Setting}

/-- A token that is no end of the input stands before the next end. -/
theorem not_atEnd {c : Cursor} (hc : c.Open) (h : (s.current c).kind ≠ .eof) : c.stop.length < c.ahead.length := by
  obtain ⟨ahead, n⟩ := c
  obtain ⟨t, rest, rfl⟩ := hc.ahead
  have ht : t.kind ≠ .eof := h
  rw [← (Onward.cons (m := n) (n := n) ht).stop]
  exact Nat.lt_succ_of_le (Cursor.length_stop_le ⟨rest, n⟩)

/-! ### Repetition -/

/-- Repetition ends where the current token does not let it go on. -/
theorem yields_repeatWhile {α : Type} {go : TokenKind → Bool} {p : Parser α} (hgo : go .eof = false) (c : Cursor)
    (hc : c.Open)
    (hp : ∀ d, Onward c d → go (s.current d).kind → Yields p s d fun _ e _ => Advances d e) :
    Yields (repeatWhile go p) s c fun _ d _ => Onward c d ∧ go (s.current d).kind = false := by
  refine yields_fix (P := Onward c) (Q := fun _ _ e _ => Onward c e ∧ go (s.current e).kind = false) ?_ c (.refl c)
  intro d hd again ih
  have hdo := hd.isOpen hc
  simp only [yields_bind, yields_peek hdo, yields_ite, yields_pure]
  split
  · next hk =>
    refine (hp d hd hk).mono fun _ e _ he => ih e (hd.trans he.onward) ?_
    exact he.moves (not_atEnd (s := s) hdo fun h => by simp [h, hgo] at hk)
  · next hk => exact ⟨hd, by simpa using hk⟩

/-! ### Expressions -/

section
variable {condition : Parser Expr} (c : Cursor) (hc : c.Open)
  (h : ∀ d, d.Open → d.ahead.length < c.ahead.length → Yields condition s d fun _ e _ => Advances d e)
include hc h

theorem yields_factor : Yields (factor condition) s c fun _ d _ => Advances c d := by
  have hn := Advances.next c
  unfold factor
  simp only [yields_bind, yields_peek hc]
  split <;> simp only [yields_bind, yields_advance hc, yields_report]
  · exact hn
  · simp only [yields_accept, open_next, hc]
    split
    · exact hn.trans (.next _)
    · simp only [Bool.false_eq_true, ↓reduceIte, yields_bind, yields_accept, open_next, hc]
      split
      · exact hn.trans (.next _)
      · exact hn
  · exact hn
  · next hk =>
    refine (h _ (hn.isOpen hc) (hn.moves (not_atEnd (s := s) hc (by simp [hk])))).mono fun _ d _ hd => ?_
    rw [yields_expect (hd.isOpen (hn.isOpen hc))]
    exact (hn.trans hd.onward).trans (.next _)
  · exact hn

omit h in
theorem yields_chain {isOperator : TokenKind → Bool} {operand : Parser Expr} (ho : isOperator .eof = false)
    (h : ∀ d, d.Open → d.ahead.length ≤ c.ahead.length → Yields operand s d fun _ e _ => Advances d e) :
    Yields (chain isOperator operand) s c fun _ d _ => Advances c d := by
  unfold chain
  simp only [yields_bind, yields_pure]
  refine (h c hc (Nat.le_refl _)).mono fun _ d _ hd => ?_
  refine (yields_repeatWhile ho d (hd.isOpen hc) fun e he _ => ?_).mono fun _ e _ he => hd.trans he.1
  have heo := he.isOpen (hd.isOpen hc)
  simp only [yields_bind, yields_pure, yields_advance heo]
  refine (h _ ((Advances.next e).isOpen heo) ?_).mono fun _ f _ hf => (Advances.next e).trans hf.onward
  exact Nat.le_trans (Onward.next e).length_le (Nat.le_trans he.length_le hd.onward.length_le)

theorem yields_expression : Yields (expression condition) s c fun _ d _ => Advances c d :=
  yields_chain c hc rfl fun d hd hle => yields_chain d hd rfl fun e he hle' =>
    yields_factor e he fun f hf hlt => h f hf (Nat.lt_of_lt_of_le hlt (Nat.le_trans hle' hle))

end

theorem yields_condition (c : Cursor) (hc : c.Open) : Yields condition s c fun _ d _ => Advances c d := by
  refine yields_fix (P := Cursor.Open) (Q := fun c _ d _ => Advances c d) ?_ c hc
  intro c hc condition h
  unfold conditionRule
  simp only [yields_bind]
  refine (yields_expression c hc h).mono fun _ d _ hd => ?_
  have hdo := hd.isOpen hc
  simp only [yields_peek hdo, yields_ite, yields_bind, yields_pure, yields_advance hdo]
  split
  · have hn : Advances c d.next := hd.trans (.next d)
    refine (yields_expression _ (hn.isOpen hc) fun e he hlt => h e he ?_).mono fun _ e _ he => hn.trans he.onward
    exact Nat.lt_of_lt_of_le hlt hn.onward.length_le
  · exact hd

theorem yields_value (c : Cursor) (hc : c.Open) : Yields (expression condition) s c fun _ d _ => Advances c d :=
  yields_expression c hc fun d hd _ => yields_condition d hd

/-! ### Looking ahead and skipping -/

theorem yields_continuesCall (c : Cursor) (hc : c.Open) : Yields continuesCall s c fun _ d _ => Onward c d := by
  refine yields_fix (P := Cursor.Open) (Q := fun c _ d _ => Onward c d) ?_ c hc
  intro c hc again h
  simp only [yields_bind, yields_accept hc]
  split
  · next hk =>
    have hn := Advances.next c
    simp only [↓reduceIte, yields_bind, yields_accept, open_next, hc]
    split
    · have hn' := hn.trans (.next c.next)
      refine (h _ (hn'.isOpen hc) (hn'.moves (not_atEnd (s := s) hc (by simp [hk])))).mono fun _ d _ hd => ?_
      exact hn'.onward.trans hd
    · exact hn.onward
  · simp only [Bool.false_eq_true, ↓reduceIte, yields_check hc]
    exact .refl c

theorem yields_isMethodCall (c : Cursor) (hc : c.Open) : Yields isMethodCall s c fun _ d _ => d.ahead = c.ahead := by
  unfold isMethodCall
  simp only [yields_speculate, yields_bind, yields_advance hc]
  exact (yields_continuesCall c.next (open_next.mpr hc)).mono fun _ _ _ _ => trivial

theorem yields_isLikelyMethod (modifiers : List Token) (t : Token) (c : Cursor) (hc : c.Open) :
    Yields (isLikelyMethod modifiers t) s c fun _ d _ => d.ahead = c.ahead := by
  unfold isLikelyMethod namesMethod
  rw [yields_ite]
  split
  · exact yields_pure.mpr rfl
  · simp only [yields_speculate, yields_bind, yields_advance hc, yields_accept, open_next, hc, yields_ite, yields_check,
      yields_pure]
    split <;> simp

theorem yields_dottedName (c : Cursor) (hc : c.Open) : Yields dottedName s c fun _ d _ => Onward c d := by
  refine yields_fix (P := Cursor.Open) (Q := fun c _ d _ => Onward c d) ?_ c hc
  intro c hc again h
  simp only [yields_bind, yields_check hc, yields_ite, yields_pure, yields_advance, yields_check, open_next, hc]
  split
  · next hk =>
    have hn := Advances.next c
    split
    · have hn' := hn.trans (.next c.next)
      refine (h _ (hn'.isOpen hc) (hn'.moves (not_atEnd (s := s) hc fun h => by simp [h] at hk))).mono fun _ d _ hd => ?_
      exact hn'.onward.trans hd
    · exact hn.onward
  · exact .refl c

theorem yields_skipParameters (c : Cursor) (hc : c.Open) : Yields skipParameters s c fun _ d _ => Onward c d := by
  refine yields_fixOver (P := Cursor.Open) (Q := fun c _ _ d _ => Onward c d) ?_ c 0 hc
  intro c depth hc again h
  have hn := Advances.next c
  have skip : (s.current c).kind ≠ .eof → ∀ depth, Yields (again depth) s c.next fun _ d _ => Onward c d :=
    fun hk depth => (h _ depth (hn.isOpen hc) (hn.moves (not_atEnd hc hk))).mono fun _ d _ hd => hn.onward.trans hd
  simp only [yields_bind, yields_peek hc, yields_ite, yields_pure]
  split
  · exact .refl c
  · next hk =>
    split
    · cases depth with
      | zero => exact .refl c
      | succ depth =>
        simp only [yields_bind, yields_advance hc]
        exact skip hk depth
    · simp only [yields_advance hc]
      exact skip hk _

/-! ### Statements without statements in them -/

theorem yields_initializer (c : Cursor) (hc : c.Open) : Yields initializer s c fun _ d _ => Onward c d := by
  unfold initializer
  simp only [yields_bind, yields_accept hc]
  split
  · simp only [↓reduceIte, yields_map]
    exact (yields_value _ (open_next.mpr hc)).mono fun _ d _ hd => (Onward.next c).trans hd.onward
  · exact .refl c

theorem yields_endDeclaration (name : Token) (c : Cursor) (hc : c.Open) :
    Yields (endDeclaration name) s c fun _ d _ => Onward c d := by
  unfold endDeclaration
  simp only [yields_bind, yields_accept hc]
  split
  · exact .next c
  · simp only [Bool.false_eq_true, ↓reduceIte, yields_bind, yields_peek hc, yields_report, yields_resume]
    exact .skip c (skippable_le _ _)

theorem yields_declaration (c : Cursor) (hc : c.Open) : Yields declaration s c fun _ d _ => Advances c d := by
  have hn := Advances.next c
  unfold declaration
  simp only [yields_bind, yields_advance hc, yields_peek, open_next, hc, yields_ite, yields_pure, yields_report,
    yields_advance]
  split
  · have hn' := hn.trans (.next c.next)
    refine (yields_initializer _ (hn'.isOpen hc)).mono fun _ d _ hd => ?_
    have hd' := hn'.trans hd
    exact (yields_endDeclaration _ d (hd'.isOpen hc)).mono fun _ e _ he => hd'.trans he
  · exact hn

theorem yields_separator (c : Cursor) (hc : c.Open) : Yields separator s c fun _ d _ => Onward c d := by
  unfold separator
  simp only [yields_bind, yields_accept hc]
  split
  · exact .next c
  · simp only [Bool.false_eq_true, ↓reduceIte, yields_bind, yields_peek hc, yields_ite, yields_report, yields_pure]
    split <;> exact .refl c

theorem yields_argument (c : Cursor) (hc : c.Open) : Yields argument s c fun _ d _ => Advances c d := by
  unfold argument
  simp only [yields_bind, yields_pure]
  refine (yields_value c hc).mono fun _ d _ hd => ?_
  exact (yields_separator d (hd.isOpen hc)).mono fun _ e _ he => hd.trans he

theorem yields_methodCall (c : Cursor) (hc : c.Open) : Yields methodCall s c fun _ d _ => Advances c d := by
  unfold methodCall
  simp only [yields_bind, yields_peek hc, yields_pure]
  refine (yields_dottedName c hc).mono fun _ d _ hd => ?_
  have hd' := Advances.of_onward hd (.next d)
  rw [yields_expect (hd.isOpen hc)]
  refine (yields_repeatWhile rfl _ (hd'.isOpen hc) fun e he _ =>
    yields_argument e (he.isOpen (hd'.isOpen hc))).mono fun _ e _ he => ?_
  have he' := (hd'.trans he.1).trans (.next e)
  rw [yields_expect (he.1.isOpen (hd'.isOpen hc)), yields_expectSemicolon (he'.isOpen hc)]
  split
  · exact he'.trans (.next _)
  · exact he'

theorem yields_assignment (c : Cursor) (hc : c.Open) : Yields assignment s c fun _ d _ => Advances c d := by
  have hn := Advances.next c
  have hn' := hn.trans (.next c.next)
  have hn'' := hn'.trans (.next c.next.next)
  unfold assignment
  simp only [yields_bind, yields_expect hc, yields_accept, open_next, hc]
  split
  · simp only [↓reduceIte, yields_bind, yields_pure]
    refine (yields_value _ (hn'.isOpen hc)).mono fun _ d _ hd => ?_
    have hd' := hn'.trans hd.onward
    rw [yields_expectSemicolon (hd'.isOpen hc)]
    split
    · exact hd'.trans (.next _)
    · exact hd'
  · simp only [Bool.false_eq_true, ↓reduceIte, yields_bind, yields_accept, open_next, hc]
    split
    · simp only [yields_expectSemicolon, open_next, hc, yields_pure]
      split
      · exact hn''
      · exact hn'
    · split
      · simp only [yields_expectSemicolon, open_next, hc, yields_pure]
        split
        · exact hn''
        · exact hn'
      · exact hn

/-! ### Statements with statements in them -/

section
variable {statement : Parser (Option Stmt)} (c : Cursor) (hc : c.Open)
  (h : ∀ d, d.Open → d.ahead.length < c.ahead.length → Yields statement s d fun _ e _ => Advances d e)
include hc h

/-- The body of a construct of which something was read. -/
theorem yields_statementsUntilBrace {d : Cursor} (hd : Advances c d) :
    Yields (statementsUntilBrace statement) s d fun _ e _ => Advances c e := by
  unfold statementsUntilBrace
  simp only [yields_bind, yields_pure]
  have hdo := hd.isOpen hc
  refine (yields_repeatWhile rfl d hdo fun e he hk => h e (he.isOpen hdo) ?_).mono fun _ e _ he => hd.trans he.1
  -- A statement begins before the end, so what was read before it is not nothing.
  have hlt := not_atEnd (s := s) (he.isOpen hdo) fun h => by simp [h] at hk
  have hstop : e.stop.length = c.stop.length := by rw [he.stop, hd.onward.stop]
  have hed := he.length_le
  by_cases hcn : c.stop.length < c.ahead.length
  · exact Nat.lt_of_le_of_lt hed (hd.moves hcn)
  · have := hd.onward.length_le
    omega

theorem yields_classDecl (modifiers : List Token) :
    Yields (classDecl statement modifiers) s c fun _ d _ => Advances c d := by
  unfold classDecl
  simp only [yields_bind, yields_expect, open_next, hc, yields_pure]
  have hd : Advances c c.next.next.next := ((Advances.next c).trans (.next _)).trans (.next _)
  refine (yields_statementsUntilBrace c hc h hd).mono fun _ e _ he => ?_
  rw [yields_expect (he.isOpen hc)]
  exact he.trans (.next e)

theorem yields_methodDecl (modifiers : List Token) :
    Yields (methodDecl statement modifiers) s c fun _ d _ => Advances c d := by
  unfold methodDecl
  simp only [yields_bind, yields_advance hc, yields_expect, open_next, hc, yields_pure]
  have hd : Advances c c.next.next.next := ((Advances.next c).trans (.next _)).trans (.next _)
  refine (yields_skipParameters _ (hd.isOpen hc)).mono fun _ d _ hd' => ?_
  have hdd : Advances c d.next.next := ((hd.trans hd').trans (.next d)).trans (.next _)
  simp only [yields_expect, open_next, hd'.isOpen (hd.isOpen hc)]
  refine (yields_statementsUntilBrace c hc h hdd).mono fun _ e _ he => ?_
  rw [yields_expect (he.isOpen hc)]
  exact he.trans (.next e)

theorem yields_block : Yields (block statement) s c fun _ d _ => Advances c d := by
  unfold block
  simp only [yields_bind, yields_expect, hc, yields_pure]
  refine (yields_statementsUntilBrace c hc h (.next c)).mono fun _ e _ he => ?_
  rw [yields_expect (he.isOpen hc)]
  exact he.trans (.next e)

omit h in
/-- The condition of a loop or a conditional, in parentheses. -/
theorem yields_test :
    Yields condition s c.next.next fun _ d _ => Advances c d.next ∧ d.Open := by
  have hn : Advances c c.next.next := (Advances.next c).trans (.next _)
  refine (yields_condition _ (hn.isOpen hc)).mono fun _ d _ hd => ?_
  exact ⟨(hn.trans hd.onward).trans (.next d), hd.isOpen (hn.isOpen hc)⟩

theorem yields_whileLoop (hk : c.stop.length < c.ahead.length) :
    Yields (whileLoop statement) s c fun _ d _ => Advances c d := by
  unfold whileLoop
  simp only [yields_bind, yields_expect, open_next, hc, yields_pure]
  refine (yields_test c hc).mono fun _ d _ hd => ?_
  rw [yields_expect hd.2]
  exact (h _ (hd.1.isOpen hc) (hd.1.moves hk)).mono fun _ e _ he => hd.1.trans he.onward

theorem yields_elseBranch {d : Cursor} (hd : Advances c d) (hk : c.stop.length < c.ahead.length) :
    Yields (elseBranch statement) s d fun _ e _ => Advances c e := by
  have hn : Advances c d.next := hd.trans (.next d)
  unfold elseBranch
  simp only [yields_bind, yields_accept (hd.isOpen hc)]
  split
  · exact (h _ (hn.isOpen hc) (hn.moves hk)).mono fun _ e _ he => hn.trans he.onward
  · exact hd

theorem yields_ifElse (hk : c.stop.length < c.ahead.length) :
    Yields (ifElse statement) s c fun _ d _ => Advances c d := by
  unfold ifElse
  simp only [yields_bind, yields_expect, open_next, hc, yields_pure]
  refine (yields_test c hc).mono fun _ d _ hd => ?_
  rw [yields_expect hd.2]
  refine (h _ (hd.1.isOpen hc) (hd.1.moves hk)).mono fun _ e _ he => ?_
  exact (yields_elseBranch c hc h (hd.1.trans he.onward) hk).mono fun _ _ _ hf => hf

theorem yields_afterModifiers (modifiers : List Token) :
    Yields (afterModifiers statement modifiers) s c fun _ d _ => Advances c d := by
  unfold afterModifiers
  simp only [yields_bind, yields_peek hc, yields_ite, yields_map, yields_report, yields_pure]
  split
  · exact yields_classDecl c hc h modifiers
  split
  · refine (yields_isLikelyMethod _ _ c hc).mono fun _ d _ hd => ?_
    have hcd : Onward c d := .of_ahead hd
    have hdo := hcd.isOpen hc
    split
    · refine (yields_methodDecl d hdo (fun e he hlt => h e he (hd ▸ hlt)) modifiers).mono fun _ _ _ he => ?_
      exact .of_onward hcd he
    · exact (yields_declaration d hdo).mono fun _ _ _ he => .of_onward hcd he
  split
  · next hk => exact yields_whileLoop c hc h (not_atEnd (s := s) hc fun h => by simp [h] at hk)
  split
  · next hk => exact yields_ifElse c hc h (not_atEnd (s := s) hc fun h => by simp [h] at hk)
  split
  · refine (yields_isMethodCall c hc).mono fun _ d _ hd => ?_
    have hcd : Onward c d := .of_ahead hd
    have hdo := hcd.isOpen hc
    split
    · exact (yields_methodCall d hdo).mono fun _ _ _ he => .of_onward hcd he
    · exact (yields_assignment d hdo).mono fun _ _ _ he => .of_onward hcd he
  split
  · exact yields_block c hc h
  · rw [yields_advance hc]
    exact .next c

theorem yields_statementRule (hs : s.interruption = none) :
    Yields (statementRule statement) s c fun _ d _ => Advances c d := by
  unfold statementRule
  simp only [yields_bind, yields_begin hs]
  have hb : Onward c ⟨c.ahead, c.begun + 1⟩ := .of_ahead rfl
  have hbo := hb.isOpen hc
  refine (yields_repeatWhile rfl _ hbo fun d hd _ => ?_).mono fun modifiers d _ hd => ?_
  · exact (yields_advance (hd.isOpen hbo)).mpr (.next d)
  · have hcd := hb.trans hd.1
    refine (yields_afterModifiers d (hcd.isOpen hc) (fun e he hlt => h e he ?_) modifiers).mono fun _ e _ he => ?_
    · exact Nat.lt_of_lt_of_le hlt hcd.length_le
    · exact .of_onward hcd he

end

/-- A statement reads at least one token, unless it begins at an end of the input. -/
theorem yields_statement (hs : s.interruption = none) (c : Cursor) (hc : c.Open) :
    Yields statement s c fun _ d _ => Advances c d :=
  yields_fix (P := Cursor.Open) (Q := fun c _ d _ => Advances c d)
    (fun c hc _ h => yields_statementRule c hc h hs) c hc

/-- A program ends where the input ends. -/
theorem yields_program (hs : s.interruption = none) (c : Cursor) (hc : c.Open) :
    Yields program s c fun _ d _ => Onward c d ∧ (s.current d).kind = .eof := by
  unfold program
  simp only [yields_bind, yields_beginProgram hs, yields_pure]
  refine (yields_repeatWhile rfl c hc fun d hd _ => yields_statement hs d (hd.isOpen hc)).mono fun _ d _ hd => ?_
  exact ⟨hd.1, by simpa using hd.2⟩

end Parser

end Curly
