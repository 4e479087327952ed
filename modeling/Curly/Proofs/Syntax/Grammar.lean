import Curly.Syntax.Reading

/-! What is read as a program is a sentence of the grammar with which arguments may end in a comma; and the sentences of
    the symbols of expressions are just what is read as expressions. Main statements: `ReadsProgram.matches`,
    `matches_level_iff`. -/

namespace Curly

namespace Grammar

/-! ### Sentences of rules -/

section
variable {production : Symbol → Rule} {r r' : Rule} {ks : List TokenKind} {k : TokenKind}

theorem matches_both : Matches production (.both r r') ks ↔
    ∃ us vs, ks = us ++ vs ∧ Matches production r us ∧ Matches production r' vs := by
  constructor
  · intro h
    cases h with
    | both h h' => exact ⟨_, _, rfl, h, h'⟩
  · rintro ⟨us, vs, rfl, h, h'⟩
    exact .both h h'

theorem matches_either : Matches production (.either r r') ks ↔ Matches production r ks ∨ Matches production r' ks := by
  constructor
  · intro h
    cases h with
    | left h => exact .inl h
    | right h => exact .inr h
  · rintro (h | h)
    · exact .left h
    · exact .right h

theorem matches_empty : Matches production .empty ks ↔ ks = [] := by
  constructor
  · intro h
    cases h
    rfl
  · rintro rfl
    exact .empty

theorem matches_kind : Matches production (.kind k) ks ↔ ks = [k] := by
  constructor
  · intro h
    cases h with
    | token hk => simpa using hk
  · rintro rfl
    exact .token (by simp)

end

namespace Matches
variable {production : Symbol → Rule} {r : Rule} {rs : List Rule} {ks ks' : List TokenKind} {k : TokenKind}

theorem nil : Matches production (.sequence []) [] := .empty

theorem cons (h : Matches production r ks) (h' : Matches production (.sequence rs) ks') :
    Matches production (.sequence (r :: rs)) (ks ++ ks') := h.both h'

theorem last (h : Matches production r ks) : Matches production (.sequence [r]) ks := by
  simpa using h.cons .nil

theorem consToken {admits : TokenKind → Bool} (hk : admits k) (h : Matches production (.sequence rs) ks) :
    Matches production (.sequence (.token admits :: rs)) (k :: ks) := .both (.token hk) h

theorem consKind {k : TokenKind} (h : Matches production (.sequence rs) ks) :
    Matches production (.sequence (.kind k :: rs)) (k :: ks) := .both (.token (by simp)) h

theorem absent : Matches production (.optional r) [] := .right .empty

theorem present (h : Matches production r ks) : Matches production (.optional r) ks := .left h

theorem choose (hr : r ∈ rs) (h : Matches production r ks) : Matches production (.choice rs) ks := by
  induction rs with
  | nil => cases hr
  | cons r' rs ih =>
    rcases List.mem_cons.mp hr with rfl | hr
    · exact .left h
    · exact .right (ih hr)

theorem flatMap {α : Type} {f : α → List TokenKind} {l : List α} (h : ∀ x ∈ l, Matches production r (f x)) :
    Matches production (.many r) (l.flatMap f) := by
  induction l with
  | nil => exact .done
  | cons x l ih =>
    obtain ⟨hx, hl⟩ := List.forall_mem_cons.mp h
    exact .again hx (ih hl)

theorem snoc (h : Matches production (.many r) ks) (h' : Matches production r ks') :
    Matches production (.many r) (ks ++ ks') := by
  generalize hr : Rule.many r = rule at h
  induction h with
  | done =>
    cases hr
    rw [List.nil_append, ← List.append_nil ks']
    exact .again h' .done
  | again h _ _ ih =>
    cases hr
    rw [List.append_assoc]
    exact .again h (ih rfl)
  | _ => cases hr

/-- Operands and operators in turn, with one more of each. -/
theorem chain {admits : TokenKind → Bool} (h : Matches production (.sequence [r, .many (.sequence [.token admits, r])]) ks)
    (hk : admits k) (h' : Matches production r ks') :
    Matches production (.sequence [r, .many (.sequence [.token admits, r])]) (ks ++ k :: ks') := by
  obtain ⟨us, _, rfl, hfirst, h⟩ := matches_both.mp h
  obtain ⟨vs, _, rfl, hmore, h⟩ := matches_both.mp h
  obtain rfl := matches_empty.mp h
  rw [List.append_nil, List.append_assoc]
  exact hfirst.cons (hmore.snoc (.consToken hk h'.last)).last

end Matches

theorem matches_symbol {production : Symbol → Rule} {s : Symbol} {ks : List TokenKind} :
    Matches production (.symbol s) ks ↔ Matches production (production s) ks := by
  constructor
  · intro h
    cases h with
    | symbol h => exact h
  · exact .symbol

end Grammar

open Grammar

variable {finalComma : Bool}

/-! ### Expressions -/

/-- The symbol of expressions of a level. -/
def Level.symbol : Level → Symbol
  | factor => .factor
  | term => .term
  | expression => .expression
  | condition => .condition

theorem ReadsExpr.matches {level : Level} {ts : List Token} {e : Expr} (h : ReadsExpr level ts e) :
    Matches (production finalComma) (.symbol level.symbol) (ts.map Token.kind) := by
  refine matches_symbol.mpr ?_
  induction h with
  | @number t hk =>
    rw [List.map_singleton, hk]
    exact .left (matches_kind.mpr rfl)
  | @identifier t hk =>
    rw [List.map_singleton, hk]
    exact .right (.left (.consKind (.last .absent)))
  | @postIncrement t u hk hu =>
    rw [List.map_cons, List.map_singleton, hk, hu]
    exact .right (.left (.consKind (.last (.present (.left (matches_kind.mpr rfl))))))
  | @postDecrement t u hk hu =>
    rw [List.map_cons, List.map_singleton, hk, hu]
    exact .right (.left (.consKind (.last (.present (.right (.left (matches_kind.mpr rfl)))))))
  | @string t hk =>
    rw [List.map_singleton, hk]
    exact .right (.right (.left (matches_kind.mpr rfl)))
  | @parenthesized l r ts e hl _ hr ih =>
    rw [List.map_cons, List.map_append, List.map_singleton, hl, hr]
    exact .right (.right (.right (.left (.consKind (.cons (matches_symbol.mpr ih) (.consKind .nil))))))
  | @ofFactor ts e _ ih | @ofTerm ts e _ ih =>
    rw [← List.append_nil (ts.map Token.kind)]
    exact (matches_symbol.mpr ih).cons (.last .done)
  | @product ts us o e f _ ho _ ih ih' | @sum ts us o e f _ ho _ ih ih' =>
    rw [List.map_append, List.map_cons]
    exact Matches.chain ih ho (matches_symbol.mpr ih')
  | @ofExpression ts e _ ih =>
    rw [← List.append_nil (ts.map Token.kind)]
    exact (matches_symbol.mpr ih).cons (.last .absent)
  | @comparison ts us o e f _ ho _ ih ih' =>
    rw [List.map_append, List.map_cons]
    exact (matches_symbol.mpr ih).cons (.last (.present (.consToken ho (.last (matches_symbol.mpr ih')))))

/-! ### Sentences as expressions -/

namespace Grammar

/-- The tokens are put together as the rule says, and those of expressions are read as such. -/
def Rule.Reads : Rule → List Token → Prop
  | .empty, ts => ts = []
  | .token admits, ts => ∃ t, ts = [t] ∧ admits t.kind
  | .balanced, _ => True
  | .symbol s, ts => ∀ level : Level, s = level.symbol → ∃ e, ReadsExpr level ts e
  | .both r r', ts => ∃ us vs, ts = us ++ vs ∧ r.Reads us ∧ r'.Reads vs
  | .either r r', ts => r.Reads ts ∨ r'.Reads ts
  | .many r, ts => ∃ l : List (List Token), ts = l.flatten ∧ ∀ x ∈ l, r.Reads x

variable {ts : List Token}

namespace Rule.Reads

theorem kind {k : TokenKind} (h : (Rule.kind k).Reads ts) : ∃ t, ts = [t] ∧ t.kind = k := by
  obtain ⟨t, rfl, hk⟩ := h
  exact ⟨t, rfl, by simpa using hk⟩

theorem last {r : Rule} (h : (Rule.sequence [r]).Reads ts) : r.Reads ts := by
  obtain ⟨us, _, rfl, h, rfl⟩ := h
  rwa [List.append_nil]

/-- Operands and operators in turn are an expression, taken from the left. -/
theorem chain {admits : TokenKind → Bool} {level inner : Level}
    (hfirst : ∀ {ts e}, ReadsExpr inner ts e → ReadsExpr level ts e)
    (hnext : ∀ {ts us o e f}, ReadsExpr level ts e → admits o.kind → ReadsExpr inner us f →
      ReadsExpr level (ts ++ o :: us) (.binary o.lexeme e f))
    (h : (Rule.sequence [.symbol inner.symbol, .many (.sequence [.token admits, .symbol inner.symbol])]).Reads ts) :
    ∃ e, ReadsExpr level ts e := by
  obtain ⟨us, _, rfl, hus, hmore⟩ := h
  obtain ⟨l, rfl, hl⟩ := hmore.last
  obtain ⟨e, he⟩ := hus inner rfl
  replace he := hfirst he
  clear hus hmore
  -- What was read so far is the left operand of what follows.
  induction l generalizing us e with
  | nil => exact ⟨e, by simpa using he⟩
  | cons x l ih =>
    obtain ⟨hx, hrest⟩ := List.forall_mem_cons.mp hl
    obtain ⟨_, vs, rfl, ⟨o, rfl, ho⟩, hvs⟩ := hx
    obtain ⟨f, hf⟩ := hvs.last inner rfl
    rw [List.flatten_cons, ← List.append_assoc]
    exact ih _ hrest _ (hnext he ho hf)

theorem condition (h : (production finalComma .condition).Reads ts) : ∃ e, ReadsExpr .condition ts e := by
  obtain ⟨us, _, rfl, hus, hmore⟩ := h
  obtain ⟨e, he⟩ := hus .expression rfl
  obtain hmore | rfl := hmore.last
  · obtain ⟨_, vs, rfl, ⟨o, rfl, ho⟩, hvs⟩ := hmore
    obtain ⟨f, hf⟩ := hvs.last .expression rfl
    exact ⟨_, .comparison he ho hf⟩
  · rw [List.append_nil]
    exact ⟨e, .ofExpression he⟩

theorem factor (h : (production finalComma .factor).Reads ts) : ∃ e, ReadsExpr .factor ts e := by
  rcases h with h | h | h | h | ⟨_, _, h⟩
  · obtain ⟨t, rfl, hk⟩ := h.kind
    exact ⟨_, .number hk⟩
  · obtain ⟨_, vs, rfl, hname, h⟩ := h
    obtain ⟨t, rfl, hk⟩ := hname.kind
    rcases h.last with (h | h | ⟨_, _, h⟩) | rfl
    · obtain ⟨u, rfl, hu⟩ := h.kind
      exact ⟨_, .postIncrement hk hu⟩
    · obtain ⟨u, rfl, hu⟩ := h.kind
      exact ⟨_, .postDecrement hk hu⟩
    · cases h
    · exact ⟨_, .identifier hk⟩
  · obtain ⟨t, rfl, hk⟩ := h.kind
    exact ⟨_, .string hk⟩
  · obtain ⟨_, _, rfl, hopens, us, _, rfl, hus, h⟩ := h
    obtain ⟨l, rfl, hl⟩ := hopens.kind
    obtain ⟨r, rfl, hr⟩ := h.last.kind
    obtain ⟨e, he⟩ := hus .condition rfl
    exact ⟨e, .parenthesized hl he hr⟩
  · cases h

end Rule.Reads

theorem Matches.reads {r : Rule} {ks : List TokenKind} (h : Matches (production finalComma) r ks)
    (hts : ts.map Token.kind = ks) : r.Reads ts := by
  induction h generalizing ts with
  | empty => exact List.map_eq_nil_iff.mp hts
  | token hk =>
    obtain ⟨t, rfl, rfl⟩ := List.map_eq_singleton_iff.mp hts
    exact ⟨t, rfl, hk⟩
  | balanced => trivial
  | symbol _ ih =>
    rintro level rfl
    cases level with
    | factor => exact (ih hts).factor
    | term => exact Rule.Reads.chain .ofFactor .product (ih hts)
    | expression => exact Rule.Reads.chain .ofTerm .sum (ih hts)
    | condition => exact (ih hts).condition
  | both _ _ ih ih' =>
    obtain ⟨us, vs, rfl, hus, hvs⟩ := List.map_eq_append_iff.mp hts
    exact ⟨us, vs, rfl, ih hus, ih' hvs⟩
  | left _ ih => exact .inl (ih hts)
  | right _ ih => exact .inr (ih hts)
  | done => exact ⟨[], List.map_eq_nil_iff.mp hts, fun _ hx => by cases hx⟩
  | again _ _ ih ih' =>
    obtain ⟨us, vs, rfl, hus, hvs⟩ := List.map_eq_append_iff.mp hts
    obtain ⟨l, rfl, hl⟩ := ih' hvs
    exact ⟨us :: l, rfl, List.forall_mem_cons.mpr ⟨ih hus, hl⟩⟩

/-- The sentences of a level are the tokens that are read as expressions of the level. -/
theorem matches_level_iff {level : Level} :
    Matches (production finalComma) (.symbol level.symbol) (ts.map Token.kind) ↔ ∃ e, ReadsExpr level ts e :=
  ⟨fun h => h.reads rfl level rfl, fun ⟨_, h⟩ => h.matches⟩

end Grammar

/-! ### Statements -/

/-- A dotted name, as it is read in front of arguments. -/
theorem DottedName.matches {ts : List Token} (h : DottedName ts) (finalComma : Bool) :
    ∃ ks, ts.map Token.kind = .identifier :: ks ∧
      Matches (production finalComma) (.many (.sequence [.kind .dot, .kind .identifier])) ks := by
  induction h with
  | single h => exact ⟨[], by simp [h], .done⟩
  | cons h hd _ ih =>
    obtain ⟨ks, hks, hm⟩ := ih
    refine ⟨[.dot, .identifier] ++ ks, by simp [h, hd, hks], .again ?_ hm⟩
    exact .consKind (.consKind .nil)

/-- After the first argument come commas and arguments, perhaps a comma in the end. -/
theorem ReadsArguments.matches {ts : List Token} {es : List Expr} (h : ReadsArguments ts es) :
    Matches (production true) (.optional (.sequence [.symbol .expression,
      .many (.sequence [.kind .comma, .symbol .expression]), .optional (.kind .comma)])) (ts.map Token.kind) := by
  induction h with
  | none => exact .absent
  | @last ts e h =>
    rw [← List.append_nil (ts.map Token.kind)]
    exact .present (h.matches.cons (.cons .done (.last .absent)))
  | @cons ts us o e es h ho _ ih =>
    rw [List.map_append, List.map_cons, ho]
    refine .present (h.matches.cons ?_)
    rcases matches_either.mp ih with ih | ih
    · obtain ⟨vs, _, hvs, hfirst, ih⟩ := matches_both.mp ih
      obtain ⟨ws, xs, rfl, hmore, hcomma⟩ := matches_both.mp ih
      have hagain : Matches (production true) _ ((.comma :: vs) ++ ws) := .again (.consKind hfirst.last) hmore
      rw [hvs, ← List.cons_append, ← List.append_assoc]
      exact hagain.cons hcomma
    · rw [matches_empty.mp ih]
      exact Matches.done.cons (.last (.present (matches_kind.mpr rfl)))

theorem Modifiers.matches {ms : List Token} (h : Modifiers ms) :
    Matches (production finalComma) (.many (.token TokenKind.isModifier)) (ms.map Token.kind) := by
  rw [List.map_eq_flatMap]
  exact .flatMap fun m hm => .token (h m hm)

/-- A statement is one of the alternatives, behind modifiers. -/
theorem matches_statement {ms ts : List Token} (s : Symbol) (hms : Modifiers ms)
    (hs : s ∈ [Symbol.classDecl, .methodDecl, .declaration, .whileLoop, .ifElse, .block, .methodCall, .assignment])
    (h : Matches (production finalComma) (production finalComma s) (ts.map Token.kind)) :
    Matches (production finalComma) (.symbol .statement) ((ms ++ ts).map Token.kind) := by
  rw [List.map_append]
  exact matches_symbol.mpr (hms.matches.cons (.last (.choose (List.mem_map_of_mem hs) (matches_symbol.mpr h))))

theorem matches_body {body : List (List Token × Stmt)}
    (h : ∀ x ∈ body, Matches (production finalComma) (.symbol .statement) (x.1.map Token.kind)) :
    Matches (production finalComma) (.many (.symbol .statement)) ((body.flatMap Prod.fst).map Token.kind) := by
  rw [List.map_flatMap]
  exact .flatMap h

theorem ReadsStmt.matches {ts : List Token} {st : Stmt} (h : ReadsStmt ts st) :
    Matches (production true) (.symbol .statement) (ts.map Token.kind) := by
  induction h with
  | classDecl hms hkw hname hl _ hr ih =>
    refine matches_statement .classDecl hms (by simp) ?_
    simp only [List.map_cons, List.map_append, List.map_nil, hkw, hname, hl, hr]
    exact .consKind (.consKind (.consKind (.cons (matches_body ih) (.consKind .nil))))
  | methodDecl hms htype hname hl hps hr hlb _ hrb ih =>
    refine matches_statement .methodDecl hms (by simp) ?_
    simp only [List.map_cons, List.map_append, List.map_nil, hname, hl, hr, hlb, hrb]
    refine .consToken htype (.consKind (.consKind (.cons (.balanced hps) (.consKind (.consKind ?_)))))
    exact .cons (matches_body ih) (.consKind .nil)
  | declaration htype hvoid hname hsemi =>
    refine matches_statement .declaration modifiers_nil (by simp) ?_
    simp only [List.map_cons, List.map_nil, hname, hsemi]
    exact .consToken htype (.consKind (Matches.absent.cons (.consKind .nil)))
  | initialized htype hvoid hname ho h hsemi =>
    refine matches_statement .declaration modifiers_nil (by simp) ?_
    simp only [List.map_cons, List.map_append, List.map_nil, hname, ho, hsemi]
    exact .consToken htype (.consKind (.cons (.present (.consKind h.matches.last)) (.consKind .nil)))
  | whileLoop hms hkw hl he hr _ ih =>
    refine matches_statement .whileLoop hms (by simp) ?_
    simp only [List.map_cons, List.map_append, hkw, hl, hr]
    exact .consKind (.consKind (he.matches.cons (.consKind ih.last)))
  | @ifThen ms ts us kw l r e a hms hkw hl he hr _ ih =>
    refine matches_statement .ifElse hms (by simp) ?_
    simp only [List.map_cons, List.map_append, hkw, hl, hr]
    rw [← List.append_nil (us.map Token.kind)]
    exact .consKind (.consKind (he.matches.cons (.consKind (ih.cons (.last .absent)))))
  | ifElse hms hkw hl he hr _ _ ho _ ih ih' =>
    refine matches_statement .ifElse hms (by simp) ?_
    simp only [List.map_cons, List.map_append, hkw, hl, hr, ho]
    exact .consKind (.consKind (he.matches.cons (.consKind (ih.cons (.last (.present (.consKind ih'.last)))))))
  | block hms hl _ hr ih =>
    refine matches_statement .block hms (by simp) ?_
    simp only [List.map_cons, List.map_append, List.map_nil, hl, hr]
    exact .consKind (.cons (matches_body ih) (.consKind .nil))
  | @methodCall ms name ts l r semi es hms hname hl h hr hsemi =>
    refine matches_statement .methodCall hms (by simp) ?_
    obtain ⟨ks, hks, hmore⟩ := hname.matches true
    have harguments : Matches (production true) (production true .arguments)
        (.leftParen :: (ts.map Token.kind ++ [.rightParen])) := .consKind (h.matches.cons (.consKind .nil))
    have hcall := hmore.cons ((matches_symbol.mpr harguments).cons (.consKind (k := .semicolon) .nil))
    simp only [List.map_cons, List.map_append, List.map_nil, hks, hl, hr, hsemi]
    simp only [List.cons_append, List.append_assoc, List.nil_append] at hcall ⊢
    exact .consKind hcall
  | assignment hms hname ho h hsemi =>
    refine matches_statement .assignment hms (by simp) ?_
    simp only [List.map_cons, List.map_append, List.map_nil, hname, ho, hsemi]
    exact .consKind (.cons (.left (.consKind h.matches.last)) (.consKind .nil))
  | increment hms hname ho hsemi =>
    refine matches_statement .assignment hms (by simp) ?_
    simp only [List.map_cons, List.map_nil, hname, ho, hsemi]
    exact .consKind (.cons (.right (.left (matches_kind.mpr rfl))) (.consKind .nil))
  | decrement hms hname ho hsemi =>
    refine matches_statement .assignment hms (by simp) ?_
    simp only [List.map_cons, List.map_nil, hname, ho, hsemi]
    exact .consKind (.cons (.right (.right (.left (matches_kind.mpr rfl)))) (.consKind .nil))

theorem ReadsProgram.matches {ts : List Token} {p : Program} (h : ReadsProgram ts p) :
    Grammar.Program true (ts.map Token.kind) := by
  obtain ⟨body, hbody, rfl, -⟩ := h
  exact matches_symbol.mpr (matches_body fun x hx => (hbody x hx).matches)

end Curly
