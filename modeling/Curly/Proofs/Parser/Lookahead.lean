import Curly.Proofs.Parser.Completeness
import Curly.Proofs.Parser.Interruption
import Curly.Proofs.Parser.Mistakes
import Curly.Proofs.Parser.Steps

/-! What is seen ahead is what is read. The two questions that are settled by looking ahead leave no trace, and where the
    form of a statement was chosen, the tokens by which it was chosen are read without a mistake. Main statement:
    `lookahead_agrees`. -/

namespace Curly

/-- A dotted name comes next, and the parenthesis of a call. -/
def ReadsCall (ahead name : List Token) : Prop :=
  ∃ l rest, ahead = name ++ l :: rest ∧ DottedName name ∧ l.kind = .leftParen

/-- A call would come next if the next token were a name; and it is no end of the input. -/
def TakenForCall (ahead : List Token) : Prop :=
  ∃ t rest name, ahead = t :: rest ∧ t.kind ≠ .eof ∧ ReadsCall ({ t with kind := .identifier } :: rest) name

/-- Behind the next token, a name comes and a parenthesis. -/
def NamesMethod (ahead : List Token) : Prop :=
  ∃ t name l rest, ahead = t :: name :: l :: rest ∧ t.kind ≠ .eof ∧ name.kind = .identifier ∧ l.kind = .leftParen

theorem ReadsCall.head {ahead name : List Token} (h : ReadsCall ahead name) :
    ∃ t rest, ahead = t :: rest ∧ t.kind = .identifier := by
  obtain ⟨l, rest, rfl, hname, -⟩ := h
  obtain ⟨t, ts, rfl, ht⟩ := hname.head
  exact ⟨t, ts ++ l :: rest, rfl, ht⟩

theorem ReadsCall.second {t u : Token} {rest name : List Token} (h : ReadsCall (t :: u :: rest) name) :
    u.kind = .dot ∨ u.kind = .leftParen := by
  obtain ⟨l, more, heq, hname, hl⟩ := h
  cases hname with
  | single =>
    cases heq
    exact .inr hl
  | cons _ hdot _ =>
    cases heq
    exact .inl hdot

theorem takenForCall_cons {t : Token} {rest : List Token} : TakenForCall (t :: rest) ↔
    t.kind ≠ .eof ∧ ∃ name, ReadsCall ({ t with kind := .identifier } :: rest) name := by
  constructor
  · rintro ⟨t, rest, name, heq, hk, hname⟩
    cases heq
    exact ⟨hk, name, hname⟩
  · rintro ⟨hk, name, hname⟩
    exact ⟨t, rest, name, rfl, hk, hname⟩

theorem namesMethod_cons {t : Token} {rest : List Token} : NamesMethod (t :: rest) ↔ t.kind ≠ .eof ∧
    ∃ name l more, rest = name :: l :: more ∧ name.kind = .identifier ∧ l.kind = .leftParen := by
  constructor
  · rintro ⟨t, name, l, more, heq, hk, hname⟩
    cases heq
    exact ⟨hk, name, l, more, rfl, hname⟩
  · rintro ⟨hk, name, l, more, rfl, hname⟩
    exact ⟨t, name, l, more, rfl, hk, hname⟩

/-- A name is taken for what it is. -/
theorem takenForCall_iff {t : Token} {rest : List Token} (ht : t.kind = .identifier) :
    TakenForCall (t :: rest) ↔ ∃ name, ReadsCall (t :: rest) name := by
  have hname : { t with kind := .identifier } = t := by rw [← ht]
  rw [takenForCall_cons, hname, ht]
  simp

theorem DottedName.ne_eof {name : List Token} (h : DottedName name) : ∀ t ∈ name, t.kind ≠ .eof := by
  induction h with
  | single ht => simp [ht]
  | cons ht hdot _ ih => simpa [ht, hdot] using ih

namespace Parser
variable {α : Type} {s : Setting} {c d : Cursor}

/-! ### The two questions -/

theorem accepts_of_done {p : Parser α} {a : α} {log : List Event} (hp : FindsOnly (fun _ => False) p)
    (h : p s c = .done a d log) : Accepts s p c a d := by
  have hnone := hp s c
  rw [h] at hnone
  exact ⟨log, h, flawless_iff.mpr (List.eq_nil_iff_forall_not_mem.mpr hnone)⟩

/-- A parser that gives back what it read, and finds nothing wrong, is accepted where it began. -/
theorem accepts_of_yields {p : Parser α} (hs : Steady p) (hp : FindsOnly (fun _ => False) p)
    (h : Yields p s c fun _ d _ => d.ahead = c.ahead) : ∃ a, Accepts s p c a c := by
  obtain ⟨a, d, log, hd, hahead⟩ := yields_iff.mp h
  have hbegun := (hs s c).1.begun
  rw [hd] at hbegun
  obtain rfl : d = c := by
    cases d
    cases c
    exact congrArg₂ Cursor.mk hahead hbegun
  exact ⟨a, accepts_of_done hp hd⟩

/-- What is asked behind the next token. An end of the input is not passed. -/
theorem accepts_behind {p : Parser α} {a : α} (h : Accepts s (speculate do let _ ← advance; p) c a d) :
    ∃ t rest, c.ahead = t :: rest ∧
      ∃ e, t.kind = .eof ∧ Accepts s p c a e ∨ t.kind ≠ .eof ∧ Accepts s p ⟨rest, c.begun⟩ a e := by
  obtain ⟨e, h, -⟩ := accepts_speculate.mp h
  obtain ⟨t, rest, ht, h⟩ := accepts_advance_bind.mp h
  refine ⟨t, rest, ht, e, ?_⟩
  by_cases hk : t.kind = .eof
  · have hnext : c.next = c := by simp [Cursor.next, ht, hk]
    exact .inl ⟨hk, hnext ▸ h⟩
  · exact .inr ⟨hk, next_of_ahead ht hk ▸ h⟩

/-- Behind any name, the rest of a dotted name is found just if it is there, with the parenthesis. -/
theorem accepts_continuesCall_iff {t : Token} {b : Bool} (ht : t.kind = .identifier)
    (h : Accepts s continuesCall c b d) : b = true ↔ ∃ name, ReadsCall (t :: c.ahead) name := by
  constructor
  · rintro rfl
    obtain ⟨tail, l, rest, hahead, hl, hname⟩ := accepts_continuesCall h
    exact ⟨t :: tail, l, rest, congrArg (t :: ·) hahead, hname t ht, hl⟩
  · rintro ⟨name, l, rest, hahead, hname, hl⟩
    obtain ⟨u, tail, rfl, -, ha⟩ := accepts_continuesCall_of (s := s) hname rest c.begun hl
    obtain ⟨rfl, htail : c.ahead = tail ++ l :: rest⟩ := List.cons.inj hahead
    rw [← htail] at ha
    exact (h.unique ha).1

/-- The first token is not looked at: any is taken for a name that is no end of the input. -/
theorem accepts_isMethodCall_iff {b : Bool} (h : Accepts s isMethodCall c b d) : b = true ↔ TakenForCall c.ahead := by
  obtain ⟨t, rest, ht, e, ⟨hk, h⟩ | ⟨hk, h⟩⟩ := accepts_behind h
  · rw [accepts_continuesCall_iff (t := { t with kind := .identifier }) rfl h, ht, takenForCall_cons]
    refine iff_of_false ?_ fun hcall => hcall.1 hk
    rintro ⟨name, hname⟩
    rcases hname.second with hdot | hl
    · cases hk.symm.trans hdot
    · cases hk.symm.trans hl
  · rw [accepts_continuesCall_iff (t := { t with kind := .identifier }) rfl h, ht, takenForCall_cons,
      and_iff_right hk]

/-- A call is found just if it would come next behind any name; so where a name comes next, just if the call does. -/
theorem isMethodCall_answers (s : Setting) (hc : c.Open) : ∃ b, Accepts s isMethodCall c b c ∧
    (b = true ↔ TakenForCall c.ahead) ∧
    ((s.current c).kind = .identifier → (b = true ↔ ∃ name, ReadsCall c.ahead name)) := by
  obtain ⟨b, hb⟩ := accepts_of_yields (s := s) (reading_steady.isMethodCall fun _ => steady_speculate)
    findsOnly_isMethodCall (yields_isMethodCall c hc)
  have hiff := accepts_isMethodCall_iff hb
  refine ⟨b, hb, hiff, fun hk => ?_⟩
  obtain ⟨t, rest, ht⟩ := hc.ahead
  rw [current_eq ht s] at hk
  rw [hiff, ht, takenForCall_iff hk]

/-- What is looked for behind a type is found just if it is there. -/
theorem accepts_nameAndParenthesis {b : Bool}
    (h : Accepts s (do if ← accept .identifier then check .leftParen else return false) c b d) : b = true ↔
      ∃ name l rest, c.ahead = name :: l :: rest ∧ name.kind = .identifier ∧ l.kind = .leftParen := by
  obtain ⟨t, more, ht, ⟨hid, h⟩ | ⟨hid, h⟩⟩ := (accepts_accept_bind (by simp)).mp h
  · obtain ⟨l, rest, rfl : more = l :: rest, h⟩ := accepts_peek_bind.mp h
    obtain ⟨rfl, -⟩ := accepts_pure.mp h
    simp [ht, hid]
  · obtain ⟨rfl, -⟩ := accepts_pure.mp h
    refine iff_of_false (by simp) ?_
    rintro ⟨name, l, rest, hahead, hname, -⟩
    cases ht.symm.trans hahead
    exact hid hname

theorem accepts_namesMethod {b : Bool} (h : Accepts s namesMethod c b d) : b = true ↔ NamesMethod c.ahead := by
  obtain ⟨t, rest, ht, e, ⟨hk, h⟩ | ⟨hk, h⟩⟩ := accepts_behind h
  · rw [accepts_nameAndParenthesis h, ht, namesMethod_cons]
    refine iff_of_false ?_ fun hnames => hnames.1 hk
    rintro ⟨name, l, more, heq, hname, -⟩
    cases heq
    cases hk.symm.trans hname
  · rw [accepts_nameAndParenthesis h, ht, namesMethod_cons, and_iff_right hk]

/-- Behind a type, a method is found just if the name and the parenthesis are there, unless modifiers or `void` decide. -/
theorem isLikelyMethod_answers (s : Setting) (ms : List Token) (t : Token) (hc : c.Open) :
    ∃ b, Accepts s (isLikelyMethod ms t) c b c ∧ (b = true ↔ ms ≠ [] ∨ t.kind = .kwVoid ∨ NamesMethod c.ahead) := by
  have hsteady : Steady (isLikelyMethod ms t) :=
    closed_ite (steady_pure _) (reading_steady.namesMethod fun _ => steady_speculate)
  obtain ⟨b, hb⟩ := accepts_of_yields (s := s) hsteady (findsOnly_isLikelyMethod _ _) (yields_isLikelyMethod ms t c hc)
  refine ⟨b, hb, ?_⟩
  unfold isLikelyMethod at hb
  rw [accepts_ite] at hb
  split at hb
  · next h =>
    obtain ⟨rfl, -⟩ := accepts_pure.mp hb
    have hdecided : ms ≠ [] ∨ t.kind = .kwVoid := by simpa using h
    exact iff_of_true rfl (hdecided.imp id .inl)
  · next h =>
    have hopen : ¬(ms ≠ [] ∨ t.kind = .kwVoid) := by simpa using h
    rw [accepts_namesMethod hb, ← or_assoc, or_iff_right hopen]

/-! ### Choosing a form -/

/-- The forms of statements; and that none begins. -/
inductive Form where
  | classDecl | methodDecl | declaration | whileLoop | ifElse | methodCall | assignment | block | unrecognized
deriving DecidableEq, Repr

/-- The form of what comes after modifiers. -/
def form (modifiers : List Token) : Parser Form := do
  let t ← peek
  if t.kind == .kwClass then
    return .classDecl
  else if t.kind.isType then
    return if ← isLikelyMethod modifiers t then .methodDecl else .declaration
  else if t.kind == .kwWhile then
    return .whileLoop
  else if t.kind == .kwIf then
    return .ifElse
  else if t.kind == .identifier then
    return if ← isMethodCall then .methodCall else .assignment
  else if t.kind == .leftBrace then
    return .block
  else
    return .unrecognized

/-- Parses what is of a form. -/
def ofForm (statement : Parser (Option Stmt)) (modifiers : List Token) : Form → Parser (Option Stmt)
  | .classDecl => some <$> classDecl statement modifiers
  | .methodDecl => some <$> methodDecl statement modifiers
  | .declaration => declaration
  | .whileLoop => some <$> whileLoop statement
  | .ifElse => some <$> ifElse statement
  | .methodCall => some <$> methodCall
  | .assignment => assignment
  | .block => some <$> block statement
  | .unrecognized => do
    let t ← peek
    report (.unrecognizedStatement t)
    let _ ← advance
    return none

/-- The form that the tokens ahead decide. -/
def Fits (s : Setting) (c : Cursor) (ms : List Token) : Form → Prop
  | .classDecl => (s.current c).kind = .kwClass
  | .methodDecl =>
    (s.current c).kind.isType ∧ (ms ≠ [] ∨ (s.current c).kind = .kwVoid ∨ NamesMethod c.ahead)
  | .declaration =>
    (s.current c).kind.isType ∧ ¬(ms ≠ [] ∨ (s.current c).kind = .kwVoid ∨ NamesMethod c.ahead)
  | .whileLoop => (s.current c).kind = .kwWhile
  | .ifElse => (s.current c).kind = .kwIf
  | .methodCall => ∃ name, ReadsCall c.ahead name
  | .assignment => (s.current c).kind = .identifier ∧ ¬∃ name, ReadsCall c.ahead name
  | .block => (s.current c).kind = .leftBrace
  | .unrecognized => (s.current c).kind.beginsStatement → (s.current c).kind.isModifier

/-- A form is chosen by looking ahead, and then parsed. -/
theorem afterModifiers_eq (statement : Parser (Option Stmt)) (ms : List Token) (s : Setting) (hc : c.Open) :
    ∃ f, Accepts s (form ms) c f c ∧ Fits s c ms f ∧
      afterModifiers statement ms s c = (form ms >>= ofForm statement ms) s c := by
  obtain ⟨t, rest, ht⟩ := hc.ahead
  obtain rfl := current_eq ht s
  -- What is left to see is what `form` comes to, and that this is what is parsed.
  have chosen : ∀ (f : Form) {log : List Event}, form ms s c = .done f c log → Flawless log → Fits s c ms f →
      afterModifiers statement ms s c = (ofForm statement ms f s c).after log →
      ∃ f, Accepts s (form ms) c f c ∧ Fits s c ms f ∧
        afterModifiers statement ms s c = (form ms >>= ofForm statement ms) s c :=
    fun f _ hf hlog hfits heq => ⟨f, ⟨_, hf, hlog⟩, hfits, by rw [bind_of_done hf, heq]⟩
  unfold form afterModifiers at chosen ⊢
  simp only [peek_bind ht] at chosen ⊢
  by_cases hclass : (s.current c).kind == .kwClass
  · simp only [if_pos hclass] at chosen ⊢
    exact chosen .classDecl rfl flawless_nil (beq_iff_eq.mp hclass) (after_nil _).symm
  by_cases htype : (s.current c).kind.isType
  · obtain ⟨b, ⟨log, hb, hlog⟩, hiff⟩ := isLikelyMethod_answers s ms (s.current c) hc
    simp only [if_neg hclass, if_pos htype, bind_of_done hb] at chosen ⊢
    cases b with
    | true =>
      exact chosen .methodDecl (congrArg (Outcome.done _ c) log.append_nil) hlog ⟨htype, hiff.mp rfl⟩ rfl
    | false =>
      exact chosen .declaration (congrArg (Outcome.done _ c) log.append_nil) hlog
        ⟨htype, fun h => by cases hiff.mpr h⟩ rfl
  by_cases hwhile : (s.current c).kind == .kwWhile
  · simp only [if_neg hclass, if_neg htype, if_pos hwhile] at chosen ⊢
    exact chosen .whileLoop rfl flawless_nil (beq_iff_eq.mp hwhile) (after_nil _).symm
  by_cases hif : (s.current c).kind == .kwIf
  · simp only [if_neg hclass, if_neg htype, if_neg hwhile, if_pos hif] at chosen ⊢
    exact chosen .ifElse rfl flawless_nil (beq_iff_eq.mp hif) (after_nil _).symm
  by_cases hname : (s.current c).kind == .identifier
  · have hk := beq_iff_eq.mp hname
    obtain ⟨b, ⟨log, hb, hlog⟩, -, hcall⟩ := isMethodCall_answers s hc
    have hiff := hcall hk
    simp only [if_neg hclass, if_neg htype, if_neg hwhile, if_neg hif, if_pos hname, bind_of_done hb] at chosen ⊢
    cases b with
    | true =>
      exact chosen .methodCall (congrArg (Outcome.done _ c) log.append_nil) hlog (hiff.mp rfl) rfl
    | false =>
      exact chosen .assignment (congrArg (Outcome.done _ c) log.append_nil) hlog
        ⟨hk, fun h => by cases hiff.mpr h⟩ rfl
  by_cases hbrace : (s.current c).kind == .leftBrace
  · simp only [if_neg hclass, if_neg htype, if_neg hwhile, if_neg hif, if_neg hname, if_pos hbrace] at chosen ⊢
    exact chosen .block rfl flawless_nil (beq_iff_eq.mp hbrace) (after_nil _).symm
  · simp only [if_neg hclass, if_neg htype, if_neg hwhile, if_neg hif, if_neg hname, if_neg hbrace] at chosen ⊢
    exact chosen .unrecognized rfl flawless_nil (fun h => by simpa [TokenKind.beginsStatement, *] using h)
      (by rw [after_nil, ofForm, peek_bind ht])

/-- A call is chosen just where a call comes next. -/
theorem Fits.methodCall_iff {f : Form} {ms : List Token} (h : Fits s c ms f) :
    f = .methodCall ↔ ∃ name, ReadsCall c.ahead name := by
  refine ⟨fun hf => by rwa [hf] at h, fun ⟨name, hname⟩ => ?_⟩
  obtain ⟨t, rest, ht, hk⟩ := hname.head
  rw [← current_eq ht s] at hk
  cases f with
  | methodCall => rfl
  | classDecl | whileLoop | ifElse | block => cases hk.symm.trans h
  | methodDecl | declaration => cases hk ▸ h.1
  | assignment => exact absurd ⟨name, hname⟩ h.2
  | unrecognized => cases h (by rw [hk]; rfl) |>.symm.trans (congrArg TokenKind.isModifier hk)

/-! ### Reading what was seen -/

theorem yields_of_done {p : Parser α} {a : α} {log : List Event} (h : p s c = .done a d log)
    {Q : α → Cursor → List Event → Prop} : Yields p s c Q ↔ Q a d log := by
  unfold Yields
  rw [h]

/-- The name of a call is read as a whole, and the parenthesis behind it. -/
theorem yields_methodCall_of {name : List Token} (hc : c.Open) (h : ReadsCall c.ahead name) :
    Yields methodCall s c fun st _ log => (∃ es line, st = .methodCall (String.join (name.map Token.lexeme)) es line) ∧
      Event.reads c.ahead.length (name.length + 1) <+: log := by
  obtain ⟨l, rest, hahead, hname, hl⟩ := h
  have hparen : Cursor.ahead ⟨l :: rest, c.begun⟩ = l :: rest := rfl
  have hlength : c.ahead.length - name.length = (l :: rest).length := by
    rw [hahead, List.length_append, Nat.add_sub_cancel_left]
  have hopen : Cursor.Open ⟨rest, c.begun⟩ := by
    have hstop : c.stop = Cursor.stop ⟨rest, c.begun⟩ := by
      rw [Cursor.stop, hahead, List.dropWhile_append_of_pos (by simpa using hname.ne_eof),
        List.dropWhile_cons_of_pos (by simp [hl])]
      rfl
    rwa [Cursor.Open, ← hstop]
  unfold methodCall
  simp only [yields_bind, yields_peek hc, yields_of_done (dottedName_eq hname hl hahead),
    yields_of_done (expect_eq_read hparen hl (by simp) _), yields_pure]
  refine (yields_repeatWhile rfl _ hopen fun e he _ => yields_argument e (he.isOpen hopen)).mono fun es e _ he => ?_
  rw [yields_expect (he.1.isOpen hopen), yields_expectSemicolon (open_next.mpr (he.1.isOpen hopen))]
  rw [← reads_append, hlength]
  split
  · exact ⟨⟨es, _, rfl⟩, by simp⟩
  · exact ⟨⟨es, _, rfl⟩, by simp⟩

/-- A token that is expected and seen ahead is read first. -/
theorem reads_expect_bind {kind : TokenKind} (hc : c.Open) (hk : (s.current c).kind = kind) (hne : kind ≠ .eof)
    (expectation : String) (f : Token → Parser α) :
    Event.reads c.ahead.length 1 <+: ((expect kind expectation >>= f) s c).log := by
  obtain ⟨t, rest, ht⟩ := hc.ahead
  rw [bind_of_done (expect_eq_read ht (current_eq ht s ▸ hk) hne expectation), log_after]
  exact List.prefix_append _ _

/-- The token that a form expects first. -/
def Form.lead? : Form → Option TokenKind
  | .classDecl => some .kwClass
  | .whileLoop => some .kwWhile
  | .ifElse => some .kwIf
  | .assignment => some .identifier
  | .block => some .leftBrace
  | .methodDecl | .declaration | .methodCall | .unrecognized => none

section
variable (statement : Parser (Option Stmt)) (ms : List Token)

/-- What a form expects first is read. -/
theorem reads_lead {f : Form} {kind : TokenKind} (hc : c.Open) (hf : Fits s c ms f) (hkind : kind ∈ f.lead?) :
    Event.reads c.ahead.length 1 <+: (ofForm statement ms f s c).log := by
  have lead : ∀ {kind : TokenKind} {e : String} {f : Token → Parser Stmt}, (s.current c).kind = kind → kind ≠ .eof →
      Event.reads c.ahead.length 1 <+: ((some <$> (expect kind e >>= f)) s c).log :=
    fun hk hne => (reads_expect_bind hc hk hne _ _).trans (prefix_log_bind _ _ s c)
  cases f with
  | classDecl | whileLoop | ifElse | block => exact lead hf (by simp)
  | assignment => exact reads_expect_bind hc hf.1 (by simp) _ _
  | methodDecl | declaration | methodCall | unrecognized => cases hkind

/-- The type, the name and the parenthesis of a method that was told by them are read. -/
theorem reads_methodDecl (hc : NamesMethod c.ahead) :
    Event.reads c.ahead.length 3 <+: (ofForm statement ms .methodDecl s c).log := by
  obtain ⟨t, name, l, rest, hahead, ht, hname, hl⟩ := hc
  refine List.IsPrefix.trans ?_ (prefix_log_bind _ _ s c)
  unfold methodDecl
  rw [bind_of_done (advance_eq hahead ht), bind_of_done (expect_eq_read rfl hname (by simp) _),
    bind_of_done (expect_eq_read rfl hl (by simp) _), after_after, after_after, log_after, List.append_assoc, hahead]
  exact List.prefix_append _ _

end

/-! ### What is never missed -/

/-- What is expected only where it was seen ahead. -/
def foreseen : List String :=
  ["Expected 'class' keyword", "Expected 'while'", "Expected 'if'", "Expected '\x7b'", "Expected '(' after method name"]

/-- The mistake is not that something is missing that was seen ahead. -/
def Unforeseen (m : Mistake) : Prop := ∀ expectation ∈ foreseen, ∀ t, m ≠ .unexpected expectation t

theorem unforeseen_unexpected {expectation : String} (h : expectation ∉ foreseen) (t : Token) :
    Unforeseen (.unexpected expectation t) := fun e he u heq => by
  cases heq
  exact h he

theorem findsOnly_expect_other {kind : TokenKind} {expectation : String} (h : expectation ∉ foreseen) :
    FindsOnly Unforeseen (expect kind expectation) :=
  findsOnly_expect (unforeseen_unexpected h)

theorem operands_findsOnly : ClosedOperands (FindsOnly Unforeseen) where
  toClosedReading := reading_findsOnly
  factor hc := reading_findsOnly.factor hc (findsOnly_expect_other (by simp [foreseen]))
    fun _ => findsOnly_report fun _ _ _ h => by cases h

theorem findsOnly_semicolon (construct : String) (first : Token) :
    FindsOnly Unforeseen (expectSemicolon construct first) :=
  findsOnly_expectSemicolon fun _ _ _ h => by cases h

theorem findsOnly_declaration : FindsOnly Unforeseen declaration :=
  operands_findsOnly.declaration (fun _ => findsOnly_report (unforeseen_unexpected (by simp [foreseen]) _))
    fun _ => findsOnly_endDeclaration fun _ _ _ _ h => by cases h

theorem findsOnly_assignment : FindsOnly Unforeseen assignment :=
  operands_findsOnly.assignment (findsOnly_expect_other (by simp [foreseen])) findsOnly_semicolon
    fun _ => findsOnly_report fun _ _ _ h => by cases h

theorem findsOnly_argument : FindsOnly Unforeseen argument :=
  operands_findsOnly.argument (findsOnly_separator (unforeseen_unexpected (by simp [foreseen])))

/-- Where there is no token, nothing is found. -/
theorem findsOnly_peek_bind {K : Mistake → Prop} {f : Token → Parser α}
    (h : ∀ t rest, c.ahead = t :: rest → ∀ m ∈ (f t s c).mistakes, K m) : ∀ m ∈ ((peek >>= f) s c).mistakes, K m := by
  refine findsOnly_andThen (findsOnly_peek s c) fun t d log hd => ?_
  unfold peek at hd
  split at hd
  · cases hd
  · next u rest ht =>
    cases hd
    exact h t rest ht

/-- Behind the name of a call and its parenthesis, nothing else is missing that was seen ahead. -/
theorem finds_methodCall_of {name : List Token} (h : ReadsCall c.ahead name) :
    ∀ m ∈ (methodCall s c).mistakes, Unforeseen m := by
  have P := operands_findsOnly
  obtain ⟨l, rest, hahead, hname, hl⟩ := h
  obtain ⟨t, ts, rfl, -⟩ := hname.head
  unfold methodCall
  rw [peek_bind hahead, bind_of_done (dottedName_eq hname hl hahead),
    bind_of_done (expect_eq_read rfl hl (by simp) _), mistakes_after_reads, mistakes_after_reads]
  exact P.bind (P.repeatWhile findsOnly_argument) (fun _ =>
    P.bind (findsOnly_expect_other (by simp [foreseen])) fun _ =>
      P.bind (findsOnly_semicolon _ _) fun _ => P.pure _) s _

/-- What is expected and seen ahead is not missing. -/
theorem finds_expect_bind {kind : TokenKind} {expectation : String} {f : Token → Parser α} {t : Token} {rest : List Token}
    (ht : c.ahead = t :: rest) (hk : t.kind = kind) (hne : kind ≠ .eof) (hf : FindsOnly Unforeseen (f t)) :
    ∀ m ∈ ((expect kind expectation >>= f) s c).mistakes, Unforeseen m := by
  rw [bind_of_done (expect_eq_read ht hk hne _), mistakes_after_reads]
  exact hf s _

section
variable {statement : Parser (Option Stmt)} (h : FindsOnly Unforeseen statement)
include h

theorem findsOnly_methodDecl (ms : List Token) : FindsOnly Unforeseen (methodDecl statement ms) :=
  have P := operands_findsOnly
  P.bind P.advance fun _ => P.bind (findsOnly_expect_other (by simp [foreseen])) fun _ =>
    P.bind (findsOnly_expect_other (by simp [foreseen])) fun _ => P.bind P.skipParameters fun _ =>
      P.bind (findsOnly_expect_other (by simp [foreseen])) fun _ =>
        P.bind (findsOnly_expect_other (by simp [foreseen])) fun _ => P.bind (P.statementsUntilBrace h) fun _ =>
          P.bind (findsOnly_expect_other (by simp [foreseen])) fun _ => P.pure _

theorem findsOnly_afterModifiers (ms : List Token) : FindsOnly Unforeseen (afterModifiers statement ms) := by
  have P := operands_findsOnly
  intro s c
  refine findsOnly_peek_bind fun t rest ht => ?_
  have map : ∀ {p : Parser Stmt} {c : Cursor}, (∀ m ∈ (p s c).mistakes, Unforeseen m) →
      ∀ m ∈ ((some <$> p) s c).mistakes, Unforeseen m :=
    fun hp => findsOnly_andThen hp fun a d log _ m hm => by cases hm
  split
  · next hk =>
    refine map (finds_expect_bind ht (beq_iff_eq.mp hk) (by simp) ?_)
    exact P.bind (findsOnly_expect_other (by simp [foreseen])) fun _ =>
      P.bind (findsOnly_expect_other (by simp [foreseen])) fun _ => P.bind (P.statementsUntilBrace h) fun _ =>
        P.bind (findsOnly_expect_other (by simp [foreseen])) fun _ => P.pure _
  split
  · exact P.bind (findsOnly_isLikelyMethod _ _) (fun _ =>
      closed_ite (P.map (findsOnly_methodDecl h ms)) findsOnly_declaration) s c
  split
  · next hk =>
    refine map (finds_expect_bind ht (beq_iff_eq.mp hk) (by simp) ?_)
    exact P.bind (findsOnly_expect_other (by simp [foreseen])) fun _ => P.bind P.condition fun _ =>
      P.bind (findsOnly_expect_other (by simp [foreseen])) fun _ => P.bind h fun _ => P.pure _
  split
  · next hk =>
    refine map (finds_expect_bind ht (beq_iff_eq.mp hk) (by simp) ?_)
    exact P.bind (findsOnly_expect_other (by simp [foreseen])) fun _ => P.bind P.condition fun _ =>
      P.bind (findsOnly_expect_other (by simp [foreseen])) fun _ => P.bind h fun _ =>
        P.bind (P.elseBranch h) fun _ => P.pure _
  split
  · next hk =>
    refine findsOnly_andThen (findsOnly_isMethodCall s c) fun b d log hd => ?_
    obtain ⟨hback, hcall⟩ := accepts_isMethodCall ht (beq_iff_eq.mp hk) (accepts_of_done findsOnly_isMethodCall hd)
    cases b with
    | true =>
      obtain ⟨name, l, more, hahead, hl, hname⟩ := hcall rfl
      exact map (finds_methodCall_of ⟨l, more, hback.trans hahead, hname, hl⟩)
    | false => exact findsOnly_assignment s d
  split
  · next hk =>
    refine map (finds_expect_bind ht (beq_iff_eq.mp hk) (by simp) ?_)
    exact P.bind (P.statementsUntilBrace h) fun _ =>
      P.bind (findsOnly_expect_other (by simp [foreseen])) fun _ => P.pure _
  · exact P.bind (findsOnly_report fun _ _ _ h => by cases h) (fun _ => P.bind P.advance fun _ => P.pure _) s c

theorem findsOnly_statementRule : FindsOnly Unforeseen (statementRule statement) :=
  have P := operands_findsOnly
  P.bind findsOnly_begin fun _ => P.bind (P.repeatWhile P.advance) fun _ => findsOnly_afterModifiers h _

end

theorem findsOnly_program : FindsOnly Unforeseen program :=
  have P := operands_findsOnly
  P.bind findsOnly_beginProgram fun _ =>
    P.bind (P.repeatWhile (P.fix fun _ => findsOnly_statementRule)) fun _ => P.pure _

/-- At the cursor, looking ahead tells what is then read, and changes nothing. -/
structure Foresees (s : Setting) (c : Cursor) : Prop where
  /-- Any token is taken for a name. Where it is one, a call is found just if it comes next. -/
  call : ∃ b, Accepts s isMethodCall c b c ∧ (b = true ↔ TakenForCall c.ahead) ∧
    ((s.current c).kind = .identifier → (b = true ↔ ∃ name, ReadsCall c.ahead name))
  method (ms : List Token) (t : Token) : ∃ b, Accepts s (isLikelyMethod ms t) c b c ∧
    (b = true ↔ ms ≠ [] ∨ t.kind = .kwVoid ∨ NamesMethod c.ahead)
  /-- The form is chosen by looking ahead. What it expects first is read; and so is what told that it is a method. -/
  form (statement : Parser (Option Stmt)) (ms : List Token) : ∃ f, Accepts s (form ms) c f c ∧ Fits s c ms f ∧
    (f = .methodCall ↔ ∃ name, ReadsCall c.ahead name) ∧
    afterModifiers statement ms s c = (Parser.form ms >>= ofForm statement ms) s c ∧
    (f.lead?.isSome → Event.reads c.ahead.length 1 <+: (ofForm statement ms f s c).log) ∧
    (f = .methodDecl → ms = [] → (s.current c).kind ≠ .kwVoid →
      Event.reads c.ahead.length 3 <+: (ofForm statement ms f s c).log)
  /-- The name of a call is what was seen, and it is read with the parenthesis behind it. -/
  name {name : List Token} (h : ReadsCall c.ahead name) : Yields methodCall s c fun st _ log =>
    (∃ es line, st = .methodCall (String.join (name.map Token.lexeme)) es line) ∧
      Event.reads c.ahead.length (name.length + 1) <+: log

theorem foresees (hc : c.Open) : Foresees s c where
  call := isMethodCall_answers s hc
  method ms t := isLikelyMethod_answers s ms t hc
  name h := yields_methodCall_of hc h
  form statement ms := by
    obtain ⟨f, hform, hfits, heq⟩ := afterModifiers_eq statement ms s hc
    refine ⟨f, hform, hfits, hfits.methodCall_iff, heq, fun hlead => ?_, ?_⟩
    · obtain ⟨kind, hkind⟩ := Option.isSome_iff_exists.mp hlead
      exact reads_lead statement ms hc hfits hkind
    · rintro rfl hms hvoid
      exact reads_methodDecl statement ms ((hfits.2.resolve_left (not_not_intro hms)).resolve_left hvoid)

end Parser

/-- What is seen ahead is what is read. Wherever the parse may stand, the two questions are answered without a trace, and
    the form of a statement is chosen by the answers. Whether a call comes next is asked only in front of a name, and
    there it is answered rightly; a call is chosen just where a dotted name and a parenthesis come
    next, and that name is the one that is taken; a method that is told by a name and a parenthesis has both; and what a
    form expects first is there. None of the reports that these tokens are missing is ever made. -/
theorem lookahead_agrees (tokens : List Token) (interruption : Option Interruption) :
    (∀ c : Cursor, c.ahead <:+ Token.close tokens → c.index tokens ≤ Token.endIndex tokens →
      Parser.Foresees (.ofTokens tokens interruption) c) ∧
    ∀ m ∈ (Report.ofTokens tokens interruption).mistakes, Parser.Unforeseen m :=
  ⟨fun _ hc hle => Parser.foresees (open_of_index_le hc hle), Parser.findsOnly_program _ _⟩

/-- The name of a call of two segments is taken as a whole. -/
theorem lookahead_agrees_dotted :
    let token (kind : TokenKind) (lexeme : String) : Token := ⟨kind, lexeme, "", ⟨"x", 1, 1, 0⟩⟩
    let tokens := [token .identifier "a", token .dot ".", token .identifier "b", token .leftParen "(",
      token .rightParen ")", token .semicolon ";", token .eof ""]
    Parser.Yields Parser.methodCall (.ofTokens tokens none) (.ofTokens tokens) fun st _ log =>
      (∃ es line, st = .methodCall "a.b" es line) ∧ Event.reads 7 4 <+: log := by
  intro token tokens
  have hname : ReadsCall (Cursor.ofTokens tokens).ahead (tokens.take 3) :=
    ⟨_, _, rfl, .cons rfl rfl (.single rfl), rfl⟩
  exact ((lookahead_agrees tokens none).1 (.ofTokens tokens) (List.suffix_refl _) (by decide)).name hname

/-- In front of a parenthesis, the keyword of a conditional is taken for the name of a call; but it is none. -/
theorem keyword_taken_for_call :
    let tokens := (Source.mk "x" "if (a) x++;").tokens
    (Report.ofTokens tokens none).diagnostics = [] ∧
      Parser.Accepts (.ofTokens tokens none) Parser.isMethodCall (.ofTokens tokens) true (.ofTokens tokens) ∧
      ¬∃ name, ReadsCall (Cursor.ofTokens tokens).ahead name := by
  intro tokens
  have hlead : (Cursor.ofTokens tokens).ahead.head?.map Token.kind = some .kwIf := by decide +kernel
  refine ⟨by decide +kernel, ⟨[.read 8], by decide +kernel, by simp [Flawless]⟩, fun ⟨name, hname⟩ => ?_⟩
  obtain ⟨t, rest, hahead, ht⟩ := hname.head
  rw [hahead, List.head?_cons, Option.map_some, ht] at hlead
  cases hlead

end Curly
