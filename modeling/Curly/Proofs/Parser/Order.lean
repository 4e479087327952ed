import Curly.Proofs.Parser.Mistakes
import Curly.Proofs.Parser.Totality
import Curly.Proofs.Token.Lines

/-! In what order mistakes are found. A mistake is reported at the current token as a rule, and so none on an earlier line
    than one before it. Only a missing semicolon is reported further back, where the construct begins that it should end;
    so it may come after mistakes inside this construct that are on later lines. Main statement: `parse_inOrder`. -/

namespace Curly

/-! ### Mistakes in order -/

namespace Mistake

/-- The construct in which the mistake is found goes on. -/
def IsInner (m : Mistake) : Prop := m.code = "P001" ∨ m.code = "P004"

/-- Such a mistake, reported at the token `t`. -/
def IsInnerAt (t : Token) (m : Mistake) : Prop := m.token = t ∧ m.IsInner

/-- Another mistake may be found later: it does not stand on an earlier line, or else a semicolon is missing. -/
def MayPrecede (m n : Mistake) : Prop := m.token.line ≤ n.token.line ∨ n.code = "P002" ∧ m.IsInner

end Mistake

/-- The tokens ahead are in the order of their lines. -/
def Cursor.Sorted (c : Cursor) : Prop := Token.Sorted c.ahead

theorem Onward.sorted {c d : Cursor} (h : Onward c d) (hc : c.Sorted) : d.Sorted :=
  List.Pairwise.sublist h.suffix.sublist hc

theorem Cursor.Sorted.head {c : Cursor} (hc : c.Sorted) {t : Token} {rest : List Token} (ht : c.ahead = t :: rest) :
    ∀ u ∈ c.ahead, t.line ≤ u.line := by
  rw [Sorted, ht] at hc
  rw [ht]
  exact List.forall_mem_cons.mpr ⟨Int.le_refl _, (List.pairwise_cons.mp hc).1⟩

namespace Parser
variable {α β ι : Type}

/-- A mistake of a kind `K` is reported between two cursors: at a token that was ahead, unless it is one that may be
    reported further back; and at one that is on no later line than those that are ahead still. -/
structure Reported (K back : Mistake → Prop) (c d : Cursor) (m : Mistake) : Prop where
  kind : K m
  ahead : m.token ∈ c.ahead ∨ back m
  passed : ∀ t ∈ d.ahead, m.token.line ≤ t.line

/-- The mistakes that are found from `c` on are reported, and come in order. -/
structure InOrder (K back : Mistake → Prop) (c : Cursor) (o : Outcome α) : Prop where
  onward : Onward c o.cursor
  each : ∀ m ∈ o.mistakes, Reported K back c o.cursor m
  pairwise : o.mistakes.Pairwise Mistake.MayPrecede

section
variable {K K' back back' : Mistake → Prop} {c : Cursor} {o : Outcome α}

theorem InOrder.silent (h : Onward c o.cursor) (ho : o.mistakes = []) : InOrder K back c o :=
  ⟨h, by simp [ho], by simp [ho]⟩

theorem InOrder.mono (h : InOrder K back c o) (hK : ∀ m, K m → K' m)
    (hback : ∀ m, back m → m.token ∈ c.ahead ∨ back' m) : InOrder K' back' c o :=
  ⟨h.onward, fun m hm => ⟨hK m (h.each m hm).kind, (h.each m hm).ahead.elim .inl (hback m), (h.each m hm).passed⟩,
    h.pairwise⟩

/-- In a sequence, what is reported further back must be such as may come after the mistakes that were found before. -/
theorem InOrder.andThen {f : α → Cursor → Outcome β} (ho : InOrder K back c o)
    (hf : ∀ a d log, o = .done a d log → InOrder K back' d (f a d)) (hback : ∀ n, back' n → back n)
    (hlate : ∀ m ∈ o.mistakes, ∀ n, back' n → m.MayPrecede n) : InOrder K back c (o.andThen f) := by
  cases o with
  | stopped => exact ⟨ho.onward, ho.each, ho.pairwise⟩
  | done a d log =>
    have hfd := hf a d log rfl
    obtain ⟨hcursor, hmistakes⟩ : ((Outcome.done a d log).andThen f).cursor = (f a d).cursor ∧
        ((Outcome.done a d log).andThen f).mistakes = log.filterMap Event.mistake? ++ (f a d).mistakes := by
      simp only [Outcome.andThen]
      cases f a d <;> exact ⟨rfl, List.filterMap_append⟩
    have hfirst : ∀ m ∈ log.filterMap Event.mistake?, Reported K back c d m := ho.each
    refine ⟨hcursor ▸ ho.onward.trans hfd.onward, ?_, ?_⟩
    · rw [hmistakes, hcursor, List.forall_mem_append]
      refine ⟨fun m hm => ?_, fun n hn => ?_⟩
      · exact ⟨(hfirst m hm).kind, (hfirst m hm).ahead,
          fun t ht => (hfirst m hm).passed t (hfd.onward.suffix.subset ht)⟩
      · exact ⟨(hfd.each n hn).kind, (hfd.each n hn).ahead.imp (ho.onward.suffix.subset ·) (hback n),
          (hfd.each n hn).passed⟩
    · rw [hmistakes, List.pairwise_append]
      refine ⟨ho.pairwise, hfd.pairwise, fun m hm n hn => ?_⟩
      -- A mistake at a token that is ahead of `d` is on no earlier line; only one further back may be.
      rcases (hfd.each n hn).ahead with hahead | hn
      · exact .inl ((hfirst m hm).passed _ hahead)
      · exact hlate m hm n hn

end

/-! ### Parsers that report at the current token -/

/-- The parser finds mistakes of a kind `K` only, and reports them in order. -/
def Ordered (K : Mistake → Prop) {α : Type} (p : Parser α) : Prop :=
  ∀ s c, c.Open → c.Sorted → InOrder K (fun _ => False) c (p s c)

/-- So does the parser when the token `first` was read before, but it may go back and report there what may come after
    all mistakes of a kind `I`, which were found since. -/
def Cites (K I : Mistake → Prop) (first : Token) {α : Type} (p : Parser α) : Prop :=
  ∀ s c, c.Open → c.Sorted → (∀ t ∈ c.ahead, first.line ≤ t.line) →
    InOrder K (fun n => n.token = first ∧ ∀ m, I m → m.MayPrecede n) c (p s c)

section
variable {K K' I I' : Mistake → Prop} {first : Token}

theorem Ordered.mono {p : Parser α} (h : Ordered K p) (hK : ∀ m, K m → K' m) : Ordered K' p :=
  fun s c hc hs => (h s c hc hs).mono hK fun _ => .inr

theorem Ordered.cites {p : Parser α} (h : Ordered K p) : Cites K I first p :=
  fun s c hc hs _ => (h s c hc hs).mono (fun _ => id) fun _ => False.elim

theorem Cites.anti {p : Parser α} (h : Cites K I first p) (hI : ∀ m, I' m → I m) : Cites K I' first p :=
  fun s c hc hs hfirst => (h s c hc hs hfirst).mono (fun _ => id) fun _ hn => .inr ⟨hn.1, fun m hm => hn.2 m (hI m hm)⟩

/-! ### Sequences -/

theorem ordered_pure (a : α) : Ordered K (pure a) := fun _ c _ _ => .silent (.refl c) rfl

theorem ordered_bind {p : Parser α} {f : α → Parser β} (hp : Ordered K p) (hf : ∀ a, Ordered K (f a)) :
    Ordered K (p >>= f) := by
  intro s c hc hs
  have hpc := hp s c hc hs
  refine hpc.andThen (fun a d log hd => ?_) (fun _ => id) fun _ _ _ => False.elim
  rw [hd] at hpc
  exact hf a s d (hpc.onward.isOpen hc) (hpc.onward.sorted hs)

/-- The mistakes found in between are among those after which there may be reports at `first`. -/
theorem cites_bind {p : Parser α} {f : α → Parser β} (hp : Ordered I p) (hK : ∀ m, I m → K m)
    (hf : ∀ a, Cites K I first (f a)) : Cites K I first (p >>= f) := by
  intro s c hc hs hfirst
  have hpc := hp s c hc hs
  refine (hpc.mono hK fun _ => False.elim).andThen (fun a d log hd => ?_) (fun _ => id) fun m hm n hn =>
    hn.2 m (hpc.each m hm).kind
  rw [hd] at hpc
  exact hf a s d (hpc.onward.isOpen hc) (hpc.onward.sorted hs) fun t ht => hfirst t (hpc.onward.suffix.subset ht)

theorem cites_bind_ordered {p : Parser α} {f : α → Parser β} (hp : Cites K I first p) (hf : ∀ a, Ordered K (f a)) :
    Cites K I first (p >>= f) := by
  intro s c hc hs hfirst
  have hpc := hp s c hc hs hfirst
  refine hpc.andThen (fun a d log hd => ?_) (fun _ => False.elim) fun _ _ _ => False.elim
  rw [hd] at hpc
  exact hf a s d (hpc.onward.isOpen hc) (hpc.onward.sorted hs)

/-! ### Tokens and recursion -/

theorem ordered_peek : Ordered K peek := fun s c hc _ =>
  .silent (safe_peek s c hc).onward (by unfold peek; split <;> rfl)

theorem ordered_advance : Ordered K advance := fun s c hc _ =>
  .silent (safe_advance s c hc).onward (by unfold advance; split <;> [rfl; split <;> rfl])

theorem ordered_fixOver {rule : (ι → Parser α) → ι → Parser α}
    (h : ∀ p : ι → Parser α, (∀ i, Ordered K (p i)) → ∀ i, Ordered K (rule p i)) (i : ι) : Ordered K (fixOver rule i) :=
  fixOver_of (Q := fun s c o => c.Open → c.Sorted → InOrder K (fun _ => False) c (o s))
    (fun _ c _ _ => .silent (.refl c) rfl) h i

theorem reading_ordered : ClosedReading (Ordered K) where
  pure := ordered_pure
  bind := ordered_bind
  fixOver := ordered_fixOver
  peek := ordered_peek
  advance := ordered_advance

/-- The current token is one at which there may be a report, as long as nothing else was found. -/
theorem ordered_peek_bind {f : Token → Parser α} (hf : ∀ t, Cites K (fun _ => False) t (f t)) :
    Ordered K (peek >>= f) := by
  intro s c hc hs
  obtain ⟨t, rest, ht⟩ := hc.ahead
  have hpeek : peek s c = .done t c [] := by simp only [peek, ht]
  have hrest : InOrder K (fun _ => False) c (f t s c) := (hf t s c hc hs (hs.head ht)).mono (fun _ => id)
    fun n hn => .inl (hn.1 ▸ ht ▸ List.mem_cons_self)
  refine (ordered_peek s c hc hs).andThen (fun a d log hd => ?_) (fun _ => id) fun _ _ _ => False.elim
  cases hpeek.symm.trans hd
  exact hrest

theorem cites_report {m : Mistake} (hm : m.token = first) (hK : K m) (hI : ∀ i, I i → i.MayPrecede m) :
    Cites K I first (report m) := by
  intro s c _ _ hfirst
  refine ⟨.refl c, ?_, List.pairwise_singleton _ _⟩
  intro n hn
  obtain rfl : n = m := List.mem_singleton.mp hn
  exact ⟨hK, .inr ⟨hm, hI⟩, fun t ht => hm ▸ hfirst t ht⟩

/-- A report at the current token, and what follows. -/
theorem cites_report_bind {m : Mistake} {p : Parser α} (hm : m.token = first) (hK : K m) (hp : Ordered K p) :
    Cites K (fun _ => False) first (report m >>= fun _ => p) :=
  cites_bind_ordered (cites_report hm hK fun _ => False.elim) fun _ => hp

theorem ordered_speculate {p : Parser α} (hp : Ordered (fun _ => False) p) : Ordered (fun _ => False) (speculate p) := by
  intro s c hc hs
  have hpc := hp s c hc hs
  have hnone : (p s c).mistakes = [] := List.eq_nil_iff_forall_not_mem.mpr fun m hm => (hpc.each m hm).kind
  unfold speculate
  cases h : p s c <;> rw [h] at hnone <;> exact .silent (.of_ahead rfl) hnone

theorem ordered_resume : Ordered K resume := fun s c hc _ => .silent (safe_resume s c hc).onward rfl

theorem ordered_begin : Ordered K begin := fun s c hc _ => by
  refine .silent (safe_begin s c hc).onward ?_
  unfold begin
  split
  · simp only
    split <;> rfl
  · rfl

theorem ordered_beginProgram : Ordered K beginProgram := fun s c hc _ =>
  .silent (safe_beginProgram s c hc).onward (by unfold beginProgram; split <;> rfl)

/-! ### Expectations -/

section
variable (hK : ∀ m, m.IsInner → K m)
include hK

theorem ordered_expect (kind : TokenKind) (expectation : String) : Ordered K (expect kind expectation) :=
  ordered_bind (reading_ordered.check _) fun _ => closed_ite ordered_advance <|
    ordered_peek_bind fun _ => cites_report_bind rfl (hK _ (.inl rfl)) ordered_advance

theorem ordered_factor {condition : Parser Expr} (hc : Ordered K condition) : Ordered K (factor condition) := by
  have h := reading_ordered (K := K)
  refine ordered_peek_bind fun t => ?_
  split
  · exact (h.bind h.advance fun _ => h.pure _).cites
  · exact (h.bind h.advance fun _ => h.bind (h.accept _) fun _ => closed_ite (h.pure _)
      (h.bind (h.accept _) fun _ => closed_ite (h.pure _) (h.pure _))).cites
  · exact (h.bind h.advance fun _ => h.pure _).cites
  · exact (h.bind h.advance fun _ => h.bind hc fun _ => h.bind (ordered_expect hK _ _) fun _ => h.pure _).cites
  · exact cites_report_bind rfl (hK _ (.inr rfl)) (h.bind h.advance fun _ => h.pure _)

theorem ordered_separator : Ordered K separator :=
  ordered_bind (reading_ordered.accept _) fun _ => closed_ite (ordered_pure _) <|
    ordered_peek_bind fun _ => closed_ite (cites_report rfl (hK _ (.inl rfl)) fun _ => False.elim) (ordered_pure _).cites

theorem expecting_ordered : ClosedExpecting (Ordered K) where
  toClosedReading := reading_ordered
  expect := ordered_expect hK
  factor := ordered_factor hK
  separator := ordered_separator hK

end

/-- A token that was expected is the one that was the current token; and so is what is reported in its place. -/
theorem expect_eq (s : Setting) {c : Cursor} (hc : c.Open) {t : Token} {rest : List Token} (ht : c.ahead = t :: rest)
    (kind : TokenKind) (expectation : String) : ∃ d log, expect kind expectation s c = .done t d log ∧
      ∀ m ∈ log.filterMap Event.mistake?, m.IsInnerAt t := by
  have hcurrent : s.current c = t := by rw [Setting.current, ht]; rfl
  have hyields : Yields (expect kind expectation) s c fun a d log =>
      a = t ∧ ∀ m ∈ log.filterMap Event.mistake?, m.IsInnerAt t := by
    rw [yields_expect hc, hcurrent]
    refine ⟨rfl, fun m hm => ?_⟩
    obtain rfl : m = .unexpected expectation t := by
      rw [List.filterMap_append, List.mem_append] at hm
      rcases hm with hm | hm
      · split at hm
        · exact absurd hm List.not_mem_nil
        · exact List.mem_singleton.mp hm
      · split at hm <;> exact absurd hm List.not_mem_nil
    exact ⟨rfl, .inl rfl⟩
  obtain ⟨a, d, log, hd, rfl, hlog⟩ := yields_iff.mp hyields
  exact ⟨d, log, hd, hlog⟩

/-- There may be reports at it later, as long as nothing else was found. -/
theorem ordered_expect_bind {kind : TokenKind} {expectation : String} {f : Token → Parser α}
    (hK : ∀ m, m.IsInner → K m) (hf : ∀ t, Cites K (Mistake.IsInnerAt t) t (f t)) :
    Ordered K (expect kind expectation >>= f) := by
  intro s c hc hs
  obtain ⟨t, rest, ht⟩ := hc.ahead
  obtain ⟨d, log, hd, hlog⟩ := expect_eq s hc ht kind expectation
  have hexpect := ordered_expect hK kind expectation s c hc hs
  rw [hd] at hexpect
  have hrest := hf t s d (hexpect.onward.isOpen hc) (hexpect.onward.sorted hs) fun u hu =>
    hs.head ht u (hexpect.onward.suffix.subset hu)
  have hback : InOrder K (fun n => n.token = t ∧ ∀ m, Mistake.IsInnerAt t m → m.MayPrecede n) c
      ((expect kind expectation >>= f) s c) := by
    change InOrder _ _ _ ((expect kind expectation s c).andThen fun a d => f a s d)
    rw [hd]
    refine (hexpect.mono (fun _ => id) fun _ => False.elim).andThen (fun a e more he => ?_) (fun _ => id)
      fun m hm n hn => hn.2 m (hlog m hm)
    cases he
    exact hrest
  exact hback.mono (fun _ => id) fun n hn => .inl (hn.1 ▸ ht ▸ List.mem_cons_self)

end

/-! ### Statements without statements in them -/

/-- The construct that began with the token `first` may be found to be without a semicolon. -/
def Closes (first : Token) {α : Type} (p : Parser α) : Prop := Cites (fun _ => True) Mistake.IsInner first p

section
variable {first : Token}

theorem closes_bind {p : Parser α} {f : α → Parser β} (hp : Ordered Mistake.IsInner p) (hf : ∀ a, Closes first (f a)) :
    Closes first (p >>= f) :=
  cites_bind hp (fun _ _ => trivial) hf

theorem closes_bind_pure {p : Parser α} {f : α → β} (hp : Closes first p) : Closes first (p >>= fun a => pure (f a)) :=
  cites_bind_ordered hp fun _ => ordered_pure _

theorem closes_missing (construct : String) (found : Option Token) :
    Closes first (report (.missingSemicolon construct first found)) :=
  cites_report rfl trivial fun _ hi => .inr ⟨rfl, hi⟩

theorem closes_expectSemicolon (construct : String) : Closes first (expectSemicolon construct first) :=
  closes_bind (reading_ordered.accept _) fun _ => closed_ite (ordered_pure _).cites (closes_missing _ _)

theorem closes_endDeclaration : Closes first (endDeclaration first) :=
  closes_bind (reading_ordered.accept _) fun _ => closed_ite (ordered_pure _).cites <|
    closes_bind ordered_peek fun _ => cites_bind_ordered (closes_missing _ _) fun _ => ordered_resume

end

theorem inner_ordered : ClosedExpecting (Ordered Mistake.IsInner) := expecting_ordered fun _ => id

theorem any_ordered : ClosedExpecting (Ordered fun _ => True) := expecting_ordered fun _ _ => trivial

theorem ordered_declaration : Ordered (fun _ => True) declaration := by
  refine ordered_bind ordered_advance fun _ => ordered_peek_bind fun name => closed_ite ?_ ?_
  · refine Cites.anti (I := Mistake.IsInner) ?_ fun _ => False.elim
    exact closes_bind ordered_advance fun _ => closes_bind inner_ordered.initializer fun _ =>
      closes_bind_pure closes_endDeclaration
  · exact cites_report_bind rfl trivial (ordered_pure _)

theorem ordered_methodCall : Ordered (fun _ => True) methodCall := by
  refine ordered_peek_bind fun first => Cites.anti (I := Mistake.IsInner) ?_ fun _ => False.elim
  exact closes_bind inner_ordered.dottedName fun _ => closes_bind (inner_ordered.expect _ _) fun _ =>
    closes_bind (inner_ordered.repeatWhile inner_ordered.argument) fun _ => closes_bind (inner_ordered.expect _ _) fun _ =>
      closes_bind_pure (closes_expectSemicolon _)

/-- Where the name stands alone, only a mistake at the name itself may have been found before. -/
theorem ordered_assignment : Ordered (fun _ => True) assignment := by
  refine ordered_expect_bind (fun _ _ => trivial) fun name => ?_
  have step : ∀ {α : Type} {kind : TokenKind} {f : Bool → Parser α},
      (∀ found, Cites (fun _ => True) (Mistake.IsInnerAt name) name (f found)) →
      Cites (fun _ => True) (Mistake.IsInnerAt name) name (accept kind >>= f) :=
    fun hf => cites_bind (reading_ordered.accept _) (fun _ _ => trivial) hf
  -- A missing semicolon may come after any mistake inside, so in particular after one at the name.
  have inner : ∀ {p : Parser (Option Stmt)}, Closes name p →
      Cites (fun _ => True) (Mistake.IsInnerAt name) name p := fun hp => hp.anti fun _ hm => hm.2
  refine step fun _ => closed_ite (inner ?value) <| step fun _ => closed_ite (inner ?increment) <|
    step fun _ => closed_ite (inner ?decrement) ?alone
  case value => exact closes_bind inner_ordered.value fun _ => closes_bind_pure (closes_expectSemicolon _)
  case increment => exact closes_bind_pure (closes_expectSemicolon _)
  case decrement => exact closes_bind_pure (closes_expectSemicolon _)
  case alone =>
    refine cites_bind_ordered (cites_report rfl trivial fun m hm => .inl ?_) fun _ => ordered_pure _
    exact Int.le_of_eq (congrArg Token.line hm.1)

/-! ### Statements with statements in them -/

theorem ordered_namesMethod : Ordered (fun _ => True) namesMethod :=
  (reading_ordered.namesMethod fun _ => ordered_speculate).mono fun _ => False.elim

theorem ordered_isMethodCall : Ordered (fun _ => True) isMethodCall :=
  (reading_ordered.isMethodCall fun _ => ordered_speculate).mono fun _ => False.elim

section
variable {statement : Parser (Option Stmt)} (hs : Ordered (fun _ => True) statement)
include hs

theorem ordered_afterModifiers (modifiers : List Token) : Ordered (fun _ => True) (afterModifiers statement modifiers) := by
  have h := any_ordered
  refine ordered_peek_bind fun t => ?_
  refine closed_ite (h.map (h.classDecl hs modifiers)).cites <| closed_ite ?type <|
    closed_ite (h.map (h.whileLoop hs)).cites <| closed_ite (h.map (h.ifElse hs)).cites <| closed_ite ?name <|
    closed_ite (h.map (h.block hs)).cites ?other
  case type =>
    exact (h.bind (closed_ite (h.pure _) ordered_namesMethod) fun _ =>
      closed_ite (h.map (h.methodDecl hs modifiers)) ordered_declaration).cites
  case name =>
    exact (h.bind ordered_isMethodCall fun _ => closed_ite (h.map ordered_methodCall) ordered_assignment).cites
  case other =>
    exact cites_report_bind rfl trivial (h.bind h.advance fun _ => h.pure _)

theorem ordered_statementRule : Ordered (fun _ => True) (statementRule statement) :=
  ordered_bind ordered_begin fun _ => ordered_bind (reading_ordered.repeatWhile ordered_advance) fun _ =>
    ordered_afterModifiers hs _

end

theorem ordered_statement : Ordered (fun _ => True) statement := reading_ordered.fix fun _ => ordered_statementRule

/-- Whatever a parse comes to, also if it is interrupted. -/
theorem ordered_program : Ordered (fun _ => True) program :=
  ordered_bind ordered_beginProgram fun _ => ordered_bind (reading_ordered.repeatWhile ordered_statement) fun _ =>
    ordered_pure _

end Parser

/-! ### Reports -/

theorem sorted_close {tokens : List Token} (h : Token.Sorted tokens) : Token.Sorted (Token.close tokens) := by
  unfold Token.close
  split
  · exact h
  · refine List.pairwise_append.mpr ⟨h, List.pairwise_singleton _ _, fun t ht u hu => ?_⟩
    obtain rfl := List.mem_singleton.mp hu
    obtain ⟨before, last, rfl⟩ := List.eq_nil_or_concat tokens |>.resolve_left (List.ne_nil_of_mem ht)
    rw [List.concat_eq_append] at h ht ⊢
    have hend : (Token.addedEnd (before ++ [last])).line = last.line := by
      simp [Token.addedEnd, Token.line]
    rw [hend]
    rcases List.mem_append.mp ht with ht | ht
    · exact (List.pairwise_append.mp h).2.2 t ht last List.mem_cons_self
    · exact Int.le_of_eq (congrArg Token.line (List.mem_singleton.mp ht))

/-- What breaks a parse off is reported at the current token, and so behind all mistakes. -/
theorem Parser.InOrder.le_fatal {K back : Mistake → Prop} {s : Setting} {start c : Cursor} {o : Outcome Program}
    (ho : InOrder K back c o) (hopen : o.cursor.Open) {m : Mistake} (hm : m ∈ o.mistakes) {d : Diagnostic}
    (hd : (Report.ofOutcome s start o).fatal = some d) : m.token.line ≤ d.location.line := by
  cases o with
  | done => cases hd
  | stopped stop c log =>
    obtain ⟨t, rest, ht⟩ := hopen.ahead
    change c.ahead = t :: rest at ht
    obtain rfl : Diagnostic.fatal stop.message (s.current c).location = d := Option.some.inj hd
    rw [Setting.current, ht]
    exact (ho.each m hm).passed t (ht ▸ List.mem_cons_self)

/-- Where the tokens are in order, so are the diagnostics, but for missing semicolons. -/
theorem errors_inOrder {tokens : List Token} (h : Token.Sorted tokens) (interruption : Option Interruption) :
    (Report.ofTokens tokens interruption).errors.Pairwise fun d e => d.location.line ≤ e.location.line ∨
      e.code = some "P002" ∧ (d.code = some "P001" ∨ d.code = some "P004") := by
  have hopen := open_ofTokens tokens
  have hprogram := Parser.ordered_program (.ofTokens tokens interruption) (.ofTokens tokens) hopen (sorted_close h)
  refine List.pairwise_append.mpr ⟨List.pairwise_map.mpr ?_, ?_, fun d hd e he => .inl ?_⟩
  · refine hprogram.pairwise.imp fun {m n} hmn => hmn.imp id fun ⟨hn, hm⟩ => ⟨congrArg some hn, ?_⟩
    exact hm.imp (congrArg some) (congrArg some)
  · cases (Report.ofTokens tokens interruption).fatal <;> simp
  · obtain ⟨m, hm, rfl⟩ := List.mem_map.mp hd
    exact hprogram.le_fatal (hprogram.onward.isOpen hopen) hm (Option.mem_toList.mp he)

/-- Diagnostics come in the order of the source, but for missing semicolons. If a diagnostic stands on an earlier line than
    one that is listed before it, then it is that a semicolon is missing, and the other one is that something else was
    expected or that no expression begins there. -/
theorem parse_inOrder (s : Source) (interruption : Option Interruption) :
    (s.parse interruption).errors.Pairwise fun d e => d.location.line ≤ e.location.line ∨
      e.code = some "P002" ∧ (d.code = some "P001" ∨ d.code = some "P004") :=
  errors_inOrder (sorted_tokens s) interruption

/-- An assignment on two lines has no value, and is not ended. -/
example : ((Source.mk "x" "x =\n)").parse none).errors.map (fun d => (d.code, d.location.line)) =
    [(some "P004", 2), (some "P002", 1)] := by decide +kernel

end Curly
