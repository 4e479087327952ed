import Curly.Proofs.Parser.Composition
import Curly.Proofs.Parser.Resuming
import Curly.Proofs.Syntax.Part

/-! Programs in which one semicolon is missing. The statement is parsed in front of any token that may stand behind it as if
    the semicolon were there; so is what it is a part of, level by level, and the program. Main statements:
    `plain_spared`, `declaration_spared`. -/

namespace Curly

/-- Whether a token of this kind may stand behind a statement. -/
def TokenKind.followsStatement (k : TokenKind) : Bool :=
  k.beginsStatement || k == .rightBrace || k == .kwElse || k == .eof

theorem Frame.head {before after ts : List Token} {inner outer : Stmt} (hf : Frame before after inner outer) :
    ∃ t rest, before ++ ts = t :: rest ∧ t.kind.beginsStatement := by
  cases hf with
  | classBody hms h | loopBody hms h | onlyBranch hms h | thenBranch hms h | elseBranch hms h | blockBody hms h
  | methodBody hms h =>
    rw [List.append_assoc, List.cons_append]
    exact hms.head (by simp [TokenKind.beginsStatement, h])

theorem PartOf.head {before after : List Token} {u : Token} {inner outer : Stmt} (hp : PartOf inner before after outer)
    (hu : u.kind.beginsStatement) (us : List Token) :
    ∃ t rest, before ++ (u :: us ++ after) = t :: rest ∧ t.kind.beginsStatement := by
  cases hp with
  | self => exact ⟨u, us ++ [], rfl, hu⟩
  | within _ hf =>
    rw [List.append_assoc]
    exact hf.head

namespace Parser
variable {s : Setting}

/-- In front of the token `v`, the tokens are parsed as the statement, and these mistakes are found. -/
def Takes (s : Setting) (v : Token) (ts : List Token) (found : List Mistake) (st : Stmt) : Prop :=
  ∀ rest n, (st.endsOpen → v.kind ≠ .kwElse) → ∃ m, Finds s statement ⟨ts ++ v :: rest, n⟩ found (some st) ⟨v :: rest, m⟩

section
variable {u : Token} {us : List Token} {found : List Mistake} {inner outer : Stmt} (hs : s.interruption = none)
  (hu : u.kind.beginsStatement)
include hs hu

section
variable {earlier later : List (List Token × Stmt)} (hearlier : ∀ x ∈ earlier, ReadsStmt x.1 x.2)
  (hlater : ∀ x ∈ later, ReadsStmt x.1 x.2) {r : Token}
  (h : Takes s ((later.flatMap Prod.fst).head?.getD r) (u :: us) found inner) {q : Parser (Option Stmt)}
include hearlier hlater h

/-- Statements in a row, in one of which there are mistakes. -/
theorem finds_row {go : TokenKind → Bool} (hgo : ∀ k : TokenKind, k.beginsStatement → go k) (hr : go r.kind = false)
    (helse : r.kind ≠ .kwElse) {rest : List Token}
    (hq : Agree s ((earlier.flatMap Prod.fst ++ (u :: us ++ (later.flatMap Prod.fst ++ r :: rest))).length + 1)
      statement q) (n : Nat) :
    ∃ m, Finds s (repeatWhile go q) ⟨earlier.flatMap Prod.fst ++ (u :: us ++ (later.flatMap Prod.fst ++ r :: rest)), n⟩
      found ((earlier.map Prod.snd ++ inner :: later.map Prod.snd).map some) ⟨r :: rest, m⟩ := by
  obtain ⟨v, more, hmore, hv⟩ := head_statements hlater helse rest
  have hnext : (later.flatMap Prod.fst).head?.getD r = v := by
    have hhead := congrArg List.head? hmore
    simpa [List.head?_append] using hhead
  rw [hnext] at h
  -- Those before it, the one with mistakes, and those behind it.
  obtain ⟨k, hbefore⟩ := finds_statements_append hgo hearlier (fun x hx => completeStmt hs (hearlier x hx))
    (TokenKind.beginsStatement_ne hu).2.2 hq n
  obtain ⟨l, hst⟩ := h more k fun _ => hv
  have hlt : (later.flatMap Prod.fst ++ r :: rest).length < (u :: us ++ (later.flatMap Prod.fst ++ r :: rest)).length := by
    simp only [List.length_append, List.length_cons]
    omega
  have hq' : Agree s ((u :: us ++ (later.flatMap Prod.fst ++ r :: rest)).length + 1) statement q :=
    hq.mono (by simp only [List.length_append, List.length_cons]; omega)
  obtain ⟨m, hbehind⟩ := accepts_statements hgo hlater (fun x hx => completeStmt hs (hlater x hx)) hr helse
    (hq'.mono (Nat.le_succ_of_le hlt)) l
  rw [← hmore] at hst
  have hrow := hbefore (finds_repeatWhile_cons (hgo _ hu) (hq'.finds (Nat.lt_succ_self _) hst) hlt (finds_nil.mpr hbehind))
  rw [List.append_nil] at hrow
  refine ⟨m, ?_⟩
  simpa using hrow

/-- The statements of a body, in one of which there are mistakes. -/
theorem finds_body (hr : r.kind = .rightBrace) (rest : List Token) {n N : Nat} (hq : Agree s N statement q)
    (hN : (earlier.flatMap Prod.fst ++ (u :: us ++ (later.flatMap Prod.fst ++ r :: rest))).length < N) :
    ∃ m, Finds s (statementsUntilBrace q) ⟨earlier.flatMap Prod.fst ++ (u :: us ++ (later.flatMap Prod.fst ++ r :: rest)), n⟩
      found (earlier.map Prod.snd ++ inner :: later.map Prod.snd) ⟨r :: rest, m⟩ := by
  have hgo : ∀ k : TokenKind, k.beginsStatement → (k != .eof && k != .rightBrace) := by
    intro k hk
    simp [TokenKind.beginsStatement_ne hk]
  obtain ⟨m, hrow⟩ := finds_row hs hu hearlier hlater h hgo (by simp [hr]) (by simp [hr]) (hq.mono hN) n
  exact ⟨m, finds_statementsUntilBrace hrow⟩

end

/-- What is parsed as a statement in which there are mistakes can stand inside of another. -/
theorem takes_frame {before after : List Token} (hf : Frame before after inner outer) {v : Token}
    (h : Takes s (after.head?.getD v) (u :: us) found inner) :
    Takes s v (before ++ (u :: us ++ after)) found outer := by
  intro rest n hv
  cases hf with
  | @classBody ms kw name l r earlier later _ hms hkw hname hl hearlier hlater hr =>
    have hnext : Takes s ((later.flatMap Prod.fst).head?.getD r) (u :: us) found inner := by
      simpa [List.head?_append] using h
    simp only [List.append_assoc, List.cons_append, List.nil_append]
    refine finds_statement_of hs hms (by rw [hkw]; rfl) fun q hq => ?_
    obtain ⟨m, hb⟩ := finds_body hs hu hearlier hlater hnext hr (v :: rest) hq
      (by simp only [List.length_append, List.length_cons]; omega)
    exact ⟨m, finds_classDecl hr hb hkw hname hl⟩
  | @methodBody ms ps type name l r lb rb earlier later _ hms htype hname hl hps hr hlb hearlier hlater hrb =>
    have hnext : Takes s ((later.flatMap Prod.fst).head?.getD rb) (u :: us) found inner := by
      simpa [List.head?_append] using h
    simp only [List.append_assoc, List.cons_append, List.nil_append]
    refine finds_statement_of hs hms (isModifier_of_isType htype) fun q hq => ?_
    obtain ⟨m, hb⟩ := finds_body hs hu hearlier hlater hnext hrb (v :: rest) hq
      (by simp only [List.length_append, List.length_cons]; omega)
    exact ⟨m, finds_methodDecl hrb hb htype hname hl hps hr hlb⟩
  | @blockBody ms l r earlier later _ hms hl hearlier hlater hr =>
    have hnext : Takes s ((later.flatMap Prod.fst).head?.getD r) (u :: us) found inner := by
      simpa [List.head?_append] using h
    simp only [List.append_assoc, List.cons_append, List.nil_append]
    refine finds_statement_of hs hms (by rw [hl]; rfl) fun q hq => ?_
    obtain ⟨m, hb⟩ := finds_body hs hu hearlier hlater hnext hr (v :: rest) hq (Nat.lt_succ_self _)
    exact ⟨m, finds_block hr hb hl⟩
  | loopBody hms hkw hl he hr =>
    simp only [List.append_assoc, List.cons_append, List.nil_append]
    refine finds_statement_of hs hms (by rw [hkw]; rfl) fun q hq => ?_
    obtain ⟨m, hb⟩ := h rest (n + 1) (by simpa [Stmt.endsOpen, Stmt.endsOpenIn] using hv)
    refine ⟨m, finds_whileLoop hl he hr hkw (hq.finds ?_ hb)⟩
    simp only [List.length_append, List.length_cons]
    omega
  | onlyBranch hms hkw hl he hr =>
    have hne : v.kind ≠ .kwElse := hv rfl
    simp only [List.append_assoc, List.cons_append, List.nil_append]
    refine finds_statement_of hs hms (by rw [hkw]; rfl) fun q hq => ?_
    obtain ⟨m, ha⟩ := h rest (n + 1) fun _ => hne
    rw [← List.append_nil found]
    refine ⟨m, finds_ifElse hl he hr hkw (hq.finds ?_ ha) (finds_nil.mpr (accepts_elseBranch_none hne))⟩
    simp only [List.length_append, List.length_cons]
    omega
  | @thenBranch ms ts vs kw l r o e _ b hms hkw hl he hr hopen ho hb =>
    simp only [List.append_assoc, List.cons_append, List.nil_append]
    refine finds_statement_of hs hms (by rw [hkw]; rfl) fun q hq => ?_
    have hnext : Takes s o (u :: us) found inner := h
    obtain ⟨m, ha⟩ := hnext (vs ++ v :: rest) (n + 1) fun hi => by simp [hopen] at hi
    obtain ⟨k, hb⟩ := completeStmt hs hb v rest m (by simpa [Stmt.endsOpen, Stmt.endsOpenIn] using hv)
    rw [← List.append_nil found]
    refine ⟨k, finds_ifElse hl he hr hkw (hq.finds ?_ ha) (finds_elseBranch ho (hq.finds ?_ (finds_nil.mpr hb)))⟩ <;>
    · simp only [List.length_append, List.length_cons]
      omega
  | @elseBranch ms ts vs kw l r o e a _ hms hkw hl he hr ha hopen ho =>
    simp only [List.append_assoc, List.cons_append, List.nil_append]
    refine finds_statement_of hs hms (by rw [hkw]; rfl) fun q hq => ?_
    obtain ⟨m, ha⟩ := completeStmt hs ha o (u :: (us ++ v :: rest)) (n + 1) fun ha => by simp [hopen] at ha
    have hnext : Takes s v (u :: us) found inner := h
    obtain ⟨k, hb⟩ := hnext rest m (by simpa [Stmt.endsOpen, Stmt.endsOpenIn] using hv)
    refine ⟨k, finds_ifElse hl he hr hkw (hq.finds ?_ (finds_nil.mpr ha)) (finds_elseBranch ho (hq.finds ?_ hb))⟩ <;>
    · simp only [List.length_append, List.length_cons]
      omega

/-- The same at any depth. -/
theorem takes_partOf {before after : List Token} (hp : PartOf inner before after outer) {v : Token}
    (h : Takes s (after.head?.getD v) (u :: us) found inner) :
    Takes s v (before ++ (u :: us ++ after)) found outer := by
  induction hp generalizing v with
  | self => simpa using h
  | @within before after before' after' mid outer hp hf ih =>
    have hmid : Takes s (after'.head?.getD v) (before ++ (u :: us ++ after)) found mid := ih (by
      rw [List.head?_append] at h
      cases after <;> exact h)
    obtain ⟨w, ws, hw, hb⟩ := hp.head hu us
    rw [hw] at hmid
    have houter := takes_frame hs hb hf hmid
    rw [← hw] at houter
    simpa using houter

/-- Nothing else is found wrong with a program than with the part of it. -/
theorem finds_program {before after : List Token} {p : Program} (hp : HasPart inner before after p) {stop : Token}
    (hstop : stop.kind = .eof) (h : Takes s (after.head?.getD stop) (u :: us) found inner) (rest : List Token) (n : Nat) :
    ∃ m, Finds s program ⟨before ++ (u :: us ++ after) ++ stop :: rest, n⟩ found p ⟨stop :: rest, m⟩ := by
  cases hp with
  | @mk before after earlier later outer hearlier hlater hpart =>
    have houter : Takes s ((later.flatMap Prod.fst).head?.getD stop) (before ++ (u :: us ++ after)) found outer :=
      takes_partOf hs hu hpart (by
        rw [List.head?_append] at h
        cases after <;> exact h)
    obtain ⟨w, ws, hw, hb⟩ := hpart.head hu us
    rw [hw] at houter
    have hgo : ∀ k : TokenKind, k.beginsStatement → k != .eof := fun k hk => by simp [TokenKind.beginsStatement_ne hk]
    obtain ⟨m, hrow⟩ := finds_row hs hb hearlier hlater houter hgo (by simp [hstop]) (by simp [hstop])
      (agree_self (p := statement)) n
    rw [← hw] at hrow
    exact ⟨m, finds_program_of hs (by simpa using hrow)⟩

end

/-! ### Missing semicolons -/

theorem finds_expectSemicolon {construct : String} {first t : Token} {rest : List Token} {n : Nat}
    (ht : t.kind ≠ .semicolon) :
    Finds s (expectSemicolon construct first) ⟨t :: rest, n⟩ [.missingSemicolon construct first none] ()
      ⟨t :: rest, n⟩ := by
  refine finds_bind_of (accepts_accept_other rfl ht) ?_
  rw [if_neg (by simp)]
  exact finds_report

/-- Nothing is skipped in front of a token at which parsing can resume. -/
theorem accepts_resume {t : Token} {rest : List Token} {n : Nat} (ht : t.kind.stopsResuming) :
    Accepts s resume ⟨t :: rest, n⟩ () ⟨t :: rest, n⟩ := by
  refine ⟨[.resumed (t :: rest).length 0], ?_, by simp [Flawless]⟩
  simp only [resume, skippable_eq_zero ht, Cursor.skip, List.drop_zero]

theorem finds_endDeclaration {name t : Token} {rest : List Token} {n : Nat} (ht : t.kind.stopsResuming) :
    Finds s (endDeclaration name) ⟨t :: rest, n⟩ [.missingSemicolon "declaration" name (some t)] () ⟨t :: rest, n⟩ := by
  have hne : t.kind ≠ .semicolon := by
    intro hk
    rw [hk] at ht
    cases ht
  refine finds_bind_of (accepts_accept_other rfl hne) ?_
  rw [if_neg (by simp)]
  exact finds_bind_of (accepts_peek_of rfl) (finds_bind_accepts finds_report (accepts_resume ht))

theorem stopsResuming_ne {k : TokenKind} (h : k.stopsResuming) :
    k ≠ .leftParen ∧ k ≠ .assign ∧ Level.goesOn .expression k = false := by
  cases k <;> first | cases h; done | exact ⟨by simp, by simp, rfl⟩

theorem followsStatement_ne {k : TokenKind} (h : k.followsStatement) :
    k ≠ .semicolon ∧ Level.goesOn .expression k = false := by
  cases k <;> first | cases h; done | exact ⟨by simp, rfl⟩

theorem eq_of_concat_eq {ts us : List Token} {t u : Token} (h : ts ++ [t] = us ++ [u]) : ts = us :=
  (List.append_inj' h rfl).1

/-- A statement with no statement in it, behind its modifiers. -/
theorem takes_behind (hs : s.interruption = none) {ms more : List Token} {t v : Token} {found : List Mistake} {st : Stmt}
    (hms : Modifiers ms) (ht : t.kind.isModifier = false)
    (h : ∀ q rest n, Finds s (afterModifiers q ms) ⟨t :: (more ++ v :: rest), n⟩ found (some st) ⟨v :: rest, n⟩) :
    Takes s v (ms ++ t :: more) found st := by
  intro rest n _
  rw [List.append_assoc, List.cons_append]
  exact finds_statement_of hs hms ht fun q _ => ⟨n + 1, h q rest (n + 1)⟩

/-- A declaration without its semicolon. -/
theorem takes_declaration (hs : s.interruption = none) {type name semi v : Token} {more : List Token}
    {typeName varName : String} {e : Option Expr} {line : Int}
    (h : ReadsStmt (type :: name :: more ++ [semi]) (.declaration typeName varName e line)) (hv : v.kind.stopsResuming) :
    Takes s v (type :: name :: more) [.missingSemicolon "declaration" name (some v)]
      (.declaration typeName varName e line) := by
  obtain ⟨hparen, hassign, hends⟩ := stopsResuming_ne hv
  generalize hts : type :: name :: more ++ [semi] = ts at h
  cases h with
  | declaration htype hvoid hname hsemi =>
    obtain ⟨rfl, rfl, hmore⟩ : type = _ ∧ name = _ ∧ more ++ [semi] = [_] := by simpa using hts
    obtain rfl : more = [] := eq_of_concat_eq hmore
    refine takes_behind hs modifiers_nil (isModifier_of_isType htype) fun q rest n => ?_
    exact finds_declaration htype hvoid hname hparen (accepts_initializer_none hassign) (finds_endDeclaration hv)
  | @initialized _ _ o semi' us e htype hvoid hname ho h hsemi =>
    obtain ⟨rfl, rfl, hmore⟩ : type = _ ∧ name = _ ∧ more ++ [semi] = o :: us ++ [semi'] := by simpa using hts
    obtain rfl : more = o :: us := eq_of_concat_eq hmore
    refine takes_behind hs modifiers_nil (isModifier_of_isType htype) fun q rest n => ?_
    exact finds_declaration htype hvoid hname (by simp [ho]) (accepts_initializer_some ho h hends)
      (finds_endDeclaration hv)

/-- The same if the mistake is reported at the token behind the modifiers. -/
theorem takes_cited (hs : s.interruption = none) {ms more : List Token} {t first v : Token} {construct : String}
    {st : Stmt} (hms : Modifiers ms) (ht : t.kind.isModifier = false)
    (hfirst : (ms ++ t :: more).find? (!·.kind.isModifier) = some first)
    (h : ∀ q rest n, Finds s (afterModifiers q ms) ⟨t :: (more ++ v :: rest), n⟩ [.missingSemicolon construct t none]
      (some st) ⟨v :: rest, n⟩) :
    Takes s v (ms ++ t :: more) [.missingSemicolon construct first none] st := by
  have hnone : ms.find? (!·.kind.isModifier) = none := List.find?_eq_none.mpr fun m hm => by simp [hms m hm]
  rw [List.find?_append, hnone, Option.none_or, List.find?_cons_of_pos (by simp [ht])] at hfirst
  obtain rfl := Option.some.inj hfirst
  exact takes_behind hs hms ht h

/-- A call, an assignment, an increment or a decrement without its semicolon. -/
theorem takes_plain (hs : s.interruption = none) {part : List Token} {semi first v : Token} {st : Stmt}
    (h : ReadsStmt (part ++ [semi]) st) (hst : st.isPlain) (hfirst : part.find? (!·.kind.isModifier) = some first)
    (hv : v.kind.followsStatement) : ∃ construct, Takes s v part [.missingSemicolon construct first none] st := by
  obtain ⟨hsemi, hends⟩ := followsStatement_ne hv
  generalize hts : part ++ [semi] = ts at h
  cases h with
  | classDecl | methodDecl | declaration | initialized | whileLoop | ifThen | ifElse | block => cases hst
  | @methodCall ms name ts l r semi' es hms hname hl h hr _ =>
    obtain rfl : part = ms ++ (name ++ l :: (ts ++ [r])) := eq_of_concat_eq (by simpa using hts)
    obtain ⟨t, us, rfl, hk⟩ := hname.head
    rw [List.cons_append] at hfirst ⊢
    refine ⟨"method call", takes_cited hs hms (by rw [hk]; rfl) hfirst fun q rest n => ?_⟩
    simp only [List.append_assoc, List.cons_append, List.nil_append]
    refine finds_methodCall hname hl h hr fun u hu => ?_
    obtain rfl := Option.mem_some.mp hu
    exact finds_expectSemicolon hsemi
  | @assignment ms ts name o semi' e hms hname ho h _ =>
    obtain rfl : part = ms ++ name :: o :: ts := eq_of_concat_eq (by simpa using hts)
    refine ⟨"assignment", takes_cited hs hms (by rw [hname]; rfl) hfirst fun q rest n => ?_⟩
    exact finds_assignment hname ho h hends (finds_expectSemicolon hsemi)
  | @increment ms name o semi' hms hname ho _ =>
    obtain rfl : part = ms ++ [name, o] := eq_of_concat_eq (by simpa using hts)
    refine ⟨"increment", takes_cited hs hms (by rw [hname]; rfl) hfirst fun q rest n => ?_⟩
    exact finds_increment hname ho (finds_expectSemicolon hsemi)
  | @decrement ms name o semi' hms hname ho _ =>
    obtain rfl : part = ms ++ [name, o] := eq_of_concat_eq (by simpa using hts)
    refine ⟨"decrement", takes_cited hs hms (by rw [hname]; rfl) hfirst fun q rest n => ?_⟩
    exact finds_decrement hname ho (finds_expectSemicolon hsemi)

end Parser

/-! ### What follows a statement -/

theorem head?_statements {body : List (List Token × Stmt)} (hreads : ∀ x ∈ body, ReadsStmt x.1 x.2) :
    ∀ t ∈ (body.flatMap Prod.fst).head?, t.kind.followsStatement := by
  cases body with
  | nil => simp
  | cons x body =>
    obtain ⟨u, us, hu, hb⟩ := (hreads x List.mem_cons_self).head
    simp [hu, TokenKind.followsStatement, hb]

section
variable {inner outer : Stmt} {before after : List Token}

theorem follows_append {ts us : List Token} (hts : ∀ t ∈ ts.head?, t.kind.followsStatement)
    (hus : ∀ t ∈ us.head?, t.kind.followsStatement) : ∀ t ∈ (ts ++ us).head?, t.kind.followsStatement := by
  cases ts with
  | nil => exact hus
  | cons t ts => exact hts

theorem Frame.follows (hf : Frame before after inner outer) : ∀ t ∈ after.head?, t.kind.followsStatement := by
  cases hf with
  | classBody _ _ _ _ _ hlater hr | methodBody _ _ _ _ _ _ _ _ hlater hr | blockBody _ _ _ hlater hr =>
    exact follows_append (head?_statements hlater) (by simp [hr, TokenKind.followsStatement])
  | loopBody | onlyBranch | elseBranch => simp
  | thenBranch _ _ _ _ _ _ ho => simp [ho, TokenKind.followsStatement]

theorem PartOf.follows (hp : PartOf inner before after outer) : ∀ t ∈ after.head?, t.kind.followsStatement := by
  induction hp with
  | self => simp
  | within _ hf ih => exact follows_append ih hf.follows

theorem HasPart.follows {p : Program} (hp : HasPart inner before after p) :
    ∀ t ∈ after.head?, t.kind.followsStatement := by
  cases hp with
  | mk _ hlater hpart => exact follows_append hpart.follows (head?_statements hlater)

end

/-! ### Reports -/

/-- Without the token at an index, the tokens are parsed as with it, of which nothing is reported: the tree is the same,
    one missing semicolon is reported, at the token `cited`, and nothing is skipped where parsing resumes. -/
structure Spared (tokens : List Token) (k : Nat) (cited : Token) : Prop where
  clean : (Report.ofTokens tokens none).diagnostics = []
  root : ∃ t, (Report.ofTokens tokens none).root = some t ∧ (Report.ofTokens (tokens.eraseIdx k) none).root = some t
  errors : ∃ d, (Report.ofTokens (tokens.eraseIdx k) none).errors = [d] ∧ d.code = some "P002" ∧
    d.location = cited.location
  skips : ∀ ahead skipped, .resumed ahead skipped ∈ (Report.ofTokens (tokens.eraseIdx k) none).log → skipped = 0

theorem takeWhile_eraseIdx {tokens before after : List Token} {t : Token}
    (h : tokens.takeWhile (·.kind != .eof) = before ++ t :: after) :
    (tokens.eraseIdx before.length).takeWhile (·.kind != .eof) = before ++ after := by
  have hall : ∀ u ∈ before ++ after, (u.kind != .eof) = true := fun u hu => by
    refine List.mem_takeWhile_imp (p := fun u : Token => u.kind != .eof) (l := tokens) ?_
    rw [h]
    simpa [or_left_comm] using Or.inr (List.mem_append.mp hu)
  have hrest : (tokens.dropWhile (·.kind != .eof)).takeWhile (·.kind != .eof) = [] := by
    cases hd : tokens.dropWhile (·.kind != .eof) with
    | nil => rfl
    | cons v vs =>
      have hne : tokens.dropWhile (·.kind != .eof) ≠ [] := by simp [hd]
      exact List.takeWhile_cons_of_neg (by simpa [hd] using List.head_dropWhile_not _ hne)
  have htokens : tokens = before ++ t :: (after ++ tokens.dropWhile (·.kind != .eof)) := by
    conv => lhs; rw [← List.takeWhile_append_dropWhile (p := fun u : Token => u.kind != .eof) (l := tokens), h]
    simp
  have herase : tokens.eraseIdx before.length = before ++ after ++ tokens.dropWhile (·.kind != .eof) := by
    conv => lhs; rw [htokens, List.eraseIdx_append_of_length_le (Nat.le_refl _), Nat.sub_self]
    simp
  rw [herase, List.takeWhile_append_of_pos hall, hrest, List.append_nil]

section
variable {tokens part : List Token} {k : Nat} {st : Stmt}

theorem head_part {semi : Token} (h : ReadsStmt (part ++ [semi]) st) (hsemi : semi.kind = .semicolon) :
    ∃ u us, part = u :: us ∧ u.kind.beginsStatement := by
  obtain ⟨u, us, hu, hb⟩ := h.head
  cases part with
  | nil =>
    obtain ⟨rfl, -⟩ := List.cons.inj hu
    rw [hsemi] at hb
    cases hb
  | cons t ts =>
    obtain ⟨rfl, -⟩ := List.cons.inj hu
    exact ⟨t, ts, rfl, hb⟩

/-- If what a statement without its semicolon is taken for is known, in front of whatever stands behind it, then so is what
    is reported of all tokens. -/
theorem spared_of_takes (hends : EndsAt tokens k part st) {cited : Token}
    (h : ∀ v, v.kind.followsStatement → v.kind = .eof ∨ tokens[k + 1]? = some v → ∃ construct found,
      Parser.Takes (.ofTokens (tokens.eraseIdx k) none) v part [.missingSemicolon construct cited found] st ∧
        ∀ t ∈ found, t.kind.stopsResuming) : Spared tokens k cited := by
  obtain ⟨before, after, semi, p, htokens, rfl, hsemi, hreads, hpart⟩ := hends
  have hread : ReadsProgram (tokens.takeWhile (·.kind != .eof)) p := by
    rw [htokens]
    simpa using hpart.reads hreads
  obtain ⟨hroot, hclean⟩ := report_of_readsProgram hread
  -- The token behind the statement when the semicolon is gone.
  rw [← List.append_assoc] at htokens
  have herased := takeWhile_eraseIdx htokens
  obtain ⟨stop, rest, hstop, hclose⟩ := close_eq (tokens.eraseIdx (before ++ part).length)
  have hfollows : (after.head?.getD stop).kind.followsStatement := by
    cases after with
    | nil => simp [hstop, TokenKind.followsStatement]
    | cons t ts => exact hpart.follows t rfl
  have hnext : (after.head?.getD stop).kind = .eof ∨
      tokens[(before ++ part).length + 1]? = some (after.head?.getD stop) := by
    cases after with
    | nil => exact .inl hstop
    | cons t ts =>
      refine .inr ?_
      rw [← List.takeWhile_append_dropWhile (p := fun u : Token => u.kind != .eof) (l := tokens), htokens,
        List.append_assoc, List.getElem?_append_right (Nat.le_add_right _ 1), Nat.add_sub_cancel_left]
      rfl
  obtain ⟨construct, found, htakes, hfound⟩ := h _ hfollows hnext
  obtain ⟨u, us, rfl, hu⟩ := head_part hreads hsemi
  obtain ⟨m, hprogram⟩ := Parser.finds_program rfl hu hpart hstop htakes rest 0
  rw [← List.append_assoc, ← herased, ← hclose] at hprogram
  obtain ⟨hroot', hmistakes, herrors⟩ := report_of_finds hprogram
  refine ⟨hclean, ⟨_, hroot, hroot'⟩, ⟨_, herrors, rfl, rfl⟩, fun ahead skipped hmem => ?_⟩
  -- Parsing resumes only behind the one mistake.
  obtain ⟨name, t, more, hreported, rfl⟩ := Parser.announces_program _ _ ahead skipped hmem
  have hmistake : .missingSemicolon "declaration" name (some t) ∈ (Report.ofTokens _ none).mistakes :=
    List.mem_filterMap.mpr ⟨_, hreported, rfl⟩
  rw [hmistakes, List.mem_singleton] at hmistake
  obtain ⟨-, -, rfl⟩ := Mistake.missingSemicolon.inj hmistake
  exact skippable_eq_zero (hfound t rfl) _ _

end

/-- Every declaration, call, assignment, increment or decrement in what is parsed without a report, at any depth, ends at a
    semicolon. -/
theorem exists_endsAt {tokens : List Token} (hnil : (Report.ofTokens tokens none).diagnostics = []) :
    ∃ p : Program, (Report.ofTokens tokens none).root = some p.toTree ∧
      ∀ st ∈ Stmt.insideAll p, (st.isPlain ∨ ∃ type name e line, st = .declaration type name e line) →
        ∃ k part, EndsAt tokens k part st := by
  obtain ⟨p, hread⟩ := diagnostics_eq_nil_iff.mp hnil
  refine ⟨p, (report_of_readsProgram hread).1, fun st hmem hst => ?_⟩
  obtain ⟨before, us, after, htokens, hreads, hpart⟩ := hread.exists_hasPart hmem
  obtain ⟨part, semi, rfl, hsemi⟩ : ∃ part semi, us = part ++ [semi] ∧ semi.kind = .semicolon := by
    cases hreads with
    | classDecl | methodDecl | whileLoop | ifThen | ifElse | block => simp [Stmt.isPlain] at hst
    | @declaration type name semi _ _ _ hsemi => exact ⟨[type, name], semi, rfl, hsemi⟩
    | @initialized type name o semi ts _ _ _ _ _ _ hsemi => exact ⟨type :: name :: o :: ts, semi, rfl, hsemi⟩
    | @methodCall ms name ts l r semi _ _ _ _ _ _ hsemi => exact ⟨ms ++ (name ++ l :: (ts ++ [r])), semi, by simp, hsemi⟩
    | @assignment ms ts name o semi _ _ _ _ _ hsemi => exact ⟨ms ++ name :: o :: ts, semi, by simp, hsemi⟩
    | @increment ms name o semi _ _ _ hsemi | @decrement ms name o semi _ _ _ hsemi =>
      exact ⟨ms ++ [name, o], semi, by simp, hsemi⟩
  exact ⟨_, part, before, after, semi, p, by simpa using htokens, rfl, hsemi, hreads, hpart⟩

/-- If nothing is reported of the tokens, then without a semicolon that ends a call, an assignment, an increment or a
    decrement, at any depth, they are parsed as before, and the missing semicolon is reported at the first token of the
    statement. Modifiers in front of it do not belong to it. -/
theorem plain_spared {tokens part : List Token} {k : Nat} {st : Stmt} {first : Token}
    (hends : EndsAt tokens k part st) (hst : st.isPlain) (hfirst : part.find? (!·.kind.isModifier) = some first) :
    Spared tokens k first := by
  refine spared_of_takes hends fun v hv _ => ?_
  obtain ⟨-, -, semi, -, -, -, -, hreads, -⟩ := hends
  obtain ⟨construct, htakes⟩ := Parser.takes_plain (s := .ofTokens (tokens.eraseIdx k) none) rfl hreads hst hfirst hv
  exact ⟨construct, none, htakes, fun t ht => by cases ht⟩

/-- The branch in front of an `else` may lack its semicolon. -/
theorem plain_spared_then :
    let t (kind : TokenKind) (text : String) (column : Int) : Token := ⟨kind, text, text, ⟨"x", 1, column, column - 1⟩⟩
    let x := t .identifier "x" 8
    let part := [x, t .increment "++" 9]
    let tokens := [t .kwIf "if" 1, t .leftParen "(" 4, t .identifier "c" 5, t .rightParen ")" 6] ++ part ++
      [t .semicolon ";" 11, t .kwElse "else" 13, t .identifier "f" 18, t .leftParen "(" 19, t .rightParen ")" 20,
        t .semicolon ";" 21]
    EndsAt tokens 6 part (.increment "x" 1) ∧ part.find? (!·.kind.isModifier) = some x ∧ Spared tokens 6 x := by
  intro t x part tokens
  let before := [t .kwIf "if" 1, t .leftParen "(" 4, t .identifier "c" 5, t .rightParen ")" 6]
  let call := [t .identifier "f" 18, t .leftParen "(" 19, t .rightParen ")" 20, t .semicolon ";" 21]
  have hcondition : ReadsExpr .condition [t .identifier "c" 5] (.identifier "c" 1) :=
    .ofExpression (.ofTerm (.ofFactor (.identifier rfl)))
  have hcall : ReadsStmt call (.methodCall "f" [] 1) := .methodCall modifiers_nil (.single rfl) rfl .none rfl rfl
  have hframe : Frame before (t .kwElse "else" 13 :: call) (.increment "x" 1)
      (.ifElse (.identifier "c" 1) (some (.increment "x" 1)) (some (.methodCall "f" [] 1)) 1) :=
    .thenBranch modifiers_nil rfl rfl hcondition rfl rfl rfl hcall
  have hpart := @HasPart.mk _ _ _ [] [] _ (by simp) (by simp) (.within .self hframe)
  have hends : EndsAt tokens 6 part (.increment "x" 1) :=
    ⟨before, t .kwElse "else" 13 :: call, t .semicolon ";" 11, _, rfl, rfl, rfl, .increment modifiers_nil rfl rfl rfl, hpart⟩
  exact ⟨hends, rfl, plain_spared hends rfl rfl⟩

/-- Likewise, without the semicolon that ends a declaration, it is reported at the name of the variable; but only if behind
    it stands a token at which parsing can resume, or an end of the input. -/
theorem declaration_spared {tokens more : List Token} {k : Nat} {type name : Token} {typeName varName : String}
    {e : Option Expr} {line : Int}
    (hends : EndsAt tokens k (type :: name :: more) (.declaration typeName varName e line))
    (hnext : ∀ t ∈ tokens[k + 1]?, t.kind ∉ [.kwStatic, .kwFinal, .kwClass, .leftBrace, .kwElse]) :
    Spared tokens k name := by
  refine spared_of_takes hends fun v hv hbehind => ?_
  obtain ⟨-, -, semi, -, -, -, -, hreads, -⟩ := hends
  have hstops : v.kind.stopsResuming := by
    rcases hbehind with hk | hbehind
    · rw [hk]
      rfl
    · have hne := hnext v hbehind
      revert hv hne
      cases v.kind <;> decide
  exact ⟨_, _, Parser.takes_declaration rfl hreads hstops, fun t ht => Option.mem_some.mp ht ▸ hstops⟩

/-- A declaration in a class may lack its semicolon in front of a method with a visibility. -/
theorem declaration_spared_public :
    let t (kind : TokenKind) (text : String) (column : Int) : Token := ⟨kind, text, text, ⟨"x", 1, column, column - 1⟩⟩
    let name := t .identifier "a" 13
    let tokens := [t .kwClass "class" 1, t .identifier "A" 7, t .leftBrace "\x7b" 9, t .kwInt "int" 11, name,
      t .semicolon ";" 14, t .kwPublic "public" 16, t .kwInt "int" 23, t .identifier "f" 27, t .leftParen "(" 28,
      t .rightParen ")" 29, t .leftBrace "\x7b" 31, t .rightBrace "\x7d" 32, t .rightBrace "\x7d" 34]
    EndsAt tokens 5 [t .kwInt "int" 11, name] (.declaration "int" "a" none 1) ∧
      (∀ t ∈ tokens[6]?, t.kind ∉ [.kwStatic, .kwFinal, .kwClass, .leftBrace, .kwElse]) ∧ Spared tokens 5 name := by
  intro t name tokens
  let method := [t .kwPublic "public" 16, t .kwInt "int" 23, t .identifier "f" 27, t .leftParen "(" 28,
    t .rightParen ")" 29, t .leftBrace "\x7b" 31, t .rightBrace "\x7d" 32]
  let before := [t .kwClass "class" 1, t .identifier "A" 7, t .leftBrace "\x7b" 9]
  let after := method ++ [t .rightBrace "\x7d" 34]
  let decl : Stmt := .declaration "int" "a" none 1
  have hmethod : ReadsStmt method (.methodDecl "f" ⟨"int", 1⟩ [⟨"public", 1⟩] [] 1) := by
    refine @ReadsStmt.methodDecl [t .kwPublic "public" 16] [] _ _ _ _ _ _ [] ?_ rfl rfl rfl rfl rfl rfl ?_ rfl
    · simp [Modifiers, t, TokenKind.isModifier]
    · simp
  have hframe : Frame before after decl
      (.classDecl "A" [] [decl, .methodDecl "f" ⟨"int", 1⟩ [⟨"public", 1⟩] [] 1] 1) := by
    refine @Frame.classBody [] _ _ _ _ [] [(method, _)] _ modifiers_nil rfl rfl rfl ?_ ?_ rfl
    · simp
    · simpa using hmethod
  have hpart := @HasPart.mk _ _ _ [] [] _ (by simp) (by simp) (.within .self hframe)
  have hends : EndsAt tokens 5 [t .kwInt "int" 11, name] decl :=
    ⟨before, after, t .semicolon ";" 14, _, rfl, rfl, rfl, .declaration rfl (by decide) rfl rfl, hpart⟩
  have hnext : ∀ t ∈ tokens[6]?, t.kind ∉ [.kwStatic, .kwFinal, .kwClass, .leftBrace, .kwElse] := by decide
  exact ⟨hends, hnext, declaration_spared hends hnext⟩

/-- In front of `static`, however, the declaration is not spared: the modifier of the method behind it is skipped. -/
theorem declaration_not_spared :
    let t (kind : TokenKind) (text : String) (column : Int) : Token := ⟨kind, text, text, ⟨"x", 1, column, column - 1⟩⟩
    let name := t .identifier "a" 5
    let tokens := [t .kwInt "int" 1, name, t .semicolon ";" 6, t .kwStatic "static" 8, t .kwInt "int" 15,
      t .identifier "f" 19, t .leftParen "(" 20, t .rightParen ")" 21, t .leftBrace "\x7b" 23, t .rightBrace "\x7d" 25]
    (Report.ofTokens tokens none).diagnostics = [] ∧
      EndsAt tokens 2 [t .kwInt "int" 1, name] (.declaration "int" "a" none 1) ∧ ¬Spared tokens 2 name := by
  intro t name tokens
  let method := [t .kwStatic "static" 8, t .kwInt "int" 15, t .identifier "f" 19, t .leftParen "(" 20,
    t .rightParen ")" 21, t .leftBrace "\x7b" 23, t .rightBrace "\x7d" 25]
  have hmethod : ReadsStmt method (.methodDecl "f" ⟨"int", 1⟩ [⟨"static", 1⟩] [] 1) := by
    refine @ReadsStmt.methodDecl [t .kwStatic "static" 8] [] _ _ _ _ _ _ [] ?_ rfl rfl rfl rfl rfl rfl ?_ rfl
    · simp [Modifiers, t, TokenKind.isModifier]
    · simp
  have hpart := @HasPart.mk (.declaration "int" "a" none 1) _ _ [] [(method, _)] _ (by simp) (by simpa using hmethod) .self
  have hends : EndsAt tokens 2 [t .kwInt "int" 1, name] (.declaration "int" "a" none 1) :=
    ⟨[], method, t .semicolon ";" 6, _, rfl, rfl, rfl, .declaration rfl (by decide) rfl rfl, hpart⟩
  refine ⟨by decide +kernel, hends, fun h => ?_⟩
  obtain ⟨tree, hroot, hroot'⟩ := h.root
  have hsize : (Report.ofTokens tokens none).root.map Tree.size ≠
      (Report.ofTokens (tokens.eraseIdx 2) none).root.map Tree.size := by decide +kernel
  exact hsize (by rw [hroot, hroot'])

end Curly
