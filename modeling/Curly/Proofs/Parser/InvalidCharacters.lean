import Curly.Command.Run
import Curly.Proofs.Parser.Composition
import Curly.Proofs.Syntax.Part
import Curly.Proofs.Token.Locality

/-! Invalid characters in a text that is parsed. No expression and no statement has one among its tokens, except among
    the parameters of methods, of which nothing is looked at but the parentheses. Main statement: `invalid_noticed`. -/

namespace Curly

/-! ### Warnings -/

/-- One warning for each invalid token, where the token stands. -/
theorem Scan.locations_warnings (file : String) (p : Place) : (run file p).warnings.map Diagnostic.location =
    ((run file p).tokens.filter (·.kind == .error)).map Token.location := by
  induction p using Scan.induction with
  | stop p h =>
    rw [run_stop h]
    rfl
  | token p c rest h ih =>
    rw [run_token h]
    by_cases hk : (Lexeme.read c rest).kind = .error
    · have hlocation : ∀ l, (Diagnostic.invalidCharacter c l).location = l := fun _ => rfl
      simpa [cons, Reading.at, hk, hlocation] using ih
    · simpa [cons, Reading.at, hk] using ih

/-! ### Where invalid tokens stand -/

/-- Of every invalid token, the tokens in front of it and those behind it have the property. -/
def Invalid (P : List Token → Token → List Token → Prop) (ts : List Token) : Prop :=
  ∀ front t back, ts = front ++ t :: back → t.kind = .error → P front t back

/-- No token is invalid. -/
def Clean (ts : List Token) : Prop := ∀ t ∈ ts, t.kind ≠ .error

section
variable {P Q : List Token → Token → List Token → Prop} {ts us before after : List Token} {t : Token}

@[simp] theorem clean_nil : Clean [] := List.forall_mem_nil _

@[simp] theorem clean_cons : Clean (t :: ts) ↔ t.kind ≠ .error ∧ Clean ts := List.forall_mem_cons

@[simp] theorem clean_append : Clean (ts ++ us) ↔ Clean ts ∧ Clean us := List.forall_mem_append

theorem Clean.invalid (h : Clean ts) : Invalid P ts := by
  rintro front t back rfl ht
  exact (h t (List.mem_append_right _ List.mem_cons_self) ht).elim

theorem invalid_append (h : Invalid (fun front t back => P front t (back ++ us)) ts)
    (h' : Invalid (fun front t back => P (ts ++ front) t back) us) : Invalid P (ts ++ us) := by
  intro front t back heq ht
  rcases List.append_eq_append_iff.mp heq with ⟨more, rfl, hus⟩ | ⟨more, rfl, hback⟩
  · exact h' more t back hus ht
  · cases more with
    | nil => simpa using h' [] t back hback.symm ht
    | cons u more =>
      obtain ⟨rfl, rfl⟩ := List.cons.inj hback
      exact h front t more rfl ht

/-- Invalid tokens between others that are none. -/
theorem Invalid.within (hbefore : Clean before) (hafter : Clean after)
    (h : Invalid (fun front t back => P (before ++ front) t (back ++ after)) ts) :
    Invalid P (before ++ (ts ++ after)) :=
  invalid_append hbefore.invalid (invalid_append h hafter.invalid)

theorem Invalid.mono (h : Invalid P ts) (hPQ : ∀ front t back, P front t back → Q front t back) : Invalid Q ts :=
  fun front t back heq ht => hPQ front t back (h front t back heq ht)

/-- Invalid tokens in a body. -/
theorem invalid_flatMap {body : List (List Token × Stmt)} (h : ∀ earlier x later, body = earlier ++ x :: later →
      Invalid (fun front t back => P (earlier.flatMap Prod.fst ++ front) t (back ++ later.flatMap Prod.fst)) x.1) :
    Invalid P (body.flatMap Prod.fst) := by
  induction body generalizing P with
  | nil => exact clean_nil.invalid
  | cons x body ih =>
    refine invalid_append (h [] x body rfl) (ih fun earlier y later heq => ?_)
    simpa using h (x :: earlier) y later (congrArg _ heq)

end

/-! ### Expressions -/

theorem TokenKind.ne_error {K : TokenKind → Bool} {k : TokenKind} (h : K k) (hK : K .error = false) : k ≠ .error := by
  rintro rfl
  rw [hK] at h
  cases h

theorem ReadsExpr.clean {level : Level} {ts : List Token} {e : Expr} (h : ReadsExpr level ts e) : Clean ts := by
  induction h with
  | number h | identifier h | string h => simp [Clean, h]
  | postIncrement h hu | postDecrement h hu => simp [Clean, h, hu]
  | parenthesized hl _ hr ih => simp [hl, hr, ih]
  | ofFactor _ ih | ofTerm _ ih | ofExpression _ ih => exact ih
  | product _ ho _ ih ih' | sum _ ho _ ih ih' | comparison _ ho _ ih ih' =>
    exact clean_append.mpr ⟨ih, clean_cons.mpr ⟨TokenKind.ne_error ho rfl, ih'⟩⟩

theorem ReadsArguments.clean {ts : List Token} {es : List Expr} (h : ReadsArguments ts es) : Clean ts := by
  induction h with
  | none => exact clean_nil
  | last h => exact h.clean
  | cons h ho _ ih => exact clean_append.mpr ⟨h.clean, clean_cons.mpr ⟨by simp [ho], ih⟩⟩

theorem DottedName.clean {ts : List Token} (h : DottedName ts) : Clean ts := by
  induction h with
  | single h => simp [Clean, h]
  | cons h hd _ ih => exact clean_cons.mpr ⟨by simp [h], clean_cons.mpr ⟨by simp [hd], ih⟩⟩

theorem Modifiers.clean {ms : List Token} (h : Modifiers ms) : Clean ms := fun t ht => TokenKind.ne_error (h t ht) rfl

/-! ### Statements -/

/-- The token between the others is among the parameters of a method somewhere in the statement. -/
def SkippedIn (st : Stmt) (front : List Token) (t : Token) (back : List Token) : Prop :=
  ∃ before head ps ps' tail after inner, front = before ++ (head ++ ps) ∧ back = ps' ++ (tail ++ after) ∧
    HasParameters head (ps ++ t :: ps') tail inner ∧ PartOf inner before after st

theorem SkippedIn.within {mid outer : Stmt} {front back before after : List Token} {t : Token}
    (h : SkippedIn mid front t back) (hf : Frame before after mid outer) :
    SkippedIn outer (before ++ front) t (back ++ after) := by
  obtain ⟨before', head, ps, ps', tail, after', inner, rfl, rfl, hparameters, hpart⟩ := h
  exact ⟨before ++ before', head, ps, ps', tail, after' ++ after, inner, by simp, by simp, hparameters, hpart.within hf⟩

/-- A part of a statement has invalid tokens only among parameters, and they are so in the whole. -/
theorem Invalid.framed {mid outer : Stmt} {ts before after : List Token} (h : Invalid (SkippedIn mid) ts)
    (hf : Frame before after mid outer) :
    Invalid (fun front t back => SkippedIn outer (before ++ front) t (back ++ after)) ts :=
  h.mono fun _ _ _ hskipped => hskipped.within hf

/-- Invalid tokens in the body of a statement, and in front of it. -/
theorem invalid_body {outer : Stmt} {before after : List Token} {body : List (List Token × Stmt)}
    (hbefore : Invalid (fun front t back => SkippedIn outer front t (back ++ (body.flatMap Prod.fst ++ after))) before)
    (hafter : Clean after) (h : ∀ x ∈ body, ReadsStmt x.1 x.2) (ih : ∀ x ∈ body, Invalid (SkippedIn x.2) x.1)
    (hf : ∀ earlier x later, body = earlier ++ x :: later → (∀ y ∈ earlier, ReadsStmt y.1 y.2) →
      (∀ y ∈ later, ReadsStmt y.1 y.2) →
      Frame (before ++ earlier.flatMap Prod.fst) (later.flatMap Prod.fst ++ after) x.2 outer) :
    Invalid (SkippedIn outer) (before ++ (body.flatMap Prod.fst ++ after)) := by
  refine invalid_append hbefore (invalid_append (invalid_flatMap fun earlier x later heq => ?_) hafter.invalid)
  subst heq
  obtain ⟨hearlier, hrest⟩ := List.forall_mem_append.mp h
  have hframe := hf earlier x later rfl hearlier (List.forall_mem_cons.mp hrest).2
  simpa using (ih x (List.mem_append_right _ List.mem_cons_self)).framed hframe

theorem ReadsStmt.invalid {ts : List Token} {st : Stmt} (h : ReadsStmt ts st) : Invalid (SkippedIn st) ts := by
  induction h with
  | @classDecl ms kw name l r body hms hkw hname hl h hr ih =>
    have hts : ms ++ kw :: name :: l :: (body.flatMap Prod.fst ++ [r]) =
        (ms ++ [kw, name, l]) ++ (body.flatMap Prod.fst ++ [r]) := by simp
    have hhead : Clean (ms ++ [kw, name, l]) := by simp [hms.clean, hkw, hname, hl]
    have hlast : Clean [r] := by simp [hr]
    rw [hts]
    refine invalid_body hhead.invalid hlast h ih fun earlier x later heq hearlier hlater => ?_
    subst heq
    simpa using Frame.classBody hms hkw hname hl hearlier hlater hr
  | @methodDecl ms ps type name l r lb rb body hms htype hname hl hps hr hlb h hrb ih =>
    have hts : ms ++ type :: name :: l :: (ps ++ r :: lb :: (body.flatMap Prod.fst ++ [rb])) =
        (ms ++ [type, name, l] ++ (ps ++ [r, lb])) ++ (body.flatMap Prod.fst ++ [rb]) := by simp
    have hhead : Clean (ms ++ [type, name, l]) := by simp [hms.clean, TokenKind.ne_error htype rfl, hname, hl]
    have hmid : Clean [r, lb] := by simp [hr, hlb]
    have hlast : Clean [rb] := by simp [hrb]
    rw [hts]
    refine invalid_body (Invalid.within hhead hmid fun front t back heq ht => ?_) hlast h ih
      fun earlier x later heq hearlier hlater => ?_
    -- Among the parameters of this method.
    · subst heq
      exact ⟨[], _, front, back, _, [], _, rfl, by simp, .mk hms htype hname hl hps hr hlb h hrb, .self⟩
    · subst heq
      simpa using Frame.methodBody hms htype hname hl hps hr hlb hearlier hlater hrb
  | @block ms l r body hms hl h hr ih =>
    have hts : ms ++ l :: (body.flatMap Prod.fst ++ [r]) = (ms ++ [l]) ++ (body.flatMap Prod.fst ++ [r]) := by simp
    have hhead : Clean (ms ++ [l]) := by simp [hms.clean, hl]
    have hlast : Clean [r] := by simp [hr]
    rw [hts]
    refine invalid_body hhead.invalid hlast h ih fun earlier x later heq hearlier hlater => ?_
    subst heq
    simpa using Frame.blockBody hms hl hearlier hlater hr
  | @whileLoop ms ts us kw l r e b hms hkw hl he hr _ ih =>
    have hhead : Clean (ms ++ kw :: l :: (ts ++ [r])) := by simp [hms.clean, hkw, hl, he.clean, hr]
    simpa using Invalid.within hhead clean_nil (ih.framed (.loopBody hms hkw hl he hr))
  | @ifThen ms ts us kw l r e a hms hkw hl he hr _ ih =>
    have hhead : Clean (ms ++ kw :: l :: (ts ++ [r])) := by simp [hms.clean, hkw, hl, he.clean, hr]
    simpa using Invalid.within hhead clean_nil (ih.framed (.onlyBranch hms hkw hl he hr))
  | @ifElse ms ts us vs kw l r o e a b hms hkw hl he hr ha hopen ho hb iha ihb =>
    have hts : ms ++ kw :: l :: (ts ++ r :: (us ++ o :: vs)) =
        (ms ++ kw :: l :: (ts ++ [r])) ++ (us ++ ([o] ++ vs)) := by simp
    have hhead : Clean (ms ++ kw :: l :: (ts ++ [r])) := by simp [hms.clean, hkw, hl, he.clean, hr]
    have hmid : Clean [o] := by simp [ho]
    rw [hts]
    refine invalid_append hhead.invalid (invalid_append ?_ (invalid_append hmid.invalid ?_))
    · simpa using iha.framed (.thenBranch hms hkw hl he hr hopen ho hb)
    · simpa using ihb.framed (.elseBranch hms hkw hl he hr ha hopen ho)
  | declaration htype _ hname hsemi =>
    exact Clean.invalid (by simp [TokenKind.ne_error htype rfl, hname, hsemi])
  | initialized htype _ hname ho he hsemi =>
    exact Clean.invalid (by simp [TokenKind.ne_error htype rfl, hname, ho, he.clean, hsemi])
  | methodCall hms hname hl hargs hr hsemi =>
    exact Clean.invalid (by simp [hms.clean, hname.clean, hl, hargs.clean, hr, hsemi])
  | assignment hms hname ho he hsemi =>
    exact Clean.invalid (by simp [hms.clean, hname, ho, he.clean, hsemi])
  | increment hms hname ho hsemi | decrement hms hname ho hsemi =>
    exact Clean.invalid (by simp [hms.clean, hname, ho, hsemi])

/-! ### Programs -/

theorem HasParameters.reads {head ps tail : List Token} {st : Stmt} (h : HasParameters head ps tail st) :
    ReadsStmt (head ++ (ps ++ tail)) st := by
  cases h with
  | mk hms htype hname hl hps hr hlb h hrb => simpa using ReadsStmt.methodDecl hms htype hname hl hps hr hlb h hrb

theorem ReadsProgram.invalid {ts : List Token} {p : Program} (h : ReadsProgram ts p) :
    Invalid (fun front t back => ∃ before head ps ps' tail after inner, front = before ++ (head ++ ps) ∧
      back = ps' ++ (tail ++ after) ∧ HasParameters head (ps ++ t :: ps') tail inner ∧
      HasPart inner before after p) ts := by
  obtain ⟨body, hreads, rfl, rfl⟩ := h
  refine invalid_flatMap fun earlier x later heq => ?_
  subst heq
  obtain ⟨hearlier, hrest⟩ := List.forall_mem_append.mp hreads
  obtain ⟨hx, hlater⟩ := List.forall_mem_cons.mp hrest
  refine hx.invalid.mono ?_
  rintro _ t _ ⟨before, head, ps, ps', tail, after, inner, rfl, rfl, hparameters, hpart⟩
  refine ⟨earlier.flatMap Prod.fst ++ before, head, ps, ps', tail, after ++ later.flatMap Prod.fst, inner, by simp,
    by simp, hparameters, ?_⟩
  simpa using HasPart.mk hearlier hlater hpart

/-- Nothing is reported just if the invalid token is among the parameters of a method. -/
theorem diagnostics_eq_nil_iff_amongParameters {tokens : List Token} {k : Nat} {t : Token}
    (hk : (tokens.takeWhile (·.kind != .eof))[k]? = some t) (ht : t.kind = .error) :
    (Report.ofTokens tokens none).diagnostics = [] ↔ AmongParameters tokens k := by
  rw [diagnostics_eq_nil_iff]
  constructor
  · rintro ⟨p, hp⟩
    obtain ⟨hlt, heq⟩ := List.getElem?_eq_some_iff.mp hk
    have hsplit : tokens.takeWhile (·.kind != .eof) = (tokens.takeWhile (·.kind != .eof)).take k ++
        t :: (tokens.takeWhile (·.kind != .eof)).drop (k + 1) := by
      rw [← heq, List.getElem_cons_drop, List.take_append_drop]
    obtain ⟨before, head, ps, ps', tail, after, inner, hfront, hback, hparameters, hpart⟩ := hp.invalid _ _ _ hsplit ht
    have hlength : (before ++ (head ++ ps)).length = k := hfront ▸ List.length_take_of_le (Nat.le_of_lt hlt)
    refine ⟨before, head, _, tail, after, inner, p, ?_, ?_, ?_, hparameters, hpart⟩
    · rw [hsplit, hfront, hback]
      simp
    · simp [← hlength]
    · simp [← hlength]
  · rintro ⟨before, head, ps, tail, after, st, p, htokens, -, -, hparameters, hpart⟩
    exact ⟨p, htokens ▸ hpart.reads hparameters.reads⟩

/-! ### Reports -/

/-- Whatever is reported, it is an error if nothing was to be wrong, and a failure of the command. -/
theorem Report.faulty {r : Report} (h : r.diagnostics ≠ []) : (∃ e, r.strict = .error e) ∧ Command.status r ≠ 0 := by
  have herrors : r.errors ≠ [] := fun hnil => h (by rw [diagnostics, hnil]; rfl)
  constructor
  · unfold strict
    split
    · next hnil => exact (herrors (List.append_eq_nil_iff.mp hnil).2).elim
    · exact ⟨_, rfl⟩
  · have hfaulty : r.hasErrors = true := by simpa [hasErrors] using herrors
    unfold Command.status
    rw [hfaulty]
    split <;> simp

/-- An end of the input comes last among the tokens of a text, and none before. -/
theorem Source.exists_end (s : Source) : ∃ stop, stop.kind = .eof ∧
    s.tokens = s.tokens.takeWhile (·.kind != .eof) ++ [stop] := by
  have hcovers : Covers s.text.toList 0 s.tokens := covers_run (p := .start s.text.toList) ⟨rfl, Nat.zero_le _⟩
  obtain ⟨body, stop, htokens, ⟨hstop, -, -⟩, hbody⟩ := hcovers.body_eq
  have hall : ∀ t ∈ body, (t.kind != .eof) = true := fun t ht => bne_iff_ne.mpr (hbody t ht).1
  refine ⟨stop, hstop, ?_⟩
  rw [htokens, List.takeWhile_append_of_pos hall, List.takeWhile_cons_of_neg (by simp [hstop]), List.append_nil]

/-- No invalid character goes unnoticed but among the parameters of a method. Each is warned of when it is scanned; and
    for every other one there is a diagnostic, so that the text is refused if nothing was to be wrong, and the command
    fails on a file with that text. -/
theorem invalid_noticed (s : Source) (k : Nat) (t : Token) (hk : s.tokens[k]? = some t) (ht : t.kind = .error)
    (hout : ¬AmongParameters s.tokens k) :
    t.location ∈ s.scan.warnings.map Diagnostic.location ∧
      (s.parse none).diagnostics ≠ [] ∧ (∃ e, (s.parse none).strict = .error e) ∧
      ∀ (arguments : List String) (options : Command.Options) (read : String → Except FileError (List UInt8)),
        Command.readArguments arguments = .ok (.analyse options) →
        Source.ofFile options.file (read options.file) = .ok s →
        ∃ output, Command.run arguments read none = .ok output ∧ output.status ≠ 0 := by
  obtain ⟨stop, hstop, htokens⟩ := s.exists_end
  have hk' : (s.tokens.takeWhile (·.kind != .eof))[k]? = some t := by
    rw [htokens, List.getElem?_append] at hk
    split at hk
    · exact hk
    · obtain rfl := List.mem_singleton.mp (List.mem_of_getElem? hk)
      cases hstop.symm.trans ht
  have hdiagnostics : (s.parse none).diagnostics ≠ [] := fun hnil =>
    hout ((diagnostics_eq_nil_iff_amongParameters hk' ht).mp hnil)
  have hwarning : t.location ∈ s.scan.warnings.map Diagnostic.location := by
    have hmem : t ∈ s.tokens.filter (·.kind == .error) :=
      List.mem_filter.mpr ⟨List.mem_of_getElem? hk, beq_iff_eq.mpr ht⟩
    rw [Source.scan, Scan.locations_warnings]
    exact List.mem_map_of_mem hmem
  obtain ⟨hstrict, hstatus⟩ := Report.faulty hdiagnostics
  refine ⟨hwarning, hdiagnostics, hstrict, fun arguments options read harguments hfile => ?_⟩
  rw [Command.run, harguments]
  simp only [hfile]
  exact ⟨_, rfl, hstatus⟩

/-- A call with an invalid character for an argument. -/
theorem invalid_noticed_argument :
    let s := Source.mk "x" "f(#);"
    let t : Token := ⟨.error, "#", "#", ⟨"x", 1, 3, 2⟩⟩
    s.tokens[2]? = some t ∧ t.kind = .error ∧ ¬AmongParameters s.tokens 2 ∧
      t.location ∈ s.scan.warnings.map Diagnostic.location ∧
      (s.parse none).diagnostics ≠ [] ∧ (∃ e, (s.parse none).strict = .error e) ∧
      ∃ output, Command.run ["x"] (fun _ => .ok "f(#);".toUTF8.toList) none = .ok output ∧ output.status ≠ 0 := by
  intro s t
  have hk : s.tokens[2]? = some t := by decide +kernel
  have htypes : ∀ t ∈ s.tokens, t.kind.isType = false := by decide +kernel
  have hout : ¬AmongParameters s.tokens 2 := by
    rintro ⟨before, _, ps, _, after, _, p, htokens, -, -, @⟨ms, _, type, _, _, _, _, _, _, -, htype, -⟩, -⟩
    have hmem : type ∈ s.tokens.takeWhile (·.kind != .eof) := by
      rw [htokens]
      simp
    rw [htypes type ((List.takeWhile_prefix _).subset hmem)] at htype
    cases htype
  obtain ⟨hwarning, hdiagnostics, hstrict, hrun⟩ := invalid_noticed s 2 t hk rfl hout
  have hfile : Source.ofFile "x" (.ok "f(#);".toUTF8.toList) = .ok s := by decide +kernel
  exact ⟨hk, rfl, hout, hwarning, hdiagnostics, hstrict, hrun ["x"] ⟨"x", false, true, false⟩ _ (by decide +kernel) hfile⟩

/-- Among the parameters of a method, an invalid character is warned of, but nothing else comes of it. -/
theorem invalid_unnoticed :
    let s := Source.mk "x" "void f(#) \x7b \x7d"
    (∃ t ∈ s.tokens, t.kind = .error) ∧ s.scan.warnings ≠ [] ∧ (s.parse none).diagnostics = [] ∧
      (s.parse none).strict.isOk ∧
      (Command.run ["x"] (fun _ => .ok "void f(#) \x7b \x7d".toUTF8.toList) none).toOption.map Command.Output.status =
        some 0 := by
  decide +kernel

end Curly
