import Curly.Proofs.Parser.Totality

/-! Parses that are broken off. Until the statement begins at which it is broken off, a parse goes as if nobody broke it
    off; so only the tree is lost, and what was reported before is reported. Main statement: `parse_interrupted`. -/

namespace Curly

/-- Whether an entry of the log tells that a statement begins. -/
def Event.isBegin : Event → Bool
  | .began _ => true
  | _ => false

/-- The number of statements that begin. -/
def beginnings (log : List Event) : Nat := log.countP Event.isBegin

theorem beginnings_append (log more : List Event) : beginnings (log ++ more) = beginnings log + beginnings more :=
  List.countP_append

theorem lt_beginnings (before rest : List Event) (ahead : Nat) :
    beginnings before < beginnings (before ++ .began ahead :: rest) := by
  rw [beginnings_append]
  exact Nat.lt_add_of_pos_right (List.countP_pos_iff.mpr ⟨_, List.mem_cons_self, rfl⟩)

/-- The report of a parse that was broken off for a reason at the token `t`: there is no tree, and behind what was
    reported so far there is one diagnostic of what broke it off. -/
structure Report.BrokenOff (r : Report) (found : List Mistake) (reason : String) (t : Token) : Prop where
  root : r.root = none
  errors : ∃ d : Diagnostic, d.code = some "P099" ∧ d.severity = "fatal" ∧ d.message = "Fatal error: " ++ reason ∧
    d.location = t.location ∧ r.errors = found.map Mistake.toDiagnostic ++ [d] ∧ r.fatal = some d

namespace Parser
variable {α β ι : Type}

/-! ### Parsers in which no statement begins -/

/-- From the cursor on, no statement has begun. -/
structure Unbegun (c : Cursor) (o : Outcome α) : Prop where
  suffix : o.cursor.ahead <:+ c.ahead
  begun : o.cursor.begun = c.begun
  log : beginnings o.log = 0

theorem Unbegun.here {c : Cursor} {o : Outcome α} (hc : o.cursor = c) (hl : beginnings o.log = 0) : Unbegun c o :=
  ⟨hc ▸ List.suffix_refl _, hc ▸ rfl, hl⟩

/-- No statement begins, and what the parser comes to does not depend on the setting. -/
def Steady (p : Parser α) : Prop := ∀ s c, Unbegun c (p s c) ∧ ∀ s', p s' c = p s c

theorem steady_pure (a : α) : Steady (pure a) := fun _ _ => ⟨.here rfl rfl, fun _ => rfl⟩

theorem steady_bind {p : Parser α} {f : α → Parser β} (hp : Steady p) (hf : ∀ a, Steady (f a)) : Steady (p >>= f) := by
  intro s c
  show Unbegun c ((p s c).andThen fun a d => f a s d) ∧
    ∀ s', ((p s' c).andThen fun a d => f a s' d) = (p s c).andThen fun a d => f a s d
  obtain ⟨hp, hp'⟩ := hp s c
  cases h : p s c with
  | stopped stop d log =>
    rw [h] at hp
    exact ⟨⟨hp.suffix, hp.begun, hp.log⟩, fun s' => by simp only [hp', h, Outcome.andThen]⟩
  | done a d log =>
    rw [h] at hp
    obtain ⟨hf, hf'⟩ := hf a s d
    refine ⟨?_, fun s' => by simp only [hp', h, Outcome.andThen, hf']⟩
    simp only [Outcome.andThen]
    have hlog : beginnings log + beginnings (f a s d).log = 0 := congrArg₂ (· + ·) hp.log hf.log
    rw [← beginnings_append] at hlog
    cases h' : f a s d <;> rw [h'] at hf hlog <;> exact ⟨hf.suffix.trans hp.suffix, hf.begun.trans hp.begun, hlog⟩

theorem steady_fixOver {rule : (ι → Parser α) → ι → Parser α}
    (h : ∀ p : ι → Parser α, (∀ i, Steady (p i)) → ∀ i, Steady (rule p i)) (i : ι) : Steady (fixOver rule i) :=
  fixOver_of (Q := fun s c o => Unbegun c (o s) ∧ ∀ s', o s' = o s) (fun _ _ => ⟨.here rfl rfl, fun _ => rfl⟩) h i

theorem steady_peek : Steady peek := by
  intro s c
  unfold peek
  split <;> exact ⟨.here rfl rfl, fun _ => rfl⟩

theorem steady_advance : Steady advance := by
  intro s ⟨ahead, n⟩
  unfold advance
  cases ahead with
  | nil => exact ⟨.here rfl rfl, fun _ => rfl⟩
  | cons t rest =>
    by_cases ht : t.kind = .eof
    · simp only [ht, ↓reduceIte]
      exact ⟨.here rfl rfl, fun _ => trivial⟩
    · simp only [ht, ↓reduceIte]
      exact ⟨⟨List.suffix_cons _ _, rfl, rfl⟩, fun _ => trivial⟩

theorem steady_speculate {p : Parser α} (hp : Steady p) : Steady (speculate p) := by
  intro s c
  obtain ⟨hp, hp'⟩ := hp s c
  unfold speculate
  simp only [hp', implies_true, and_true]
  cases h : p s c <;> rw [h] at hp <;> exact ⟨List.suffix_refl _, hp.begun, hp.log⟩

theorem reading_steady : ClosedReading Steady where
  pure := steady_pure
  bind := steady_bind
  fixOver := steady_fixOver
  peek := steady_peek
  advance := steady_advance

theorem steady_report (m : Mistake) : Steady (report m) := fun _ _ => ⟨.here rfl rfl, fun _ => rfl⟩

theorem steady_resume : Steady resume := fun _ _ => ⟨⟨List.drop_suffix _ _, rfl, rfl⟩, fun _ => rfl⟩

/-! ### Breaking off -/

section
variable {s : Setting} {number : Nat} {message : String} {c d : Cursor}

/-- What a parse from `c` comes to, and what it comes to when it is broken off at the statement of the given number: the
    same, if fewer statements begin; or else it stops where this one begins, and the log breaks off there. -/
inductive Cut (number : Nat) (message : String) (c : Cursor) : Outcome α → Outcome α → Prop where
  | same {o : Outcome α} (suffix : o.cursor.ahead <:+ c.ahead) (begun : o.cursor.begun = c.begun + beginnings o.log)
    (before : o.cursor.begun < number) : Cut number message c o o
  | brokenOff {o : Outcome α} {d : Cursor} {log rest : List Event} (suffix : d.ahead <:+ c.ahead)
    (split : o.log = log ++ .began d.ahead.length :: rest) (at_number : c.begun + beginnings log + 1 = number) :
    Cut number message c o (.stopped (.interrupted message) d log)

/-- Breaking the parser off later only cuts short what it does. -/
def Cuttable (s : Setting) (number : Nat) (message : String) (p : Parser α) : Prop :=
  ∀ c, c.begun < number → Cut number message c (p s c) (p { s with interruption := some ⟨number, message⟩ } c)

theorem Steady.cuttable {p : Parser α} (hp : Steady p) : Cuttable s number message p := by
  intro c hc
  obtain ⟨hp, hp'⟩ := hp s c
  simp only [hp']
  exact .same hp.suffix (by rw [hp.begun, hp.log, Nat.add_zero]) (hp.begun ▸ hc)

theorem cuttable_bind {p : Parser α} {f : α → Parser β} (hp : Cuttable s number message p)
    (hf : ∀ a, Cuttable s number message (f a)) : Cuttable s number message (p >>= f) := by
  intro c hc
  let s' : Setting := { s with interruption := some ⟨number, message⟩ }
  show Cut number message c ((p s c).andThen fun a d => f a s d) ((p s' c).andThen fun a d => f a s' d)
  have hpc : Cut number message c (p s c) (p s' c) := hp c hc
  generalize p s c = o, p s' c = o' at hpc
  cases hpc with
  | brokenOff suffix split at_number =>
    cases o with
    | stopped => exact .brokenOff suffix split at_number
    | done a d log =>
      have hlog : log ++ (f a s d).log = _ := (congrArg (· ++ (f a s d).log) split).trans (List.append_assoc _ _ _)
      simp only [Outcome.andThen]
      cases h : f a s d <;> rw [h] at hlog <;> exact .brokenOff suffix hlog at_number
  | same suffix begun before =>
    cases o with
    | stopped => exact .same suffix begun before
    | done a d log =>
      have hfd : Cut number message d (f a s d) (f a s' d) := hf a d before
      change d.ahead <:+ c.ahead at suffix
      change d.begun = c.begun + beginnings log at begun
      simp only [Outcome.andThen]
      generalize f a s d = o, f a s' d = o' at hfd
      cases hfd with
      | same suffix' begun' before' =>
        cases o <;> refine .same (suffix'.trans suffix) (begun'.trans ?_) before' <;>
          rw [begun, Nat.add_assoc, ← beginnings_append] <;> rfl
      | @brokenOff e more rest suffix' split' at_number' =>
        have hlog : log ++ o.log = log ++ more ++ .began e.ahead.length :: rest :=
          (congrArg (log ++ ·) split').trans (List.append_assoc _ _ _).symm
        have hnumber : c.begun + beginnings (log ++ more) + 1 = number := by
          rw [beginnings_append, ← Nat.add_assoc, ← begun]
          exact at_number'
        cases o <;> exact .brokenOff (suffix'.trans suffix) hlog hnumber

theorem cuttable_fixOver {rule : (ι → Parser α) → ι → Parser α}
    (h : ∀ p : ι → Parser α, (∀ i, Cuttable s number message (p i)) → ∀ i, Cuttable s number message (rule p i))
    (i : ι) : Cuttable s number message (fixOver rule i) :=
  fixOver_of
    (Q := fun _ c o => c.begun < number → Cut number message c (o s) (o { s with interruption := some ⟨number, message⟩ }))
    (fun _ _ hc => .same (List.suffix_refl _) rfl hc) (fun p hp i _ => h p (fun j => hp j s) i) i s

theorem cuttable_begin (hs : s.interruption = none) : Cuttable s number message begin := by
  intro c hc
  by_cases hn : number = c.begun + 1
  · simp only [begin, hs, hn, ↓reduceIte]
    exact .brokenOff (List.suffix_refl c.ahead) rfl rfl
  · simp only [begin, hs, hn, ↓reduceIte]
    refine .same (List.suffix_refl c.ahead) rfl ?_
    show c.begun + 1 < number
    omega

theorem cuttable_beginProgram (hs : s.interruption = none) : Cuttable s number message beginProgram := by
  intro c hc
  obtain ⟨number, rfl⟩ := Nat.exists_eq_add_of_lt hc
  simp only [beginProgram, hs]
  exact .same (List.suffix_refl c.ahead) rfl hc

theorem closed_cuttable (hs : s.interruption = none) : Closed (Cuttable s number message) where
  pure a := (steady_pure a).cuttable
  bind := cuttable_bind
  fixOver := cuttable_fixOver
  peek := steady_peek.cuttable
  advance := steady_advance.cuttable
  report m := (steady_report m).cuttable
  namesMethod := (reading_steady.namesMethod fun _ => steady_speculate).cuttable
  isMethodCall := (reading_steady.isMethodCall fun _ => steady_speculate).cuttable
  endDeclaration name := (reading_steady.endDeclaration steady_report steady_resume name).cuttable
  begin := cuttable_begin hs
  beginProgram := cuttable_beginProgram hs

/-- A parse that is broken off is cut short where the statement begins. -/
theorem cuttable_program (hs : s.interruption = none) : Cuttable s number message program :=
  (closed_cuttable hs).program

end

end Parser

/-! ### Reports -/

section
variable {tokens : List Token} {number : Nat} {message : String}

/-- The token at which the rest of the input begins. -/
theorem getElem?_indexOf {ahead rest : List Token} {t : Token} (h : ahead <:+ Token.close tokens)
    (ha : ahead = t :: rest) : (Token.close tokens)[Token.indexOf tokens ahead.length]? = some t := by
  obtain ⟨before, hbefore⟩ := h
  rw [Token.indexOf, ← hbefore, List.length_append, Nat.add_sub_cancel, List.getElem?_append_right (Nat.le_refl _),
    Nat.sub_self, ha, List.getElem?_cons_zero]

/-- Where a statement begins there is a token. -/
theorem exists_of_began {e : Cursor} (h : e.ahead <:+ Token.close tokens)
    (hbegan : Event.Between (.ofTokens tokens) (.began e.ahead.length)) :
    ∃ t rest, e.ahead = t :: rest ∧ (Token.close tokens)[Token.indexOf tokens e.ahead.length]? = some t := by
  have hpos : 0 < e.ahead.length := Nat.lt_of_lt_of_le (List.length_pos_of_ne_nil (open_ofTokens tokens)) hbegan.1
  obtain ⟨t, rest, hahead⟩ := List.exists_cons_of_length_pos hpos
  exact ⟨t, rest, hahead, getElem?_indexOf h hahead⟩

/-- The report of a parse that stopped where it was broken off. -/
theorem brokenOff_of_stopped {s : Setting} {start d : Cursor} {log : List Event} {t : Token} {rest : List Token}
    (hd : d.ahead = t :: rest) :
    (Report.ofOutcome s start (.stopped (.interrupted message) d log)).BrokenOff (log.filterMap Event.mistake?) message
      t := by
  have ht : s.current d = t := by rw [Setting.current, hd, List.head?_cons, Option.getD_some]
  have hfatal : (Report.ofOutcome s start (.stopped (.interrupted message) d log)).fatal =
      some (.fatal message t.location) := by rw [← ht]; rfl
  refine ⟨rfl, .fatal message t.location, rfl, rfl, rfl, rfl, ?_, hfatal⟩
  rw [Report.errors, hfatal]
  rfl

end

/-- A parse that is broken off loses the tree, but no diagnostic. If it is broken off before the first statement, nothing
    else is reported. If it is broken off where a statement begins, then exactly the mistakes are reported that a parse
    which nobody breaks off finds before this statement begins, and the diagnostic of what broke it off is located at the
    token there. If no such statement begins, then nothing is lost. -/
theorem parse_interrupted (tokens : List Token) (number : Nat) (message : String) :
    let r := Report.ofTokens tokens none
    let r' := Report.ofTokens tokens (some ⟨number, message⟩)
    number = 0 ∧ (∃ t, (Token.close tokens)[0]? = some t ∧ r'.BrokenOff [] message t) ∨
    (0 < number ∧ number ≤ beginnings r.log ∧ ∃ log ahead rest t, r.log = log ++ .began ahead :: rest ∧
      beginnings log + 1 = number ∧ (Token.close tokens)[Token.indexOf tokens ahead]? = some t ∧
      r'.BrokenOff (log.filterMap Event.mistake?) message t) ∨
    beginnings r.log < number ∧ r' = r := by
  intro r r'
  have hopen := open_ofTokens tokens
  cases number with
  | zero =>
    obtain ⟨t, rest, hahead⟩ := hopen.ahead
    have hclose : Token.close tokens = t :: rest := hahead
    exact .inl ⟨rfl, t, by rw [hclose, List.getElem?_cons_zero], brokenOff_of_stopped hahead⟩
  | succ number =>
    have hnone : (Setting.ofTokens tokens none).interruption = none := rfl
    obtain ⟨p, d, log, hp, -⟩ := Parser.yields_iff.mp (Parser.yields_program hnone _ hopen)
    have hkept := Parser.safe_program (.ofTokens tokens none) _ hopen
    have hcuttable : Parser.Cuttable _ (number + 1) message Parser.program := Parser.cuttable_program hnone
    have hcut := hcuttable (.ofTokens tokens) (Nat.succ_pos number)
    simp only [r, r', Report.ofTokens]
    rw [hp] at hkept hcut ⊢
    change Parser.Cut _ _ _ _ (Parser.program (.ofTokens tokens (some ⟨number + 1, message⟩)) _) at hcut
    generalize Parser.program (.ofTokens tokens (some ⟨number + 1, message⟩)) _ = o' at hcut ⊢
    cases hcut with
    | same _ begun before =>
      refine .inr (.inr ⟨?_, rfl⟩)
      exact Nat.lt_of_le_of_lt (Nat.le_of_eq (begun.trans (Nat.zero_add _)).symm) before
    | @brokenOff e before rest suffix split at_number =>
      have hnumber : beginnings before + 1 = number + 1 := (Nat.zero_add _ ▸ at_number :)
      have hbegan : Event.Between (.ofTokens tokens) (.began e.ahead.length) :=
        hkept.events _ (split ▸ List.mem_append_right _ List.mem_cons_self)
      obtain ⟨t, more, hahead, ht⟩ := exists_of_began suffix hbegan
      have hcount : beginnings before < beginnings log := by
        rw [show log = _ from split]
        exact lt_beginnings _ _ _
      exact .inr (.inl ⟨Nat.succ_pos _, hnumber ▸ hcount, before, e.ahead.length, rest, t, split, hnumber, ht,
        brokenOff_of_stopped hahead⟩)

end Curly
