import Curly.Proofs.Token.Munch
import Curly.Proofs.Token.Positions
import Mathlib.Data.List.Forall2

/-! Invalid characters are warned of one by one: each invalid token that is read has its warning, which names the
    character and the place where it stands, and there is no other warning. Main statement: `run_warned`. -/

namespace Curly

/-- The warning is about the token, which is a single character, and names this character. -/
def Token.WarnedBy (t : Token) (w : Diagnostic) : Prop :=
  ∃ c : Char, t.lexeme = c.toString ∧ w = .invalidCharacter c t.location

/-- The warnings are about the invalid ones among the tokens, one for each and in their order. -/
def Warned (tokens : List Token) (warnings : List Diagnostic) : Prop :=
  List.Forall₂ Token.WarnedBy (tokens.filter (·.kind == .error)) warnings

theorem Token.WarnedBy.location {t : Token} {w : Diagnostic} (h : t.WarnedBy w) : w.location = t.location := by
  obtain ⟨c, -, rfl⟩ := h
  rfl

theorem Warned.append {tokens more : List Token} {warnings later : List Diagnostic} (h : Warned tokens warnings)
    (h' : Warned more later) : Warned (tokens ++ more) (warnings ++ later) := by
  unfold Warned
  rw [List.filter_append]
  exact List.rel_append h h'

/-- A token is warned of exactly if it is invalid. -/
theorem Reading.warned (file : String) (p : Place) (c : Char) (rest : List Char) :
    Warned [(Reading.at file p c rest).token] (Reading.at file p c rest).warning.toList := by
  unfold Warned
  by_cases hk : (Lexeme.read c rest).kind = .error
  · have hread := Lexeme.read_error (Lexeme.kind_read_error.mp hk)
    simp only [Reading.at, hread]
    exact .cons ⟨c, rfl, rfl⟩ .nil
  · simp [Reading.at, hk]

theorem Scan.warned_run (file : String) (p : Place) : Warned (run file p).tokens (run file p).warnings := by
  induction p using Scan.induction with
  | stop p h =>
    rw [run_stop h]
    exact .nil
  | token p c rest h ih =>
    rw [run_token h]
    exact (Reading.warned file p.skipTrivia c rest).append ih

/-! ### Refusing a text -/

section
variable {tokens : List Token} {warnings : List Diagnostic}

theorem Warned.eq_nil_iff (h : Warned tokens warnings) : warnings = [] ↔ ∀ t ∈ tokens, t.kind ≠ .error := by
  have hlength := List.Forall₂.length_eq h
  rw [← List.length_eq_zero_iff, ← hlength, List.length_eq_zero_iff, List.filter_eq_nil_iff]
  simp

/-- The first warning is about the first invalid token. -/
theorem Warned.head (h : Warned tokens warnings) {w : Diagnostic} (hw : warnings.head? = some w) :
    ∃ t, tokens.find? (·.kind == .error) = some t ∧ t.WarnedBy w := by
  obtain ⟨rest, rfl⟩ := List.head?_eq_some_iff.mp hw
  obtain ⟨t, more, ht, -, hfilter⟩ := List.forall₂_cons_right_iff.mp h
  exact ⟨t, by rw [← List.head?_filter, hfilter, List.head?_cons], ht⟩

/-- An error differs from the warning that it comes from in the severity alone. -/
theorem Diagnostic.eq_toError_iff {d w : Diagnostic} : d = w.toError ↔ d.location = w.location ∧
    d.message = w.message ∧ d.code = w.code ∧ d.help = w.help ∧ d.severity = "error" ∧ d.found = none := by
  constructor
  · rintro rfl
    exact ⟨rfl, rfl, rfl, rfl, rfl, rfl⟩
  · rintro ⟨hlocation, hmessage, hcode, hhelp, hseverity, hfound⟩
    cases d
    simp_all [toError]

/-- The error of the first warning is located at the first invalid token. -/
theorem Warned.error_iff (h : Warned tokens warnings) {d : Diagnostic} :
    (∃ w, warnings.head? = some w ∧ d = w.toError) ↔ ∃ t w, tokens.find? (·.kind == .error) = some t ∧
      warnings.head? = some w ∧ d.location = t.location ∧ d.message = w.message ∧ d.code = w.code ∧ d.help = w.help ∧
      d.severity = "error" ∧ d.found = none := by
  constructor
  · rintro ⟨w, hw, hd⟩
    obtain ⟨t, ht, htw⟩ := h.head hw
    rw [Diagnostic.eq_toError_iff, htw.location] at hd
    exact ⟨t, w, ht, hw, hd⟩
  · rintro ⟨t, w, ht, hw, hd⟩
    obtain ⟨t', ht', htw⟩ := h.head hw
    obtain rfl : t = t' := Option.some_inj.mp (ht.symm.trans ht')
    rw [← htw.location, ← Diagnostic.eq_toError_iff] at hd
    exact ⟨w, hw, hd⟩

end

namespace Source
variable {s : Source}

theorem strictTokens_ok {ts : List Token} : s.strictTokens = .ok ts ↔ s.scan.warnings = [] ∧ ts = s.tokens := by
  unfold strictTokens
  cases s.scan.warnings with
  | nil => simp [eq_comm]
  | cons w warnings => simp

/-- A text is refused for its first warning. -/
theorem strictTokens_error {d : Diagnostic} :
    s.strictTokens = .error d ↔ ∃ w, s.scan.warnings.head? = some w ∧ d = w.toError := by
  unfold strictTokens
  cases s.scan.warnings with
  | nil => simp
  | cons w warnings => simp [eq_comm]

end Source

/-- Whatever a scanner did before: after a run its warnings are about the invalid tokens that the run gives, one for each
    and in their order. A text that is to have no invalid characters is refused for the first of them, with what the first
    warning says, and gives the same tokens as ever if it has none. -/
theorem run_warned (source : Source) (earlier : List Scanner.Operation) :
    let s := ((Scanner.ofSource source).performAll earlier).2
    let tokens := (s.perform .run).1
    let warnings := (s.perform .run).2.warnings
    tokens = source.tokens ∧ Warned tokens warnings ∧
    (∀ d, source.strictTokens = .error d ↔ ∃ t w, tokens.find? (·.kind == .error) = some t ∧
      warnings.head? = some w ∧ d.location = t.location ∧ d.message = w.message ∧ d.code = w.code ∧ d.help = w.help ∧
      d.severity = "error" ∧ d.found = none) ∧
    ∀ ts, source.strictTokens = .ok ts ↔ (∀ t ∈ tokens, t.kind ≠ .error) ∧ ts = tokens := by
  intro s tokens warnings
  have hsource : s.source = source := ((Scanner.exact_ofSource source).performAll earlier).1
  have htokens : tokens = source.tokens := congrArg Source.tokens hsource
  have hwarnings : warnings = source.scan.warnings := congrArg (·.scan.warnings) hsource
  have hwarned : Warned tokens warnings := Scan.warned_run _ _
  refine ⟨htokens, hwarned, fun d => ?_, fun ts => ?_⟩
  · rw [Source.strictTokens_error, ← hwarnings]
    exact hwarned.error_iff
  · rw [Source.strictTokens_ok, ← hwarnings, hwarned.eq_nil_iff, htokens]

/-- A run forgets the warning about a character that was read by hand. -/
example : let s := ((Scanner.ofSource ⟨"x", "#a@"⟩).performAll [.next]).2
    s.warnings.map Diagnostic.message = ["Invalid character: '#'"] ∧
      (s.perform .run).2.warnings.map Diagnostic.message = ["Invalid character: '#'", "Invalid character: '@'"] := by
  decide +kernel

end Curly
