import Curly.Proofs.Parser.Closed

/-! Where parsing resumes after a declaration that is not ended. Nothing is skipped in front of a token at which parsing can
    resume; and wherever parsing resumes, the mistake is in the log, with the token that was found. Main statement:
    `announces_program`. -/

namespace Curly

/-- Whether parsing resumes in front of a token of this kind, without skipping it or another. -/
def TokenKind.stopsResuming (k : TokenKind) : Bool := k == .eof || k.isBoundary && k != .semicolon

theorem skippable_eq_zero {t : Token} (ht : t.kind.stopsResuming) (limit : Nat) (rest : List Token) :
    skippable limit (t :: rest) = 0 := by
  cases rest with
  | nil => simp [skippable]
  | cons u rest =>
    unfold skippable
    by_cases he : t.kind = .eof
    · rw [if_pos he]
    · have hb : t.kind.isBoundary ∧ t.kind ≠ .semicolon := by simpa [TokenKind.stopsResuming, he] using ht
      rw [if_neg he, if_pos hb.1, if_neg hb.2]

/-- Each time that parsing resumes, a missing semicolon is reported with the token that stands in its place, and from there
    tokens are skipped. -/
def Announced (log : List Event) : Prop := ∀ ahead skipped, .resumed ahead skipped ∈ log →
  ∃ name t rest, .found (.missingSemicolon "declaration" name (some t)) ∈ log ∧
    skipped = skippable resumeLimit (t :: rest)

theorem announced_append {log more : List Event} (h : Announced log) (h' : Announced more) : Announced (log ++ more) := by
  intro ahead skipped hmem
  rcases List.mem_append.mp hmem with hmem | hmem
  · obtain ⟨name, t, rest, hfound, hskipped⟩ := h ahead skipped hmem
    exact ⟨name, t, rest, List.mem_append_left _ hfound, hskipped⟩
  · obtain ⟨name, t, rest, hfound, hskipped⟩ := h' ahead skipped hmem
    exact ⟨name, t, rest, List.mem_append_right _ hfound, hskipped⟩

theorem announced_of_never {log : List Event} (h : ∀ ahead skipped, .resumed ahead skipped ∉ log) : Announced log :=
  fun ahead skipped hmem => absurd hmem (h ahead skipped)

namespace Parser
variable {α β ι : Type}

def Announces (p : Parser α) : Prop := ∀ s c, Announced (p s c).log

theorem announces_pure (a : α) : Announces (pure a) := fun _ _ => announced_of_never fun _ _ h => by cases h

theorem announces_bind {p : Parser α} {f : α → Parser β} (hp : Announces p) (hf : ∀ a, Announces (f a)) :
    Announces (p >>= f) := by
  intro s c
  show Announced ((p s c).andThen fun a d => f a s d).log
  have hpc := hp s c
  cases h : p s c with
  | stopped stop d log =>
    rw [h] at hpc
    exact hpc
  | done a d log =>
    rw [h] at hpc
    have hboth := announced_append hpc (hf a s d)
    simp only [Outcome.andThen]
    cases h' : f a s d <;> rw [h'] at hboth <;> exact hboth

theorem announces_fixOver {rule : (ι → Parser α) → ι → Parser α}
    (h : ∀ p : ι → Parser α, (∀ i, Announces (p i)) → ∀ i, Announces (rule p i)) (i : ι) : Announces (fixOver rule i) :=
  fixOver_of (Q := fun s _ o => Announced (o s).log) (fun _ _ => announced_of_never fun _ _ h => by cases h) h i

theorem announces_peek : Announces peek := by
  intro s c
  unfold peek
  split <;> exact announced_of_never fun _ _ h => by cases h

theorem announces_advance : Announces advance := by
  intro s c
  refine announced_of_never fun _ _ h => ?_
  unfold advance at h
  split at h
  · cases h
  · split at h <;> simp [Outcome.log] at h

theorem announces_report (m : Mistake) : Announces (report m) := fun _ _ =>
  announced_of_never fun _ _ h => by simp [report, Outcome.log] at h

theorem announces_speculate {p : Parser α} (hp : Announces p) : Announces (speculate p) := by
  intro s c
  have hpc := hp s c
  unfold speculate
  cases h : p s c <;> rw [h] at hpc <;> exact hpc

theorem reading_announces : ClosedReading Announces where
  pure := announces_pure
  bind := announces_bind
  fixOver := announces_fixOver
  peek := announces_peek
  advance := announces_advance

/-- The token that is reported is the one from which tokens are skipped. -/
theorem announces_endDeclaration (name : Token) : Announces (endDeclaration name) := by
  refine announces_bind (reading_announces.accept _) fun found => closed_ite (announces_pure _) ?_
  intro s c
  show Announced ((peek s c).andThen _).log
  unfold peek
  cases hc : c.ahead with
  | nil => exact announced_of_never fun _ _ h => by cases h
  | cons t rest =>
    intro ahead skipped h
    obtain ⟨-, rfl⟩ : ahead = c.ahead.length ∧ skipped = skippable resumeLimit c.ahead := by
      simpa [Outcome.andThen, Outcome.after, Outcome.log, bind, report, resume] using h
    exact ⟨name, t, rest, List.mem_cons_self, by rw [hc]⟩

theorem announces_begin : Announces begin := by
  intro s c
  refine announced_of_never fun _ _ h => ?_
  unfold begin at h
  split at h
  · simp only at h
    split at h <;> simp [Outcome.log] at h
  · simp [Outcome.log] at h

theorem announces_beginProgram : Announces beginProgram := by
  intro s c
  unfold beginProgram
  split <;> exact announced_of_never fun _ _ h => by cases h

theorem closed_announces : Closed Announces where
  toClosedReading := reading_announces
  report := announces_report
  namesMethod := reading_announces.namesMethod fun _ => announces_speculate
  isMethodCall := reading_announces.isMethodCall fun _ => announces_speculate
  endDeclaration := announces_endDeclaration
  begin := announces_begin
  beginProgram := announces_beginProgram

/-- Parsing never resumes unannounced. -/
theorem announces_program : Announces program := closed_announces.program

end Parser

end Curly
