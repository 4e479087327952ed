import Curly.Parser.Report
import Curly.Proofs.Parser.Closed
import Mathlib.Data.List.DropRight

/-! Where a parse can get to. Whatever a rule comes to, a value or a stop, it has read no further than the next end of
    the input, the log tells of no place beyond it, and no token was asked for where there is none. Main statement:
    `safe_program`. -/

namespace Curly

/-! ### Cursors in order -/

namespace Cursor

/-- The tokens from the next end of the input on. -/
def stop (c : Cursor) : List Token := c.ahead.dropWhile (·.kind != .eof)

/-- An end of the input is ahead. -/
def Open (c : Cursor) : Prop := c.stop ≠ []

/-- The cursor after the current token, which is not passed if it is an end of the input. -/
def next (c : Cursor) : Cursor :=
  match c.ahead with
  | [] => c
  | t :: rest => if t.kind = .eof then c else { c with ahead := rest }

theorem Open.ahead {c : Cursor} (h : c.Open) : ∃ t rest, c.ahead = t :: rest := by
  cases hc : c.ahead with
  | nil => simp [Open, stop, hc] at h
  | cons t rest => exact ⟨t, rest, rfl⟩

theorem length_stop_le (c : Cursor) : c.stop.length ≤ c.ahead.length :=
  (List.dropWhile_suffix (l := c.ahead) _).length_le

end Cursor

/-- The second cursor stands at or after the first, with no end of the input between them. -/
structure Onward (c d : Cursor) : Prop where
  suffix : d.ahead <:+ c.ahead
  stop : d.stop = c.stop

namespace Onward
variable {c d e : Cursor}

theorem refl (c : Cursor) : Onward c c := ⟨List.suffix_refl _, rfl⟩

theorem trans (h : Onward c d) (h' : Onward d e) : Onward c e :=
  ⟨h'.suffix.trans h.suffix, h'.stop.trans h.stop⟩

theorem length_le (h : Onward c d) : d.ahead.length ≤ c.ahead.length := h.suffix.length_le

/-- An end of the input that was ahead stays ahead. -/
theorem isOpen (h : Onward c d) (hc : c.Open) : d.Open := by
  rw [Cursor.Open, h.stop]
  exact hc

theorem of_ahead (h : d.ahead = c.ahead) : Onward c d :=
  ⟨h ▸ List.suffix_refl _, by rw [Cursor.stop, Cursor.stop, h]⟩

theorem cons {t : Token} {rest : List Token} {m n : Nat} (ht : t.kind ≠ .eof) : Onward ⟨t :: rest, m⟩ ⟨rest, n⟩ :=
  ⟨List.suffix_cons _ _, by simp [Cursor.stop, ht]⟩

theorem next (c : Cursor) : Onward c c.next := by
  obtain ⟨ahead, n⟩ := c
  unfold Cursor.next
  split
  · exact refl _
  · next t rest h =>
    cases h
    split
    · exact refl _
    · next ht => exact cons ht

/-- Skipping tokens none of which is an end of the input. -/
theorem skip (c : Cursor) {n : Nat} (hn : n ≤ (c.ahead.takeWhile (·.kind != .eof)).length) : Onward c (c.skip n) := by
  refine ⟨List.drop_suffix n c.ahead, ?_⟩
  have hdrop : c.ahead.drop n = (c.ahead.takeWhile (·.kind != .eof)).drop n ++ c.ahead.dropWhile (·.kind != .eof) := by
    rw [← List.drop_append_of_le_length hn, List.takeWhile_append_dropWhile]
  show (c.ahead.drop n).dropWhile _ = c.ahead.dropWhile _
  rw [hdrop, List.dropWhile_append_of_pos, List.dropWhile_idempotent]
  intro t ht
  simpa using List.mem_takeWhile_imp (List.mem_of_mem_drop ht)

end Onward

/-- The places that an entry of the log tells of lie between the cursor and the next end of the input. -/
def Event.Between (c : Cursor) : Event → Prop
  | .began ahead => c.stop.length ≤ ahead ∧ ahead ≤ c.ahead.length
  | .read ahead => c.stop.length < ahead ∧ ahead ≤ c.ahead.length
  | .found _ => True
  | .resumed ahead skipped => c.stop.length + skipped ≤ ahead ∧ ahead ≤ c.ahead.length

theorem Event.Between.of_onward {c d : Cursor} {e : Event} (h : Onward c d) (he : e.Between d) : e.Between c := by
  have hle := h.length_le
  cases e with
  | found m => trivial
  | began ahead | read ahead | resumed ahead skipped =>
    simp only [Event.Between, h.stop] at he ⊢
    exact ⟨he.1, Nat.le_trans he.2 hle⟩

namespace Parser

/-- A parse from `c` kept to the tokens before the next end of the input. -/
structure Kept {α : Type} (c : Cursor) (o : Outcome α) : Prop where
  onward : Onward c o.cursor
  events : ∀ e ∈ o.log, e.Between c
  token : ∀ d log, o ≠ .stopped .outOfTokens d log

/-- The parser keeps to the tokens before the next end of the input, if there is one. -/
def Safe {α : Type} (p : Parser α) : Prop := ∀ s c, c.Open → Kept c (p s c)

variable {α β ι : Type}

theorem Kept.done {c d : Cursor} {a : α} {log : List Event} (h : Onward c d) (hl : ∀ e ∈ log, e.Between c) :
    Kept c (.done a d log) :=
  ⟨h, hl, fun _ _ h => by cases h⟩

/-! ### Sequences and choices -/

theorem safe_pure (a : α) : Safe (pure a) := fun _ c _ => .done (.refl c) fun _ he => by cases he

theorem safe_bind {p : Parser α} {f : α → Parser β} (hp : Safe p) (hf : ∀ a, Safe (f a)) : Safe (p >>= f) := by
  intro s c hc
  show Kept c ((p s c).andThen fun a d => f a s d)
  have hpc := hp s c hc
  cases h : p s c with
  | stopped stop d log =>
    rw [h] at hpc
    exact ⟨hpc.onward, hpc.events, fun e log he => by cases he; exact hpc.token _ _ rfl⟩
  | done a d log =>
    rw [h] at hpc
    have hfd := hf a s d (hpc.onward.isOpen hc)
    simp only [Outcome.andThen]
    cases h' : f a s d with
    | done b e more =>
      rw [h'] at hfd
      refine .done (hpc.onward.trans hfd.onward) fun x hx => ?_
      rcases List.mem_append.mp hx with hx | hx
      · exact hpc.events x hx
      · exact (hfd.events x hx).of_onward hpc.onward
    | stopped stop e more =>
      rw [h'] at hfd
      refine ⟨hpc.onward.trans hfd.onward, fun x hx => ?_, fun e log he => ?_⟩
      · rcases List.mem_append.mp hx with hx | hx
        · exact hpc.events x hx
        · exact (hfd.events x hx).of_onward hpc.onward
      · cases he
        exact hfd.token _ _ rfl

/-! ### Tokens and mistakes -/

theorem safe_peek : Safe peek := by
  intro s c hc
  obtain ⟨t, rest, ha⟩ := hc.ahead
  simp only [peek, ha]
  exact .done (.refl c) fun _ he => by cases he

theorem safe_advance : Safe advance := by
  intro s ⟨ahead, n⟩ hc
  obtain ⟨t, rest, rfl⟩ := hc.ahead
  unfold advance
  by_cases ht : t.kind = .eof
  · simp only [ht, ↓reduceIte]
    exact .done (.refl _) fun _ he => by cases he
  · simp only [ht, ↓reduceIte]
    refine .done (.cons ht) fun e he => ?_
    obtain rfl := List.mem_singleton.mp he
    have hle : (Cursor.stop ⟨t :: rest, n⟩).length ≤ rest.length :=
      (Onward.cons (m := n) (n := n) ht).stop ▸ Cursor.length_stop_le ⟨rest, n⟩
    exact ⟨Nat.lt_succ_of_le hle, Nat.le_refl _⟩

theorem safe_report (m : Mistake) : Safe (report m) := fun _ c _ =>
  .done (.refl c) fun e he => by
    obtain rfl := List.mem_singleton.mp he
    trivial

theorem safe_speculate {p : Parser α} (hp : Safe p) : Safe (speculate p) := by
  intro s c hc
  have hpc := hp s c hc
  unfold speculate
  cases h : p s c with
  | done a d log =>
    rw [h] at hpc
    exact .done (.of_ahead rfl) hpc.events
  | stopped stop d log =>
    rw [h] at hpc
    exact ⟨.of_ahead rfl, hpc.events, fun e log he => by cases he; exact hpc.token _ _ rfl⟩

/-! ### Recursion and repetition -/

theorem safe_fixOver {rule : (ι → Parser α) → ι → Parser α}
    (h : ∀ p : ι → Parser α, (∀ i, Safe (p i)) → ∀ i, Safe (rule p i)) (i : ι) : Safe (fixOver rule i) :=
  fixOver_of (Q := fun s c o => c.Open → Kept c (o s))
    (fun _ c _ => ⟨.refl c, (fun _ he => by cases he), fun _ _ he => by cases he⟩) h i

theorem reading_safe : ClosedReading Safe where
  pure := safe_pure
  bind := safe_bind
  fixOver := safe_fixOver
  peek := safe_peek
  advance := safe_advance

/-! ### Skipping -/

/-- Resuming never skips an end of the input. -/
theorem skippable_le (limit : Nat) (tokens : List Token) :
    skippable limit tokens ≤ (tokens.takeWhile (·.kind != .eof)).length := by
  induction tokens generalizing limit with
  | nil => simp [skippable]
  | cons t rest ih =>
    cases rest with
    | nil => simp [skippable]
    | cons next rest =>
      unfold skippable
      by_cases ht : t.kind = .eof
      · simp [ht]
      · have hlen : ((t :: next :: rest).takeWhile (·.kind != .eof)).length =
            ((next :: rest).takeWhile (·.kind != .eof)).length + 1 := by
          rw [List.takeWhile_cons_of_pos (by simp [ht]), List.length_cons]
        rw [if_neg ht, hlen]
        split
        · split <;> omega
        · cases limit with
          | zero => exact Nat.zero_le _
          | succ limit =>
            have := ih limit
            simp only
            omega

theorem safe_resume : Safe resume := by
  intro s c hc
  have hskip := skippable_le resumeLimit c.ahead
  refine .done (.skip c hskip) fun e he => ?_
  obtain rfl := List.mem_singleton.mp he
  have hlen : c.ahead.length = (c.ahead.takeWhile (·.kind != .eof)).length + c.stop.length := by
    rw [Cursor.stop, ← List.length_append, List.takeWhile_append_dropWhile]
  exact ⟨by omega, Nat.le_refl _⟩

/-! ### Statements -/

theorem safe_begin : Safe begin := by
  intro s c hc
  have hb : Event.Between c (.began c.ahead.length) := ⟨c.length_stop_le, Nat.le_refl _⟩
  have hdone : Kept c (.done () { c with begun := c.begun + 1 } [.began c.ahead.length]) :=
    .done (.of_ahead rfl) fun e he => by
      obtain rfl := List.mem_singleton.mp he
      exact hb
  unfold begin
  split
  · simp only
    split
    · exact ⟨.of_ahead rfl, (fun _ he => by cases he), fun _ _ he => by cases he⟩
    · exact hdone
  · exact hdone

theorem safe_beginProgram : Safe beginProgram := by
  intro s c _
  unfold beginProgram
  split
  · exact ⟨.refl c, (fun _ he => by cases he), fun _ _ he => by cases he⟩
  · exact .done (.refl c) fun _ he => by cases he

/-- Every rule keeps to these tokens. -/
theorem closed_safe : Closed Safe where
  toClosedReading := reading_safe
  report := safe_report
  namesMethod := reading_safe.namesMethod fun _ => safe_speculate
  isMethodCall := reading_safe.isMethodCall fun _ => safe_speculate
  endDeclaration := reading_safe.endDeclaration safe_report safe_resume
  begin := safe_begin
  beginProgram := safe_beginProgram

/-- Whatever a parse comes to, also if it is interrupted. -/
theorem safe_program : Safe program := closed_safe.program

end Parser

end Curly
