import Curly.Proofs.Parser.Safety

/-! What parsers yield. `Yields p s c Q` says that the parser `p` comes to a value at the cursor `c` and that `Q`
    holds of the value, of the cursor there and of the log. For the parsers that the rules are made of, this is put in terms of
    `Q` alone as long as an end of the input is ahead, so that what a rule yields can be computed from its text. -/

namespace Curly.Parser

variable {α β ι : Type}

/-- The parser comes to a value, and the condition holds of what it comes to. -/
def Yields (p : Parser α) (s : Setting) (c : Cursor) (Q : α → Cursor → List Event → Prop) : Prop :=
  match p s c with
  | .done a d log => Q a d log
  | .stopped .. => False

theorem Yields.mono {p : Parser α} {s : Setting} {c : Cursor} {Q R : α → Cursor → List Event → Prop}
    (h : Yields p s c Q) (hqr : ∀ a d log, Q a d log → R a d log) : Yields p s c R := by
  unfold Yields at *
  split <;> simp_all

theorem yields_iff {p : Parser α} {s : Setting} {c : Cursor} {Q : α → Cursor → List Event → Prop} :
    Yields p s c Q ↔ ∃ a d log, p s c = .done a d log ∧ Q a d log := by
  unfold Yields
  cases p s c with
  | stopped => simp
  | done a d log => exact ⟨fun h => ⟨a, d, log, rfl, h⟩, fun ⟨_, _, _, he, h⟩ => by cases he; exact h⟩

section
variable {s : Setting} {c : Cursor}

/-! ### Sequences and choices -/

theorem yields_pure {a : α} {Q : α → Cursor → List Event → Prop} : Yields (pure a) s c Q ↔ Q a c [] := Iff.rfl

theorem yields_bind {p : Parser α} {f : α → Parser β} {Q : β → Cursor → List Event → Prop} :
    Yields (p >>= f) s c Q ↔
      Yields p s c fun a d log => Yields (f a) s d fun b e more => Q b e (log ++ more) := by
  unfold Yields
  show (match (p s c).andThen fun a d => f a s d with
    | .done a d log => Q a d log
    | .stopped .. => False) ↔ _
  cases p s c with
  | stopped => simp [Outcome.andThen]
  | done a d log =>
    simp only [Outcome.andThen]
    cases f a s d <;> simp [Outcome.after]

theorem yields_map {p : Parser α} {f : α → β} {Q : β → Cursor → List Event → Prop} :
    Yields (f <$> p) s c Q ↔ Yields p s c fun a d log => Q (f a) d log := by
  show Yields (p >>= fun a => pure (f a)) s c Q ↔ _
  simp [yields_bind, yields_pure]

theorem yields_ite {b : Prop} [Decidable b] {p q : Parser α} {Q : α → Cursor → List Event → Prop} :
    Yields (if b then p else q) s c Q ↔ if b then Yields p s c Q else Yields q s c Q := by
  split <;> rfl

/-! ### Tokens and mistakes -/

@[simp] theorem open_next : c.next.Open ↔ c.Open := by
  rw [Cursor.Open, (Onward.next c).stop, Cursor.Open]

theorem yields_peek (hc : c.Open) {Q : Token → Cursor → List Event → Prop} :
    Yields peek s c Q ↔ Q (s.current c) c [] := by
  obtain ⟨t, rest, ha⟩ := hc.ahead
  simp [Yields, peek, Setting.current, ha]

theorem yields_advance (hc : c.Open) {Q : Token → Cursor → List Event → Prop} :
    Yields advance s c Q ↔
      Q (s.current c) c.next (if (s.current c).kind = .eof then [] else [.read c.ahead.length]) := by
  obtain ⟨ahead, n⟩ := c
  obtain ⟨t, rest, rfl⟩ := hc.ahead
  by_cases ht : t.kind = .eof <;> simp [Yields, advance, Setting.current, Cursor.next, ht]

theorem yields_check (hc : c.Open) {kind : TokenKind} {Q : Bool → Cursor → List Event → Prop} :
    Yields (check kind) s c Q ↔ Q ((s.current c).kind == kind) c [] := by
  simp only [check, yields_bind, yields_peek hc, yields_pure, List.append_nil]

theorem yields_accept (hc : c.Open) {kind : TokenKind} {Q : Bool → Cursor → List Event → Prop} :
    Yields (accept kind) s c Q ↔
      if (s.current c).kind = kind then
        Q true c.next (if (s.current c).kind = .eof then [] else [.read c.ahead.length])
      else Q false c [] := by
  unfold accept
  simp only [yields_bind, yields_check hc, yields_ite, yields_advance hc, yields_pure, List.nil_append, List.append_nil,
    beq_iff_eq]

theorem yields_report {m : Mistake} {Q : Unit → Cursor → List Event → Prop} :
    Yields (report m) s c Q ↔ Q () c [.found m] := Iff.rfl

theorem yields_expect (hc : c.Open) {kind : TokenKind} {expectation : String}
    {Q : Token → Cursor → List Event → Prop} :
    Yields (expect kind expectation) s c Q ↔
      Q (s.current c) c.next
        ((if (s.current c).kind = kind then [] else [.found (.unexpected expectation (s.current c))]) ++
          if (s.current c).kind = .eof then [] else [.read c.ahead.length]) := by
  unfold expect
  simp only [yields_bind, yields_check hc, yields_ite, yields_advance hc, yields_peek hc, yields_report,
    List.nil_append, beq_iff_eq]
  split <;> rfl

theorem yields_expectSemicolon (hc : c.Open) {construct : String} {first : Token}
    {Q : Unit → Cursor → List Event → Prop} :
    Yields (expectSemicolon construct first) s c Q ↔
      if (s.current c).kind = .semicolon then Q () c.next [.read c.ahead.length]
      else Q () c [.found (.missingSemicolon construct first none)] := by
  unfold expectSemicolon
  simp only [yields_bind, yields_accept hc]
  split
  · next hk => simp [hk, yields_pure]
  · simp [yields_report]

theorem yields_speculate {p : Parser α} {Q : α → Cursor → List Event → Prop} :
    Yields (speculate p) s c Q ↔ Yields p s c fun a d log => Q a { d with ahead := c.ahead } log := by
  unfold Yields speculate
  cases p s c <;> rfl

theorem yields_resume {Q : Unit → Cursor → List Event → Prop} :
    Yields resume s c Q ↔
      Q () (c.skip (skippable resumeLimit c.ahead)) [.resumed c.ahead.length (skippable resumeLimit c.ahead)] :=
  Iff.rfl

theorem yields_begin {Q : Unit → Cursor → List Event → Prop} (hs : s.interruption = none) :
    Yields begin s c Q ↔ Q () { c with begun := c.begun + 1 } [.began c.ahead.length] := by
  simp [Yields, begin, hs]

theorem yields_beginProgram {Q : Unit → Cursor → List Event → Prop} (hs : s.interruption = none) :
    Yields beginProgram s c Q ↔ Q () c [] := by
  simp [Yields, beginProgram, hs]

end

/-! ### Recursion -/

/-- If a rule keeps a promise at a cursor when its parsers keep it at later ones, then its parsers keep it. The promise
    may be limited to some cursors. -/
theorem yields_fixOver {rule : (ι → Parser α) → ι → Parser α} {s : Setting} {P : Cursor → Prop}
    {Q : Cursor → ι → α → Cursor → List Event → Prop}
    (h : ∀ c i, P c → ∀ p : ι → Parser α,
      (∀ d j, P d → d.ahead.length < c.ahead.length → Yields (p j) s d (Q d j)) → Yields (rule p i) s c (Q c i))
    (c : Cursor) (i : ι) (hc : P c) : Yields (fixOver rule i) s c (Q c i) := by
  induction hn : c.ahead.length using Nat.strongRecOn generalizing c i with
  | ind n ih =>
    unfold Yields
    rw [fixOver]
    apply h c i hc
    intro d j hP hd
    unfold Yields
    simp only [hd, ↓reduceIte]
    exact ih _ (hn ▸ hd) d j hP rfl

theorem yields_fix {rule : Parser α → Parser α} {s : Setting} {P : Cursor → Prop}
    {Q : Cursor → α → Cursor → List Event → Prop}
    (h : ∀ c, P c → ∀ p : Parser α,
      (∀ d, P d → d.ahead.length < c.ahead.length → Yields p s d (Q d)) → Yields (rule p) s c (Q c))
    (c : Cursor) (hc : P c) : Yields (fix rule) s c (Q c) :=
  yields_fixOver (Q := fun c _ => Q c) (fun c _ hc p hp => h c hc (p ()) fun d hd hlt => hp d () hd hlt) c () hc

end Curly.Parser
