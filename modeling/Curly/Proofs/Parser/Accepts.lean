import Curly.Proofs.Parser.Safety

/-! Runs without mistakes. `Accepts s p c a d` says that the parser `p`, started at the cursor `c`, comes to the value
    `a` at the cursor `d` and finds nothing wrong on the way. For the parsers that the rules are made of, this is put in
    terms of the tokens ahead, so that it can be read in both directions: what was accepted, and what will be. -/

namespace Curly

/-- The log tells of no mistake. -/
def Flawless (log : List Event) : Prop := ∀ m, .found m ∉ log

theorem flawless_nil : Flawless [] := fun _ => List.not_mem_nil

theorem flawless_append {log more : List Event} : Flawless (log ++ more) ↔ Flawless log ∧ Flawless more := by
  simp only [Flawless, List.mem_append, not_or, forall_and]

theorem not_flawless_found {m : Mistake} {log : List Event} : ¬Flawless (.found m :: log) :=
  fun h => h m List.mem_cons_self

theorem flawless_iff {log : List Event} : Flawless log ↔ log.filterMap Event.mistake? = [] := by
  rw [List.filterMap_eq_nil_iff]
  constructor
  · intro h e he
    cases e with
    | found m => exact absurd he (h m)
    | began | read | resumed => rfl
  · intro h m hm
    cases h _ hm

namespace Parser
variable {α β ι : Type} {s : Setting} {c d e : Cursor}

/-- The parser comes to a value, and finds no mistake on the way. -/
def Accepts (s : Setting) (p : Parser α) (c : Cursor) (a : α) (d : Cursor) : Prop :=
  ∃ log, p s c = .done a d log ∧ Flawless log

theorem Accepts.unique {p : Parser α} {a b : α} (h : Accepts s p c a d) (h' : Accepts s p c b e) :
    a = b ∧ d = e := by
  obtain ⟨log, h, -⟩ := h
  obtain ⟨log', h', -⟩ := h'
  cases h.symm.trans h'
  exact ⟨rfl, rfl⟩

/-! ### Sequences and choices -/

theorem accepts_pure {a b : α} : Accepts s (pure a) c b d ↔ b = a ∧ d = c := by
  constructor
  · rintro ⟨log, h, -⟩
    cases h
    exact ⟨rfl, rfl⟩
  · rintro ⟨rfl, rfl⟩
    exact ⟨[], rfl, flawless_nil⟩

theorem accepts_bind {p : Parser α} {f : α → Parser β} {b : β} :
    Accepts s (p >>= f) c b e ↔ ∃ a d, Accepts s p c a d ∧ Accepts s (f a) d b e := by
  constructor
  · rintro ⟨log, h, hl⟩
    change (p s c).andThen (fun a d => f a s d) = .done b e log at h
    cases hp : p s c with
    | stopped => simp [hp, Outcome.andThen] at h
    | done a d log₁ =>
      cases hf : f a s d with
      | stopped => simp [hp, hf, Outcome.andThen, Outcome.after] at h
      | done b' e' log₂ =>
        simp only [hp, hf, Outcome.andThen, Outcome.after, Outcome.done.injEq] at h
        obtain ⟨rfl, rfl, rfl⟩ := h
        rw [flawless_append] at hl
        exact ⟨a, d, ⟨log₁, hp, hl.1⟩, log₂, hf, hl.2⟩
  · rintro ⟨a, d, ⟨log₁, hp, hl₁⟩, log₂, hf, hl₂⟩
    refine ⟨log₁ ++ log₂, ?_, flawless_append.mpr ⟨hl₁, hl₂⟩⟩
    change (p s c).andThen (fun a d => f a s d) = _
    simp only [hp, hf, Outcome.andThen, Outcome.after]

theorem accepts_pure_bind {a : α} {f : α → Parser β} {b : β} :
    Accepts s (pure a >>= f) c b e ↔ Accepts s (f a) c b e := by
  rw [accepts_bind]
  constructor
  · rintro ⟨_, _, h, hf⟩
    obtain ⟨rfl, rfl⟩ := accepts_pure.mp h
    exact hf
  · intro hf
    exact ⟨a, c, accepts_pure.mpr ⟨rfl, rfl⟩, hf⟩

theorem accepts_bind_assoc {γ : Type} {p : Parser α} {f : α → Parser β} {g : β → Parser γ} {b : γ} :
    Accepts s (p >>= f >>= g) c b e ↔ Accepts s (p >>= fun a => f a >>= g) c b e := by
  simp only [accepts_bind]
  constructor
  · rintro ⟨a, d, ⟨a', d', hp, hf⟩, hg⟩
    exact ⟨a', d', hp, a, d, hf, hg⟩
  · rintro ⟨a', d', hp, a, d, hf, hg⟩
    exact ⟨a, d, ⟨a', d', hp, hf⟩, hg⟩

theorem accepts_map {p : Parser α} {f : α → β} {b : β} :
    Accepts s (f <$> p) c b d ↔ ∃ a, Accepts s p c a d ∧ b = f a := by
  show Accepts s (p >>= fun a => pure (f a)) c b d ↔ _
  simp only [accepts_bind, accepts_pure]
  constructor
  · rintro ⟨a, d', h, rfl, rfl⟩
    exact ⟨a, h, rfl⟩
  · rintro ⟨a, h, rfl⟩
    exact ⟨a, d, h, rfl, rfl⟩

theorem accepts_ite {b : Prop} [Decidable b] {p q : Parser α} {a : α} :
    Accepts s (if b then p else q) c a d ↔ if b then Accepts s p c a d else Accepts s q c a d := by
  split <;> rfl

/-! ### Tokens and mistakes -/

/-- A token that is no end of the input is passed. -/
theorem next_of_ahead {t : Token} {rest : List Token} (h : c.ahead = t :: rest) (ht : t.kind ≠ .eof) :
    c.next = ⟨rest, c.begun⟩ := by
  simp [Cursor.next, h, ht]

theorem accepts_peek {t : Token} : Accepts s peek c t d ↔ ∃ rest, c.ahead = t :: rest ∧ d = c := by
  unfold Accepts peek
  cases h : c.ahead with
  | nil => simp
  | cons u rest =>
    constructor
    · rintro ⟨log, hd, -⟩
      simp only [Outcome.done.injEq] at hd
      obtain ⟨rfl, rfl, -⟩ := hd
      exact ⟨rest, rfl, rfl⟩
    · rintro ⟨_, hu, rfl⟩
      cases hu
      exact ⟨[], rfl, flawless_nil⟩

theorem accepts_advance {t : Token} : Accepts s advance c t d ↔ ∃ rest, c.ahead = t :: rest ∧ d = c.next := by
  obtain ⟨ahead, n⟩ := c
  unfold Accepts advance Cursor.next
  cases ahead with
  | nil => simp
  | cons u rest =>
    by_cases hu : u.kind = .eof
    · simp only [hu, ↓reduceIte, Outcome.done.injEq, List.cons.injEq]
      constructor
      · rintro ⟨log, ⟨rfl, rfl, -⟩, -⟩
        exact ⟨rest, ⟨rfl, rfl⟩, rfl⟩
      · rintro ⟨_, ⟨rfl, rfl⟩, rfl⟩
        exact ⟨[], ⟨rfl, rfl, rfl⟩, flawless_nil⟩
    · simp only [hu, ↓reduceIte, Outcome.done.injEq, List.cons.injEq]
      constructor
      · rintro ⟨log, ⟨rfl, rfl, -⟩, -⟩
        exact ⟨rest, ⟨rfl, rfl⟩, rfl⟩
      · rintro ⟨_, ⟨rfl, rfl⟩, rfl⟩
        exact ⟨_, ⟨rfl, rfl, rfl⟩, by simp [Flawless]⟩

section
variable {b : β}

theorem accepts_peek_bind {f : Token → Parser β} :
    Accepts s (peek >>= f) c b e ↔ ∃ t rest, c.ahead = t :: rest ∧ Accepts s (f t) c b e := by
  rw [accepts_bind]
  constructor
  · rintro ⟨t, d, hd, hf⟩
    obtain ⟨rest, hc, rfl⟩ := accepts_peek.mp hd
    exact ⟨t, rest, hc, hf⟩
  · rintro ⟨t, rest, hc, hf⟩
    exact ⟨t, c, accepts_peek.mpr ⟨rest, hc, rfl⟩, hf⟩

theorem accepts_advance_bind {f : Token → Parser β} :
    Accepts s (advance >>= f) c b e ↔ ∃ t rest, c.ahead = t :: rest ∧ Accepts s (f t) c.next b e := by
  rw [accepts_bind]
  constructor
  · rintro ⟨t, d, hd, hf⟩
    obtain ⟨rest, hc, rfl⟩ := accepts_advance.mp hd
    exact ⟨t, rest, hc, hf⟩
  · rintro ⟨t, rest, hc, hf⟩
    exact ⟨t, c.next, accepts_advance.mpr ⟨rest, hc, rfl⟩, hf⟩

theorem accepts_check_bind {kind : TokenKind} {f : Bool → Parser β} :
    Accepts s (check kind >>= f) c b e ↔ ∃ t rest, c.ahead = t :: rest ∧ Accepts s (f (t.kind == kind)) c b e := by
  unfold check
  simp only [accepts_bind_assoc, accepts_peek_bind, accepts_pure_bind]

theorem accepts_accept_bind {kind : TokenKind} {f : Bool → Parser β} (hk : kind ≠ .eof) :
    Accepts s (accept kind >>= f) c b e ↔ ∃ t rest, c.ahead = t :: rest ∧
      (t.kind = kind ∧ Accepts s (f true) ⟨rest, c.begun⟩ b e ∨ t.kind ≠ kind ∧ Accepts s (f false) c b e) := by
  unfold accept
  rw [accepts_bind_assoc, accepts_check_bind]
  refine exists_congr fun t => exists_congr fun rest => and_congr_right fun hc => ?_
  by_cases ht : t.kind = kind
  · have hnext := next_of_ahead hc (ht ▸ hk)
    simp only [ht, BEq.rfl, ↓reduceIte, accepts_bind_assoc, accepts_advance_bind, accepts_pure_bind, hnext, hc,
      List.cons.injEq, true_and, ne_eq, not_true_eq_false, false_and, or_false]
    exact ⟨fun ⟨_, _, _, h⟩ => h, fun h => ⟨t, rest, ⟨rfl, rfl⟩, h⟩⟩
  · simp only [ht, beq_iff_eq, ↓reduceIte, accepts_pure_bind, false_and, ne_eq, not_false_eq_true, true_and, false_or]

theorem not_accepts_report_bind {m : Mistake} {f : Unit → Parser β} : ¬Accepts s (report m >>= f) c b e := by
  rw [accepts_bind]
  rintro ⟨_, _, ⟨log, h, hl⟩, -⟩
  cases h
  exact not_flawless_found hl

theorem not_accepts_report {m : Mistake} {u : Unit} : ¬Accepts s (report m) c u d := by
  rintro ⟨log, h, hl⟩
  cases h
  exact not_flawless_found hl

/-- A token that is expected is there. -/
theorem accepts_expect_bind {kind : TokenKind} {expectation : String} {f : Token → Parser β}
    (hk : kind ≠ .eof) :
    Accepts s (expect kind expectation >>= f) c b e ↔
      ∃ t rest, c.ahead = t :: rest ∧ t.kind = kind ∧ Accepts s (f t) ⟨rest, c.begun⟩ b e := by
  unfold expect
  rw [accepts_bind_assoc, accepts_check_bind]
  refine exists_congr fun t => exists_congr fun rest => and_congr_right fun hc => ?_
  by_cases ht : t.kind = kind
  · have hnext := next_of_ahead hc (ht ▸ hk)
    simp only [ht, BEq.rfl, ↓reduceIte, accepts_advance_bind, hnext, hc, List.cons.injEq, true_and]
    exact ⟨fun ⟨_, _, ⟨rfl, _⟩, h⟩ => h, fun h => ⟨t, rest, ⟨rfl, rfl⟩, h⟩⟩
  · simp only [ht, beq_iff_eq, ↓reduceIte, accepts_bind_assoc, accepts_peek_bind, not_accepts_report_bind, and_false,
      exists_false, false_and]

theorem accepts_expectSemicolon_bind {construct : String} {first : Token} {f : Unit → Parser β} :
    Accepts s (expectSemicolon construct first >>= f) c b e ↔
      ∃ t rest, c.ahead = t :: rest ∧ t.kind = .semicolon ∧ Accepts s (f ()) ⟨rest, c.begun⟩ b e := by
  unfold expectSemicolon
  rw [accepts_bind_assoc, accepts_accept_bind (by simp)]
  refine exists_congr fun t => exists_congr fun rest => and_congr_right fun hc => ?_
  simp only [↓reduceIte, accepts_pure_bind, Bool.false_eq_true, not_accepts_report_bind, and_false, or_false]

theorem accepts_speculate {p : Parser α} {a : α} :
    Accepts s (speculate p) c a e ↔ ∃ d, Accepts s p c a d ∧ e = ⟨c.ahead, d.begun⟩ := by
  constructor
  · rintro ⟨log, h, hl⟩
    unfold speculate at h
    cases hp : p s c with
    | stopped => simp [hp] at h
    | done a' d' log' =>
      simp only [hp, Outcome.done.injEq] at h
      obtain ⟨rfl, rfl, rfl⟩ := h
      exact ⟨d', ⟨log', hp, hl⟩, rfl⟩
  · rintro ⟨d, ⟨log, h, hl⟩, rfl⟩
    exact ⟨log, by simp only [speculate, h], hl⟩

/-! Where the tokens ahead are known, each of these says what is done with them. -/

/-- What a parser accepts decides what comes behind it. -/
theorem accepts_bind_of {p : Parser α} {f : α → Parser β} {a : α} (hp : Accepts s p c a d) :
    Accepts s (p >>= f) c b e ↔ Accepts s (f a) d b e := by
  obtain ⟨log, hp, hlog⟩ := hp
  rw [accepts_bind]
  constructor
  · rintro ⟨a', d', ⟨log', hp', -⟩, hf⟩
    cases hp.symm.trans hp'
    exact hf
  · exact fun hf => ⟨a, d, ⟨log, hp, hlog⟩, hf⟩

section
variable {t : Token} {rest : List Token} (h : c.ahead = t :: rest)
include h

theorem accepts_peek_of : Accepts s peek c t c := accepts_peek.mpr ⟨rest, h, rfl⟩

theorem accepts_advance_of (ht : t.kind ≠ .eof) : Accepts s advance c t ⟨rest, c.begun⟩ :=
  accepts_advance.mpr ⟨rest, h, (next_of_ahead h ht).symm⟩

theorem accepts_check_of {kind : TokenKind} : Accepts s (check kind) c (t.kind == kind) c :=
  (accepts_bind_of (accepts_peek_of h)).mpr (accepts_pure.mpr ⟨rfl, rfl⟩)

theorem accepts_accept_of {kind : TokenKind} (ht : t.kind = kind) (hk : kind ≠ .eof) :
    Accepts s (accept kind) c true ⟨rest, c.begun⟩ := by
  unfold accept
  rw [accepts_bind_of (accepts_check_of h), if_pos (by simp [ht]), accepts_bind_of (accepts_advance_of h (ht ▸ hk)),
    accepts_pure]
  exact ⟨rfl, rfl⟩

theorem accepts_accept_other {kind : TokenKind} (ht : t.kind ≠ kind) : Accepts s (accept kind) c false c := by
  unfold accept
  rw [accepts_bind_of (accepts_check_of h), if_neg (by simp [ht]), accepts_pure]
  exact ⟨rfl, rfl⟩

theorem accepts_expect_of {kind : TokenKind} {expectation : String} (ht : t.kind = kind) (hk : kind ≠ .eof) :
    Accepts s (expect kind expectation) c t ⟨rest, c.begun⟩ := by
  unfold expect
  rw [accepts_bind_of (accepts_check_of h), if_pos (by simp [ht])]
  exact accepts_advance_of h (ht ▸ hk)

theorem accepts_expectSemicolon_of {construct : String} {first : Token} (ht : t.kind = .semicolon) :
    Accepts s (expectSemicolon construct first) c () ⟨rest, c.begun⟩ := by
  unfold expectSemicolon
  rw [accepts_bind_of (accepts_accept_of h ht (by simp)), if_pos rfl, accepts_pure]
  exact ⟨rfl, rfl⟩

theorem accepts_peek_bind_of {f : Token → Parser β} : Accepts s (peek >>= f) c b e ↔ Accepts s (f t) c b e :=
  accepts_bind_of (accepts_peek_of h)

theorem accepts_advance_bind_of {f : Token → Parser β} (ht : t.kind ≠ .eof) :
    Accepts s (advance >>= f) c b e ↔ Accepts s (f t) ⟨rest, c.begun⟩ b e :=
  accepts_bind_of (accepts_advance_of h ht)

theorem accepts_check_bind_of {kind : TokenKind} {f : Bool → Parser β} :
    Accepts s (check kind >>= f) c b e ↔ Accepts s (f (t.kind == kind)) c b e :=
  accepts_bind_of (accepts_check_of h)

theorem accepts_accept_bind_of {kind : TokenKind} {f : Bool → Parser β} (ht : t.kind = kind) (hk : kind ≠ .eof) :
    Accepts s (accept kind >>= f) c b e ↔ Accepts s (f true) ⟨rest, c.begun⟩ b e :=
  accepts_bind_of (accepts_accept_of h ht hk)

theorem accepts_accept_bind_other {kind : TokenKind} {f : Bool → Parser β} (ht : t.kind ≠ kind) :
    Accepts s (accept kind >>= f) c b e ↔ Accepts s (f false) c b e :=
  accepts_bind_of (accepts_accept_other h ht)

theorem accepts_expect_bind_of {kind : TokenKind} {expectation : String} {f : Token → Parser β}
    (ht : t.kind = kind) (hk : kind ≠ .eof) :
    Accepts s (expect kind expectation >>= f) c b e ↔ Accepts s (f t) ⟨rest, c.begun⟩ b e :=
  accepts_bind_of (accepts_expect_of h ht hk)

end

end

/-! ### Recursion and repetition -/

theorem accepts_later {p : Parser α} {a : α} :
    Accepts s (later c p) d a e ↔ d.ahead.length < c.ahead.length ∧ Accepts s p d a e := by
  unfold Accepts later
  split <;> simp [*]

theorem accepts_fixOver_iff {rule : (ι → Parser α) → ι → Parser α} {i : ι} {a : α} :
    Accepts s (fixOver rule i) c a d ↔ Accepts s (rule (fun j => later c (fixOver rule j)) i) c a d := by
  unfold Accepts
  rw [fixOver_eq]

/-- What a rule accepts when its parsers accept only what `Q` allows, is allowed by `Q`; then so is all that they
    accept. -/
theorem accepts_fixOver {rule : (ι → Parser α) → ι → Parser α} {Q : ι → Cursor → α → Cursor → Prop}
    (h : ∀ p : ι → Parser α, (∀ i c a d, Accepts s (p i) c a d → Q i c a d) →
      ∀ i c a d, Accepts s (rule p i) c a d → Q i c a d) {i : ι} {a : α}
    (ha : Accepts s (fixOver rule i) c a d) : Q i c a d := by
  induction hn : c.ahead.length using Nat.strongRecOn generalizing i c a d with
  | ind n ih =>
    refine h _ (fun j c' a' d' ha' => ?_) i c a d (accepts_fixOver_iff.mp ha)
    obtain ⟨hlt, ha'⟩ := accepts_later.mp ha'
    exact ih _ (hn ▸ hlt) ha' rfl

theorem accepts_fix {rule : Parser α → Parser α} {Q : Cursor → α → Cursor → Prop}
    (h : ∀ p, (∀ c a d, Accepts s p c a d → Q c a d) → ∀ c a d, Accepts s (rule p) c a d → Q c a d) {a : α}
    (ha : Accepts s (fix rule) c a d) : Q c a d :=
  accepts_fixOver (Q := fun _ => Q) (fun p hp _ => h (p ()) (hp ())) ha

theorem accepts_fix_iff {rule : Parser α → Parser α} {a : α} :
    Accepts s (fix rule) c a d ↔ Accepts s (rule (later c (fix rule))) c a d :=
  accepts_fixOver_iff

section
variable {go : TokenKind → Bool} {p : Parser α}

theorem accepts_repeatWhile_nil :
    Accepts s (repeatWhile go p) c [] d ↔ ∃ t rest, c.ahead = t :: rest ∧ go t.kind = false ∧ d = c := by
  unfold repeatWhile
  rw [accepts_fix_iff, accepts_peek_bind]
  refine exists_congr fun t => exists_congr fun rest => and_congr_right fun _ => ?_
  cases hg : go t.kind
  · simp [accepts_pure]
  · simp [accepts_bind, accepts_pure]

theorem accepts_repeatWhile_cons {a : α} {l : List α} :
    Accepts s (repeatWhile go p) c (a :: l) d ↔ ∃ t rest, c.ahead = t :: rest ∧ go t.kind ∧
      ∃ e, Accepts s p c a e ∧ e.ahead.length < c.ahead.length ∧ Accepts s (repeatWhile go p) e l d := by
  unfold repeatWhile
  rw [accepts_fix_iff, accepts_peek_bind]
  refine exists_congr fun t => exists_congr fun rest => and_congr_right fun _ => ?_
  cases hg : go t.kind
  · simp [accepts_pure]
  · simp only [↓reduceIte, accepts_bind, accepts_pure, accepts_later, List.cons.injEq, true_and]
    constructor
    · rintro ⟨_, e, hp, _, _, ⟨hlt, ha⟩, ⟨rfl, rfl⟩, rfl⟩
      exact ⟨e, hp, hlt, ha⟩
    · rintro ⟨e, hp, hlt, ha⟩
      exact ⟨a, e, hp, l, d, ⟨hlt, ha⟩, ⟨rfl, rfl⟩, rfl⟩

end

end Parser

end Curly
