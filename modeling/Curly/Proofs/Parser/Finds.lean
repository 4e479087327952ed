import Curly.Proofs.Parser.Accepts

/-! Runs with given mistakes. `Finds s p c ms a d` says that the parser `p`, started at the cursor `c`, comes to the value
    `a` at the cursor `d`, and that on the way it finds just the mistakes `ms`, in this order. -/

namespace Curly.Parser
variable {α β : Type} {s : Setting} {c d e : Cursor} {ms ms' : List Mistake}

/-- The parser comes to a value, and finds these mistakes on the way. -/
def Finds (s : Setting) (p : Parser α) (c : Cursor) (ms : List Mistake) (a : α) (d : Cursor) : Prop :=
  ∃ log, p s c = .done a d log ∧ log.filterMap Event.mistake? = ms

theorem finds_nil {p : Parser α} {a : α} : Finds s p c [] a d ↔ Accepts s p c a d :=
  exists_congr fun _ => and_congr_right fun _ => flawless_iff.symm

/-! ### Sequences -/

theorem finds_pure {a : α} : Finds s (pure a) c [] a c := ⟨[], rfl, rfl⟩

theorem finds_bind {p : Parser α} {f : α → Parser β} {a : α} {b : β} (hp : Finds s p c ms a d)
    (hf : Finds s (f a) d ms' b e) : Finds s (p >>= f) c (ms ++ ms') b e := by
  obtain ⟨log, hp, rfl⟩ := hp
  obtain ⟨more, hf, rfl⟩ := hf
  refine ⟨log ++ more, ?_, List.filterMap_append⟩
  change (p s c).andThen (fun a d => f a s d) = _
  simp only [hp, hf, Outcome.andThen, Outcome.after]

/-- What a parser accepts adds no mistake to what is found behind it. -/
theorem finds_bind_of {p : Parser α} {f : α → Parser β} {a : α} {b : β} (hp : Accepts s p c a d)
    (hf : Finds s (f a) d ms b e) : Finds s (p >>= f) c ms b e :=
  finds_bind (finds_nil.mpr hp) hf

theorem finds_bind_pure {p : Parser α} {f : α → β} {a : α} (hp : Finds s p c ms a d) :
    Finds s (p >>= fun a => pure (f a)) c ms (f a) d := by
  rw [← List.append_nil ms]
  exact finds_bind hp finds_pure

theorem finds_map {p : Parser α} {f : α → β} {a : α} (hp : Finds s p c ms a d) : Finds s (f <$> p) c ms (f a) d :=
  finds_bind_pure hp

theorem finds_report {m : Mistake} : Finds s (report m) c [m] () c := ⟨_, rfl, rfl⟩

/-- A parser that finds a mistake, and then accepts. -/
theorem finds_bind_accepts {p : Parser α} {f : α → Parser β} {a : α} {b : β} (hp : Finds s p c ms a d)
    (hf : Accepts s (f a) d b e) : Finds s (p >>= f) c ms b e := by
  rw [← List.append_nil ms]
  exact finds_bind hp (finds_nil.mpr hf)

/-! ### Recursion and repetition -/

/-- Where fewer than `n` tokens are ahead, the two parsers do the same. -/
def Agree (s : Setting) (n : Nat) (p q : Parser α) : Prop := ∀ c, c.ahead.length < n → q s c = p s c

theorem agree_self {n : Nat} {p : Parser α} : Agree s n p p := fun _ _ => rfl

theorem Agree.mono {m n : Nat} {p q : Parser α} (h : Agree s n p q) (hmn : m ≤ n) : Agree s m p q :=
  fun c hc => h c (Nat.lt_of_lt_of_le hc hmn)

theorem agree_later {ahead : List Token} {m n : Nat} {p : Parser α} (hm : m ≤ ahead.length) :
    Agree s m p (later ⟨ahead, n⟩ p) := by
  intro c hc
  rw [later, if_pos (Nat.lt_of_lt_of_le hc hm)]

theorem Agree.finds {n : Nat} {p q : Parser α} (h : Agree s n p q) (hc : c.ahead.length < n) {a : α}
    (hp : Finds s p c ms a d) : Finds s q c ms a d := by
  unfold Finds
  rw [h c hc]
  exact hp

theorem Agree.accepts {n : Nat} {p q : Parser α} (h : Agree s n p q) (hc : c.ahead.length < n) {a : α}
    (hp : Accepts s p c a d) : Accepts s q c a d :=
  finds_nil.mp (h.finds hc (finds_nil.mpr hp))

theorem finds_fix {rule : Parser α → Parser α} {a : α} (h : Finds s (rule (later c (fix rule))) c ms a d) :
    Finds s (fix rule) c ms a d := by
  unfold Finds fix
  rw [fixOver_eq]
  exact h

/-- One more value is taken in front of others. -/
theorem repeatWhile_cons {go : TokenKind → Bool} {p : Parser α} {t : Token} {rest : List Token} {n : Nat} {a : α}
    {l : List α} {d e : Cursor} {log more : List Event} (ht : go t.kind) (hp : p s ⟨t :: rest, n⟩ = .done a d log)
    (hlt : d.ahead.length < (t :: rest).length) (hl : repeatWhile go p s d = .done l e more) :
    repeatWhile go p s ⟨t :: rest, n⟩ = .done (a :: l) e (log ++ more) := by
  have hagain : later ⟨t :: rest, n⟩ (repeatWhile go p) s d = .done l e more := by rw [later, if_pos hlt, hl]
  unfold repeatWhile fix
  rw [fixOver]
  show ((if go t.kind then p >>= fun a => later _ (repeatWhile go p) >>= fun l => pure (a :: l) else pure []) s
    ⟨t :: rest, n⟩).after [] = _
  rw [if_pos ht]
  show (((p s ⟨t :: rest, n⟩).andThen fun a d =>
    (later _ (repeatWhile go p) s d).andThen fun l e => .done (a :: l) e []).after []) = _
  simp only [hp, Outcome.andThen, hagain, Outcome.after, List.append_nil, List.nil_append]

theorem finds_repeatWhile_cons {go : TokenKind → Bool} {p : Parser α} {t : Token} {rest : List Token} {n : Nat} {a : α}
    {l : List α} (ht : go t.kind) (hp : Finds s p ⟨t :: rest, n⟩ ms a d) (hlt : d.ahead.length < (t :: rest).length)
    (hl : Finds s (repeatWhile go p) d ms' l e) :
    Finds s (repeatWhile go p) ⟨t :: rest, n⟩ (ms ++ ms') (a :: l) e := by
  obtain ⟨log, hp, rfl⟩ := hp
  obtain ⟨more, hl, rfl⟩ := hl
  exact ⟨log ++ more, repeatWhile_cons ht hp hlt hl, List.filterMap_append⟩

end Curly.Parser
