import Curly.Proofs.Parser.Mistakes
import Curly.Syntax.Reading

/-! What parsers do where the tokens ahead are known, entries of the log included. -/

namespace Curly

section
variable {α β : Type}

@[simp] theorem after_nil (o : Outcome α) : o.after [] = o := by cases o <;> rfl

@[simp] theorem after_after (o : Outcome α) (log more : List Event) :
    (o.after more).after log = o.after (log ++ more) := by
  cases o <;> simp [Outcome.after]

@[simp] theorem log_after (o : Outcome α) (log : List Event) : (o.after log).log = log ++ o.log := by cases o <;> rfl

end

/-- The entries for the reading of so many tokens, where `ahead` tokens are ahead of the first. -/
def Event.reads (ahead : Nat) : Nat → List Event
  | 0 => []
  | n + 1 => .read ahead :: reads (ahead - 1) n

theorem reads_append (ahead m n : Nat) :
    Event.reads ahead m ++ Event.reads (ahead - m) n = Event.reads ahead (m + n) := by
  induction m generalizing ahead with
  | zero => rw [Nat.sub_zero, Nat.zero_add]; rfl
  | succ m ih =>
    rw [Nat.succ_add, Event.reads, Event.reads, List.cons_append, Nat.add_comm m 1, ← Nat.sub_sub, ih]

theorem mistakes_reads (ahead n : Nat) : (Event.reads ahead n).filterMap Event.mistake? = [] := by
  induction n generalizing ahead with
  | zero => rfl
  | succ n ih => exact ih (ahead - 1)

theorem mistakes_after_reads {α : Type} (o : Outcome α) (ahead n : Nat) :
    (o.after (Event.reads ahead n)).mistakes = o.mistakes := by
  rw [Outcome.mistakes, log_after, List.filterMap_append, mistakes_reads]
  rfl

namespace Parser
variable {α β : Type} {s : Setting} {c d : Cursor}

theorem bind_of_done {p : Parser α} {f : α → Parser β} {a : α} {log : List Event} (hp : p s c = .done a d log) :
    (p >>= f) s c = (f a s d).after log := by
  show (p s c).andThen (fun a d => f a s d) = _
  rw [hp]
  rfl

section
variable {t : Token} {rest : List Token} (h : c.ahead = t :: rest)
include h

theorem current_eq (s : Setting) : s.current c = t := by
  rw [Setting.current, h]
  rfl

theorem peek_eq : peek s c = .done t c [] := by simp only [peek, h]

theorem advance_eq (ht : t.kind ≠ .eof) : advance s c = .done t ⟨rest, c.begun⟩ (Event.reads c.ahead.length 1) := by
  simp [advance, h, ht, Event.reads]

theorem check_eq (kind : TokenKind) : check kind s c = .done (t.kind == kind) c [] := by
  unfold check
  rw [bind_of_done (peek_eq h), after_nil]
  rfl

theorem expect_eq_advance {kind : TokenKind} (ht : t.kind = kind) (expectation : String) :
    expect kind expectation s c = advance s c := by
  unfold expect
  rw [bind_of_done (check_eq h kind), after_nil, if_pos (by simp [ht])]

theorem peek_bind (f : Token → Parser β) : (peek >>= f) s c = f t s c := by
  rw [bind_of_done (peek_eq h), after_nil]

/-- A token that is expected and found is read. -/
theorem expect_eq_read {kind : TokenKind} (ht : t.kind = kind) (hk : kind ≠ .eof) (expectation : String) :
    expect kind expectation s c = .done t ⟨rest, c.begun⟩ (Event.reads c.ahead.length 1) :=
  (expect_eq_advance h ht expectation).trans (advance_eq h (ht ▸ hk))

end

/-- A sequence tells first what its first parser tells. -/
theorem prefix_log_bind (p : Parser α) (f : α → Parser β) (s : Setting) (c : Cursor) :
    (p s c).log <+: ((p >>= f) s c).log := by
  show (p s c).log <+: ((p s c).andThen fun a d => f a s d).log
  cases p s c with
  | stopped => exact List.prefix_refl _
  | done a d log =>
    rw [log_andThen]
    exact List.prefix_append _ _

theorem fix_eq (rule : Parser α → Parser α) (s : Setting) (c : Cursor) :
    fix rule s c = rule (later c (fix rule)) s c :=
  fixOver_eq _ () s c

theorem later_eq {p : Parser α} (h : d.ahead.length < c.ahead.length) : later c p s d = p s d := if_pos h

/-! ### Dotted names -/

theorem dottedName_rule (s : Setting) (c : Cursor) : dottedName s c = (do
    if ← check .identifier then
      let t ← advance
      if ← check .dot then
        let dot ← advance
        return t :: dot :: (← later c dottedName)
      else
        return [t]
    else
      return [] : Parser (List Token)) s c :=
  fix_eq _ s c

/-- A dotted name is taken as a whole. -/
theorem dottedName_eq {name : List Token} (hname : DottedName name) {l : Token} {rest : List Token}
    (hl : l.kind = .leftParen) (hc : c.ahead = name ++ l :: rest) :
    dottedName s c = .done name ⟨l :: rest, c.begun⟩ (Event.reads c.ahead.length name.length) := by
  induction hname generalizing c with
  | @single t ht =>
    have hc : c.ahead = t :: l :: rest := hc
    have hd : Cursor.ahead ⟨l :: rest, c.begun⟩ = l :: rest := rfl
    rw [dottedName_rule, bind_of_done (check_eq hc _), after_nil, if_pos (by simp [ht]),
      bind_of_done (advance_eq hc (by simp [ht])), bind_of_done (check_eq hd _), after_nil, if_neg (by simp [hl])]
    rfl
  | @cons t dot ts ht hdot _ ih =>
    have hc : c.ahead = t :: dot :: (ts ++ l :: rest) := hc
    have hd : Cursor.ahead ⟨dot :: (ts ++ l :: rest), c.begun⟩ = dot :: (ts ++ l :: rest) := rfl
    have hlength : c.ahead.length = (ts ++ l :: rest).length + 2 := congrArg List.length hc
    have hlt : (Cursor.mk (ts ++ l :: rest) c.begun).ahead.length < c.ahead.length := by
      rw [hlength]
      exact Nat.lt_add_of_pos_right (by decide)
    have hts : later c dottedName s ⟨ts ++ l :: rest, c.begun⟩ =
        .done ts ⟨l :: rest, c.begun⟩ (Event.reads (ts ++ l :: rest).length ts.length) :=
      (later_eq hlt).trans (ih rfl)
    rw [dottedName_rule, bind_of_done (check_eq hc _), after_nil, if_pos (by simp [ht]),
      bind_of_done (advance_eq hc (by simp [ht])), bind_of_done (check_eq hd _), after_nil, if_pos (by simp [hdot]),
      bind_of_done (advance_eq hd (by simp [hdot])), bind_of_done hts, hlength]
    show Outcome.done (t :: dot :: ts) ⟨l :: rest, c.begun⟩ (_ ++ (_ ++ (_ ++ []))) = _
    rw [List.append_nil]
    rfl

end Parser

end Curly
