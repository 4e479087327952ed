import Curly.Proofs.Parser.Closed

/-! Which mistakes a parser can find. A kind of mistakes is kept where parsers are put together, so it is told from the
    places alone where something is reported. -/

namespace Curly

/-- The mistakes that the log tells of. -/
def Outcome.mistakes {α : Type} (o : Outcome α) : List Mistake := o.log.filterMap Event.mistake?

section
variable {α β : Type} (a : α) (d : Cursor) (log : List Event) (f : α → Cursor → Outcome β)

theorem cursor_andThen : ((Outcome.done a d log).andThen f).cursor = (f a d).cursor := by
  simp only [Outcome.andThen]
  cases f a d <;> rfl

theorem log_andThen : ((Outcome.done a d log).andThen f).log = log ++ (f a d).log := by
  simp only [Outcome.andThen]
  cases f a d <;> rfl

theorem mistakes_andThen :
    ((Outcome.done a d log).andThen f).mistakes = (Outcome.done a d log).mistakes ++ (f a d).mistakes := by
  rw [Outcome.mistakes, log_andThen, List.filterMap_append]
  rfl

end

namespace Parser
variable {α β ι : Type} {K : Mistake → Prop}

/-- All mistakes that the parser finds are of a kind. -/
def FindsOnly (K : Mistake → Prop) {α : Type} (p : Parser α) : Prop := ∀ s c, ∀ m ∈ (p s c).mistakes, K m

/-! ### Sequences and recursion -/

theorem FindsOnly.of_nil {p : Parser α} (h : ∀ s c, (p s c).mistakes = []) : FindsOnly K p := fun s c m hm => by
  rw [h s c] at hm
  cases hm

/-- What follows is asked only about the places that the first parser comes to. -/
theorem findsOnly_andThen {o : Outcome α} {f : α → Cursor → Outcome β} (ho : ∀ m ∈ o.mistakes, K m)
    (hf : ∀ a d log, o = .done a d log → ∀ m ∈ (f a d).mistakes, K m) : ∀ m ∈ (o.andThen f).mistakes, K m := by
  cases o with
  | stopped => exact ho
  | done a d log =>
    rw [mistakes_andThen]
    exact List.forall_mem_append.mpr ⟨ho, hf a d log rfl⟩

theorem findsOnly_pure (a : α) : FindsOnly K (pure a) := .of_nil fun _ _ => rfl

theorem findsOnly_bind {p : Parser α} {f : α → Parser β} (hp : FindsOnly K p) (hf : ∀ a, FindsOnly K (f a)) :
    FindsOnly K (p >>= f) :=
  fun s c => findsOnly_andThen (hp s c) fun a d _ _ => hf a s d

theorem findsOnly_fixOver {rule : (ι → Parser α) → ι → Parser α}
    (h : ∀ p : ι → Parser α, (∀ i, FindsOnly K (p i)) → ∀ i, FindsOnly K (rule p i)) (i : ι) :
    FindsOnly K (fixOver rule i) :=
  fixOver_of (Q := fun s _ o => ∀ m ∈ (o s).mistakes, K m) (fun _ _ _ hm => by cases hm) h i

/-! ### Tokens and mistakes -/

theorem findsOnly_peek : FindsOnly K peek := .of_nil fun _ _ => by
  unfold peek
  split <;> rfl

theorem findsOnly_advance : FindsOnly K advance := .of_nil fun _ _ => by
  unfold advance
  split
  · rfl
  · split <;> rfl

theorem reading_findsOnly : ClosedReading (FindsOnly K) where
  pure := findsOnly_pure
  bind := findsOnly_bind
  fixOver := findsOnly_fixOver
  peek := findsOnly_peek
  advance := findsOnly_advance

theorem findsOnly_report {m : Mistake} (hm : K m) : FindsOnly K (report m) := fun _ _ n hn => by
  obtain rfl : n = m := List.mem_singleton.mp hn
  exact hm

theorem findsOnly_speculate {p : Parser α} (hp : FindsOnly K p) : FindsOnly K (speculate p) := by
  intro s c m hm
  refine hp s c m ?_
  unfold speculate at hm
  cases h : p s c <;> rw [h] at hm <;> exact hm

theorem findsOnly_resume : FindsOnly K resume := .of_nil fun _ _ => rfl

theorem findsOnly_begin : FindsOnly K begin := .of_nil fun _ _ => by
  unfold begin
  split
  · simp only
    split <;> rfl
  · rfl

theorem findsOnly_beginProgram : FindsOnly K beginProgram := .of_nil fun _ _ => by
  unfold beginProgram
  split <;> rfl

/-! ### Expectations -/

theorem findsOnly_expect {kind : TokenKind} {expectation : String} (h : ∀ t, K (.unexpected expectation t)) :
    FindsOnly K (expect kind expectation) :=
  findsOnly_bind (reading_findsOnly.check _) fun _ => closed_ite findsOnly_advance <|
    findsOnly_bind findsOnly_peek fun _ => findsOnly_bind (findsOnly_report (h _)) fun _ => findsOnly_advance

theorem findsOnly_expectSemicolon {construct : String} {first : Token}
    (h : K (.missingSemicolon construct first none)) : FindsOnly K (expectSemicolon construct first) :=
  findsOnly_bind (reading_findsOnly.accept _) fun _ => closed_ite (findsOnly_pure _) (findsOnly_report h)

theorem findsOnly_endDeclaration {name : Token} (h : ∀ found, K (.missingSemicolon "declaration" name found)) :
    FindsOnly K (endDeclaration name) :=
  findsOnly_bind (reading_findsOnly.accept _) fun _ => closed_ite (findsOnly_pure _) <|
    findsOnly_bind findsOnly_peek fun _ => findsOnly_bind (findsOnly_report (h _)) fun _ => findsOnly_resume

theorem findsOnly_separator (h : ∀ t, K (.unexpected "Expected ',' between arguments" t)) : FindsOnly K separator :=
  findsOnly_bind (reading_findsOnly.accept _) fun _ => closed_ite (findsOnly_pure _) <|
    findsOnly_bind findsOnly_peek fun _ => closed_ite (findsOnly_report (h _)) (findsOnly_pure _)

/-- Nothing is reported by those that look ahead. -/
theorem findsOnly_isMethodCall : FindsOnly K isMethodCall :=
  reading_findsOnly.isMethodCall fun _ => findsOnly_speculate

theorem findsOnly_isLikelyMethod (modifiers : List Token) (t : Token) : FindsOnly K (isLikelyMethod modifiers t) :=
  closed_ite (findsOnly_pure _) (reading_findsOnly.namesMethod fun _ => findsOnly_speculate)

end Parser

end Curly
