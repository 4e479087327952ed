import Curly.Proofs.Parser.Kinds
import Curly.Proofs.Parser.Order
import Curly.Proofs.Parser.Steps

/-! How far a parse gets between two reports. A report is followed by the reading of a token, or it comes after one was
    read; so no token is cited more than twice, unless it is the end of the input, and for want of a semicolon.
    Main statement: `paces_program`. -/

namespace Curly

/-! ### What is cited -/

/-- The tokens at which mistakes are reported, in this order, but for missing semicolons and for the end of the input. -/
def citations (ms : List Mistake) : List Token :=
  ((ms.filter (·.code ≠ "P002")).map Mistake.token).filter (·.kind ≠ .eof)

def Outcome.citations {α : Type} (o : Outcome α) : List Token := Curly.citations o.mistakes

theorem citations_andThen {α β : Type} (a : α) (d : Cursor) (log : List Event) (f : α → Cursor → Outcome β) :
    ((Outcome.done a d log).andThen f).citations = (Outcome.done a d log).citations ++ (f a d).citations := by
  simp only [Outcome.citations, mistakes_andThen, citations, List.filter_append, List.map_append]

theorem citations_of_nil {α : Type} {o : Outcome α} (h : o.mistakes = []) : o.citations = [] := by
  rw [Outcome.citations, h]
  rfl

/-- One mistake at most, at the current token. -/
theorem citations_of_mistakes {α : Type} {s : Setting} {c : Cursor} {o : Outcome α} (hc : c.Open)
    (ho : o.mistakes = [] ∨ ∃ m, o.mistakes = [m] ∧ m.token = s.current c) :
    o.citations = [] ∨ ∃ t ∈ c.ahead.head?, o.citations = [t] := by
  rcases ho with ho | ⟨m, ho, hm⟩
  · exact .inl (citations_of_nil ho)
  · obtain ⟨t, rest, ht⟩ := hc.ahead
    have hmt : m.token = t := hm.trans (Parser.current_eq ht s)
    rw [Outcome.citations, ho, citations, ht, ← hmt]
    by_cases hm : m.code = "P002"
    · simp [hm]
    · by_cases hk : m.token.kind = .eof <;> simp [hm, hk]

/-- A token of a list without duplicates that is the first one does not come again. -/
theorem not_mem_tail {l : List Token} (hl : l.Nodup) {t : Token} (ht : t ∈ l.head?) : t ∉ l.tail := by
  cases l with
  | nil => cases ht
  | cons u l =>
    obtain rfl : u = t := Option.some.inj ht
    exact (List.nodup_cons.mp hl).1

theorem mem_tail_of_mem {l : List Token} {t : Token} (h : t ∈ l) (ht : t ∉ l.head?) : t ∈ l.tail := by
  cases l with
  | nil => cases h
  | cons u l =>
    rcases List.mem_cons.mp h with rfl | h
    · exact absurd rfl ht
    · exact h

theorem suffix_cases {l l' : List Token} (h : l <:+ l') : l = l' ∨ l <:+ l'.tail := by
  cases l' with
  | nil => exact .inl (List.suffix_nil.mp h)
  | cons t l' => exact List.suffix_cons_iff.mp h

theorem tail_subset {l l' : List Token} (h : l <:+ l') {t : Token} (ht : t ∈ l.tail) : t ∈ l'.tail := by
  rcases suffix_cases h with rfl | h
  · exact ht
  · exact h.subset (List.mem_of_mem_tail ht)

namespace Parser
variable {α β ι : Type} {b : Nat} {c : Cursor} {o : Outcome α}

/-- The tokens that are cited between two cursors lie between them. None of them is cited more than twice, and the one at
    the first cursor only once; the one at the second cursor, which may be cited again later, `b` times at most. -/
structure Bounded (b : Nat) (c : Cursor) (o : Outcome α) : Prop where
  onward : Onward c o.cursor
  ahead : ∀ t ∈ o.citations, t ∈ c.ahead
  passed : ∀ t ∈ o.citations, t ∉ o.cursor.ahead.tail
  twice : ∀ t, o.citations.count t ≤ 2
  first : ∀ t ∈ c.ahead.head?, o.citations.count t ≤ 1
  last : ∀ t ∈ o.cursor.ahead.head?, o.citations.count t ≤ b

/-- Where nothing is read, nothing is cited. -/
def Still (c : Cursor) (o : Outcome α) : Prop :=
  o.cursor.ahead = c.ahead → ∀ t ∈ c.ahead.head?, o.citations.count t = 0

structure Paced (b : Nat) (c : Cursor) (o : Outcome α) : Prop extends Bounded b c o where
  still : Still c o

theorem Paced.of_nil (h : Onward c o.cursor) (ho : o.citations = []) : Paced b c o := by
  refine ⟨⟨h, ?_, ?_, ?_, ?_, ?_⟩, fun _ => ?_⟩ <;> simp [ho]

/-- One report, at the token where it begins. -/
theorem Bounded.of_one (hc : c.ahead.Nodup) (h : Onward c o.cursor) {t : Token} (ht : t ∈ c.ahead.head?)
    (ho : o.citations = [t]) (hlast : ∀ u ∈ o.cursor.ahead.head?, o.citations.count u ≤ b) : Bounded b c o := by
  have hone : ∀ u, o.citations.count u ≤ 1 := fun u => ho ▸ List.count_le_length
  refine ⟨h, ?_, ?_, fun u => (hone u).trans (Nat.le_succ 1), fun u _ => hone u, hlast⟩ <;> rw [ho]
  · exact List.forall_mem_singleton.mpr (List.mem_of_mem_head? ht)
  · exact List.forall_mem_singleton.mpr fun hmem => not_mem_tail hc ht (tail_subset h.suffix hmem)

/-- In a sequence, the token in between may be cited by either part; but the second part must not add to what the first
    one left there, unless this is nothing. -/
theorem Bounded.andThen {b' : Nat} {f : α → Cursor → Outcome β} (hb : b ≤ b') (hb' : b' ≤ 1) (hc : c.ahead.Nodup)
    (ho : Bounded b c o) (hs : Still c o) (hf : ∀ a d log, o = .done a d log → Bounded b' d (f a d))
    (hlast : b = 0 ∨ ∀ a d log, o = .done a d log → Still d (f a d)) : Bounded b' c (o.andThen f) := by
  cases o with
  | stopped => exact ⟨ho.onward, ho.ahead, ho.passed, ho.twice, ho.first, fun t ht => (ho.last t ht).trans hb⟩
  | done a d log =>
    have hfd := hf a d log rfl
    have hcursor := cursor_andThen a d log f
    have hcited := citations_andThen a d log f
    have before : ∀ t, t ∈ d.ahead.tail → (Outcome.done a d log).citations.count t = 0 := fun t ht =>
      List.count_eq_zero.mpr fun hmem => ho.passed t hmem ht
    have behind : ∀ t, t ∉ d.ahead → (f a d).citations.count t = 0 := fun t ht =>
      List.count_eq_zero.mpr fun hmem => ht (hfd.ahead t hmem)
    refine ⟨hcursor ▸ ho.onward.trans hfd.onward, ?_, ?_, ?_, ?_, ?_⟩ <;> rw [hcited]
    · exact List.forall_mem_append.mpr ⟨ho.ahead, fun t ht => ho.onward.suffix.subset (hfd.ahead t ht)⟩
    · rw [hcursor]
      exact List.forall_mem_append.mpr ⟨fun t ht h => ho.passed t ht (tail_subset hfd.onward.suffix h), hfd.passed⟩
    · intro t
      rw [List.count_append]
      by_cases ht : t ∈ d.ahead
      · by_cases hhead : t ∈ d.ahead.head?
        · exact Nat.add_le_add ((ho.last t hhead).trans (hb.trans hb')) (hfd.first t hhead)
        · rw [before t (mem_tail_of_mem ht hhead), Nat.zero_add]
          exact hfd.twice t
      · rw [behind t ht]
        exact ho.twice t
    · intro t ht
      rw [List.count_append]
      rcases suffix_cases ho.onward.suffix with heq | hlt
      · rw [hs heq t ht, Nat.zero_add]
        exact hfd.first t (heq ▸ ht)
      · rw [behind t fun hmem => not_mem_tail hc ht (hlt.subset hmem)]
        exact ho.first t ht
    · intro t ht
      rw [hcursor] at ht
      rw [List.count_append]
      rcases suffix_cases hfd.onward.suffix with heq | hlt
      · have hleft : (Outcome.done a d log).citations.count t ≤ b := ho.last t (heq ▸ ht)
        rcases hlast with rfl | hstill
        · rw [Nat.le_zero.mp hleft, Nat.zero_add]
          exact hfd.last t ht
        · rw [hstill a d log rfl heq t (heq ▸ ht)]
          exact hleft.trans hb
      · rw [before t (hlt.subset (List.mem_of_mem_head? ht)), Nat.zero_add]
        exact hfd.last t ht

theorem Still.andThen {f : α → Cursor → Outcome β} (hs : Still c o) (ho : Onward c o.cursor)
    (hf : ∀ a d log, o = .done a d log → Onward d (f a d).cursor ∧ Still d (f a d)) : Still c (o.andThen f) := by
  cases o with
  | stopped => exact hs
  | done a d log =>
    obtain ⟨hd, hfd⟩ := hf a d log rfl
    intro heq t ht
    rw [cursor_andThen] at heq
    have hdc : d.ahead = c.ahead := ho.suffix.eq_of_length_le (heq ▸ hd.length_le)
    rw [citations_andThen, List.count_append, hs hdc t ht, hfd (heq.trans hdc.symm) t (hdc ▸ ht)]

theorem Paced.andThen {f : α → Cursor → Outcome β} (hb : b ≤ 1) (hc : c.ahead.Nodup) (ho : Paced b c o)
    (hf : ∀ a d log, o = .done a d log → Paced b d (f a d)) : Paced b c (o.andThen f) :=
  ⟨ho.toBounded.andThen (Nat.le_refl b) hb hc ho.still (fun a d log h => (hf a d log h).toBounded)
      (.inr fun a d log h => (hf a d log h).still),
    ho.still.andThen ho.onward fun a d log h => ⟨(hf a d log h).onward, (hf a d log h).still⟩⟩

/-- A token that is cited is no end of the input, so it is read when the parse goes on. -/
theorem Still.of_advances (hc : c.Open) (h : Advances c o.cursor) : Still c o := by
  intro heq t ht
  refine List.count_eq_zero.mpr fun hmem => ?_
  have hk : t.kind ≠ .eof := of_decide_eq_true (List.mem_filter.mp hmem).2
  obtain ⟨u, rest, hu⟩ := hc.ahead
  obtain rfl : u = t := by
    rw [hu] at ht
    exact Option.some.inj ht
  have hlt := h.moves (not_atEnd (s := ⟨u, none⟩) hc (by rwa [Setting.current, hu]))
  exact absurd (heq ▸ hlt) (Nat.lt_irrefl _)

/-- At most one report at the first token, which is read. -/
theorem Paced.of_advances {s : Setting} (hc : c.Open) (hn : c.ahead.Nodup) (h : Advances c o.cursor)
    (ho : o.mistakes = [] ∨ ∃ m, o.mistakes = [m] ∧ m.token = s.current c) : Paced b c o := by
  rcases citations_of_mistakes hc ho with hnil | ⟨t, ht, hone⟩
  · exact .of_nil h.onward hnil
  · refine ⟨.of_one hn h.onward ht hone fun u hu => ?_, .of_advances hc h⟩
    have hstill := Still.of_advances hc h
    rcases suffix_cases h.onward.suffix with heq | hlt
    · rw [hstill heq u (heq ▸ hu)]
      exact Nat.zero_le b
    · have hut : t ≠ u := fun h => not_mem_tail hn ht (h ▸ hlt.subset (List.mem_of_mem_head? hu))
      rw [hone, List.count_eq_zero.mpr (by simpa using Ne.symm hut)]
      exact Nat.zero_le b

/-- The parser cites tokens in this way from a cursor on. -/
def PacesAt (b : Nat) (s : Setting) (c : Cursor) {α : Type} (p : Parser α) : Prop :=
  c.Open → c.ahead.Nodup → Paced b c (p s c)

def Paces (b : Nat) {α : Type} (p : Parser α) : Prop := ∀ s c, PacesAt b s c p

/-! ### Sequences and recursion -/

/-- Nothing but semicolons is missed. -/
theorem paces_of_findsOnly {p : Parser α} (hs : Safe p) (hp : FindsOnly (fun m => m.code = "P002") p) : Paces b p := by
  intro s c hc _
  have hnone : (p s c).mistakes.filter (·.code ≠ "P002") = [] :=
    List.filter_eq_nil_iff.mpr fun m hm => by simp [hp s c m hm]
  refine .of_nil (hs s c hc).onward ?_
  rw [Outcome.citations, citations, hnone]
  rfl

theorem pacesAt_bind (hb : b ≤ 1) {s : Setting} {p : Parser α} {f : α → Parser β} (hp : PacesAt b s c p)
    (hf : ∀ a d log, p s c = .done a d log → PacesAt b s d (f a)) : PacesAt b s c (p >>= f) := by
  intro hc hn
  have hpc := hp hc hn
  refine hpc.andThen hb hn fun a d log hd => ?_
  rw [hd] at hpc
  exact hf a d log hd (hpc.onward.isOpen hc) (hn.sublist hpc.onward.suffix.sublist)

theorem paces_fixOver {rule : (ι → Parser α) → ι → Parser α}
    (h : ∀ p : ι → Parser α, (∀ i, Paces b (p i)) → ∀ i, Paces b (rule p i)) (i : ι) : Paces b (fixOver rule i) :=
  fixOver_of (Q := fun s c o => c.Open → c.ahead.Nodup → Paced b c (o s))
    (fun _ c _ _ => .of_nil (.refl c) rfl) h i

theorem reading_paces (hb : b ≤ 1) : ClosedReading (Paces b) where
  pure a := paces_of_findsOnly (safe_pure a) (findsOnly_pure a)
  bind hp hf s c := pacesAt_bind hb (hp s c) fun a d _ _ => hf a s d
  fixOver := paces_fixOver
  peek := paces_of_findsOnly safe_peek findsOnly_peek
  advance := paces_of_findsOnly safe_advance findsOnly_advance

/-! ### Reports -/

theorem peek_bind_current (hc : c.Open) (s : Setting) (f : Token → Parser α) :
    (peek >>= f) s c = f (s.current c) s c := by
  obtain ⟨t, rest, ht⟩ := hc.ahead
  rw [peek_bind ht, current_eq ht]

theorem pacesAt_peek {s : Setting} {f : Token → Parser α} (hf : PacesAt b s c (f (s.current c))) :
    PacesAt b s c (peek >>= f) := by
  intro hc hn
  rw [peek_bind_current hc]
  exact hf hc hn

/-- What the parser comes to tells how it cites. -/
theorem Paced.of_yields {p : Parser α} {s : Setting} (hc : c.Open) (hn : c.ahead.Nodup)
    (h : Yields p s c fun _ d log => Advances c d ∧
      (log.filterMap Event.mistake? = [] ∨ ∃ m, log.filterMap Event.mistake? = [m] ∧ m.token = s.current c)) :
    Paced b c (p s c) := by
  obtain ⟨a, d, log, hp, hd, hlog⟩ := yields_iff.mp h
  rw [hp]
  exact .of_advances hc hn hd hlog

theorem mistakes_read (b : Prop) [Decidable b] (n : Nat) :
    (if b then [] else [Event.read n]).filterMap Event.mistake? = [] := by
  split <;> rfl

theorem paces_expect (kind : TokenKind) (expectation : String) : Paces b (expect kind expectation) := by
  intro s c hc hn
  refine .of_yields hc hn ((yields_expect hc).mpr ⟨.next c, ?_⟩)
  rw [List.filterMap_append, mistakes_read, List.append_nil]
  split
  · exact .inl rfl
  · exact .inr ⟨_, rfl, rfl⟩

/-- A token is reported and read. -/
theorem paced_report_advance {s : Setting} (hc : c.Open) (hn : c.ahead.Nodup) {m : Mistake} (hm : m.token = s.current c)
    (a : α) : Paced b c ((report m >>= fun _ => advance >>= fun _ => pure a) s c) := by
  refine .of_yields hc hn ?_
  simp only [yields_bind, yields_report, yields_advance hc, yields_pure, List.append_nil]
  refine ⟨.next c, .inr ⟨m, ?_, hm⟩⟩
  rw [List.filterMap_append, mistakes_read]
  rfl

theorem paces_factor (hb : b ≤ 1) {condition : Parser Expr} (h : Paces b condition) : Paces b (factor condition) := by
  have P := reading_paces hb
  intro s c
  refine pacesAt_peek ?_
  split
  · exact P.bind P.advance (fun _ => P.pure _) s c
  · exact P.bind P.advance (fun _ => P.bind (P.accept _) fun _ => closed_ite (P.pure _) <|
      P.bind (P.accept _) fun _ => closed_ite (P.pure _) (P.pure _)) s c
  · exact P.bind P.advance (fun _ => P.pure _) s c
  · exact P.bind P.advance (fun _ => P.bind h fun _ => P.bind (paces_expect _ _) fun _ => P.pure _) s c
  · exact fun hc hn => paced_report_advance hc hn rfl _

theorem replacing_paces (hb : b ≤ 1) : ClosedReplacing (Paces b) where
  toClosedReading := reading_paces hb
  expect := paces_expect
  factor := paces_factor hb

/-! ### Reports before reading -/

/-- The current token may be reported and left. -/
def Leaves (s : Setting) (c : Cursor) (o : Outcome α) : Prop :=
  o.cursor = c ∧ ∃ m, o.mistakes = [m] ∧ m.token = s.current c

theorem Leaves.bounded {s : Setting} (hc : c.Open) (hn : c.ahead.Nodup) (h : Leaves s c o) : Bounded 1 c o := by
  obtain ⟨hcursor, ho⟩ := h
  have honward : Onward c o.cursor := hcursor.symm ▸ .refl c
  rcases citations_of_mistakes hc (.inr ho) with hnil | ⟨t, ht, hone⟩
  · exact (Paced.of_nil honward hnil).toBounded
  · exact .of_one hn honward ht hone fun u _ => hone ▸ List.count_le_length

/-- After something was read, a token may be reported and left. -/
theorem paces_bind_leaves {p : Parser α} {f : α → Parser β} (hp : Paces 0 p)
    (hmoves : ∀ s c, c.Open → Yields p s c fun _ d _ => Advances c d)
    (hf : ∀ a s d, d.Open → d.ahead.Nodup → Paced 1 d (f a s d) ∨ Leaves s d (f a s d)) : Paces 1 (p >>= f) := by
  intro s c hc hn
  obtain ⟨a, d, log, hd, hcd⟩ := yields_iff.mp (hmoves s c hc)
  have hpc := hp s c hc hn
  have hdn : d.ahead.Nodup := hn.sublist hcd.onward.suffix.sublist
  have hrest : Bounded 1 d (f a s d) := (hf a s d (hcd.isOpen hc) hdn).elim Paced.toBounded
    (Leaves.bounded (hcd.isOpen hc) hdn)
  refine ⟨hpc.toBounded.andThen (Nat.zero_le 1) (Nat.le_refl 1) hn hpc.still (fun a' d' log' h => ?_) (.inl rfl), ?_⟩
  · cases hd.symm.trans h
    exact hrest
  · refine .of_advances hc ?_
    change Advances c ((p s c).andThen fun a d => f a s d).cursor
    rw [hd, cursor_andThen]
    exact hcd.trans hrest.onward

/-- After the token `t` was read, it may be reported if nothing else is. -/
def Behind (t : Token) {α : Type} (p : Parser α) : Prop := ∀ s c, c.Open → c.ahead.Nodup →
  Paced 1 c (p s c) ∨ Onward c (p s c).cursor ∧ ∃ m, (p s c).mistakes = [m] ∧ m.token = t

section
variable {t : Token}

theorem Paces.behind {p : Parser α} (hp : Paces 1 p) : Behind t p := fun s c hc hn => .inl (hp s c hc hn)

theorem behind_report {m : Mistake} (hm : m.token = t) (a : α) : Behind t (report m >>= fun _ => pure a) :=
  fun _ c _ _ => .inr ⟨.refl c, m, rfl, hm⟩

/-- Where nothing is found, the token may still be reported. -/
theorem behind_bind {p : Parser α} {f : α → Parser β} (hs : Safe p) (hp : FindsOnly (fun _ => False) p)
    (hf : ∀ a, Behind t (f a)) : Behind t (p >>= f) := by
  intro s c hc hn
  have hnone : (p s c).mistakes = [] := List.eq_nil_iff_forall_not_mem.mpr (hp s c)
  have honward := (hs s c hc).onward
  change Paced 1 c ((p s c).andThen fun a d => f a s d) ∨
    Onward c ((p s c).andThen fun a d => f a s d).cursor ∧
      ∃ m, ((p s c).andThen fun a d => f a s d).mistakes = [m] ∧ m.token = t
  cases hpc : p s c with
  | stopped =>
    rw [hpc] at hnone honward
    exact .inl (.of_nil honward (citations_of_nil hnone))
  | done a d log =>
    rw [hpc] at hnone honward
    rcases hf a s d (honward.isOpen hc) (hn.sublist honward.suffix.sublist) with hfd | ⟨hfd, m, hm, hmt⟩
    · refine .inl ((Paced.of_nil honward (citations_of_nil hnone)).andThen (Nat.le_refl 1) hn fun a' d' log' h => ?_)
      cases h
      exact hfd
    · refine .inr ⟨?_, m, ?_, hmt⟩
      · rw [cursor_andThen]
        exact honward.trans hfd
      · rw [mistakes_andThen, hnone, hm, List.nil_append]

/-- A token that is expected and found may be reported in the end. -/
theorem pacesAt_expect_bind {s : Setting} {kind : TokenKind} {expectation : String} {f : Token → Parser α}
    (hk : (s.current c).kind = kind) (hf : Behind (s.current c) (f (s.current c))) :
    PacesAt 1 s c (expect kind expectation >>= f) := by
  intro hc hn
  have hyields : Yields (expect kind expectation) s c fun a d log =>
      a = s.current c ∧ d = c.next ∧ log.filterMap Event.mistake? = [] :=
    (yields_expect hc).mpr ⟨rfl, rfl, by rw [if_pos hk, List.nil_append, mistakes_read]⟩
  obtain ⟨a, d, log, hd, rfl, rfl, hnone⟩ := yields_iff.mp hyields
  have hnext := Advances.next c
  have hsilent : Paced 1 c (Outcome.done (s.current c) c.next log) := .of_nil hnext.onward (citations_of_nil hnone)
  change Paced 1 c ((expect kind expectation s c).andThen fun a d => f a s d)
  rw [hd]
  rcases hf s c.next (hnext.isOpen hc) (hn.sublist hnext.onward.suffix.sublist) with hfd | ⟨hfd, m, hm, hmt⟩
  · refine hsilent.andThen (Nat.le_refl 1) hn fun a' d' log' h => ?_
    cases h
    exact hfd
  · refine .of_advances hc hn ?_ (.inr ⟨m, ?_, hmt⟩)
    · rw [cursor_andThen]
      exact hnext.trans hfd
    · rw [mistakes_andThen, hm]
      exact congrArg (· ++ [m]) hnone

end

/-! ### Statements without statements in them -/

theorem paces_expectSemicolon (construct : String) (first : Token) : Paces b (expectSemicolon construct first) :=
  paces_of_findsOnly (closed_safe.expectSemicolon _ _) (findsOnly_expectSemicolon rfl)

theorem paces_endDeclaration (name : Token) : Paces b (endDeclaration name) :=
  paces_of_findsOnly (closed_safe.endDeclaration _) (findsOnly_endDeclaration fun _ => rfl)

/-- What is left for want of a name is the token after a type. -/
theorem paces_declaration : Paces 1 declaration := by
  have P := replacing_paces (Nat.le_refl 1)
  refine paces_bind_leaves (replacing_paces (Nat.zero_le 1)).advance
    (fun s c hc => (yields_advance hc).mpr (.next c)) fun typeToken s d hd hn => ?_
  rw [peek_bind_current hd]
  split
  · exact .inl <| P.bind P.advance (fun _ => P.bind P.initializer fun _ => P.bind (paces_endDeclaration _) fun _ =>
      P.pure _) s d hd hn
  · exact .inr ⟨rfl, _, rfl, rfl⟩

/-- What is left for want of a comma is the token after an argument. -/
theorem paces_argument : Paces 1 argument := by
  have P := replacing_paces (Nat.zero_le 1)
  refine paces_bind_leaves P.value (fun s c hc => yields_value c hc) fun value s d hd hn => ?_
  have hyields : Yields (separator >>= fun _ => pure value) s d fun _ e log =>
      Onward d e ∧ log.filterMap Event.mistake? = [] ∨
        e = d ∧ ∃ m, log.filterMap Event.mistake? = [m] ∧ m.token = s.current d := by
    unfold separator
    simp only [yields_bind, yields_accept hd]
    split
    · exact .inl ⟨.next d, by simp only [List.append_nil, mistakes_read]⟩
    · simp only [Bool.false_eq_true, ↓reduceIte, yields_bind, yields_peek hd, yields_ite, yields_report, yields_pure,
        true_and]
      split
      · exact .inr ⟨_, rfl, rfl⟩
      · exact .inl ⟨.refl d, rfl⟩
  obtain ⟨a, e, log, he, hlog⟩ := yields_iff.mp hyields
  rw [he]
  exact hlog.imp (fun ⟨honward, hnone⟩ => .of_nil honward (citations_of_nil hnone)) id

theorem paces_methodCall : Paces 1 methodCall := by
  have P := replacing_paces (Nat.le_refl 1)
  exact P.bind P.peek fun _ => P.bind P.dottedName fun _ => P.bind (P.expect _ _) fun _ =>
    P.bind (P.repeatWhile paces_argument) fun _ => P.bind (P.expect _ _) fun _ =>
      P.bind (paces_expectSemicolon _ _) fun _ => P.pure _

/-- An assignment begins with a name, so the name is reported only if nothing is done with it. -/
theorem pacesAt_assignment {s : Setting} (hk : (s.current c).kind = .identifier) : PacesAt 1 s c assignment := by
  have P := replacing_paces (Nat.le_refl 1)
  have step : ∀ {α : Type} {t : Token} {kind : TokenKind} {f : Bool → Parser α}, (∀ found, Behind t (f found)) →
      Behind t (accept kind >>= f) :=
    fun hf => behind_bind (closed_safe.accept _) (reading_findsOnly.accept _) hf
  have done : ∀ {t : Token} {construct : String} {first : Token} {st : Option Stmt},
      Behind t (expectSemicolon construct first >>= fun _ => pure st) :=
    (P.bind (paces_expectSemicolon _ _) fun _ => P.pure _).behind
  refine pacesAt_expect_bind hk <| step fun _ => closed_ite ?_ <| step fun _ => closed_ite done <|
    step fun _ => closed_ite done <| behind_report rfl _
  exact (P.bind P.value fun _ => P.bind (paces_expectSemicolon _ _) fun _ => P.pure _).behind

/-! ### Statements with statements in them -/

section
variable {statement : Parser (Option Stmt)} (h : Paces 1 statement)
include h

theorem paces_afterModifiers (modifiers : List Token) : Paces 1 (afterModifiers statement modifiers) := by
  have P := replacing_paces (Nat.le_refl 1)
  intro s c
  refine pacesAt_peek ?_
  split
  · exact P.map (P.classDecl h modifiers) s c
  split
  · exact P.bind (paces_of_findsOnly (closed_safe.isLikelyMethod _ _) (findsOnly_isLikelyMethod _ _)) (fun _ =>
      closed_ite (P.map (P.methodDecl h modifiers)) paces_declaration) s c
  split
  · exact P.map (P.whileLoop h) s c
  split
  · exact P.map (P.ifElse h) s c
  split
  · next hk =>
    intro hc
    refine pacesAt_bind (Nat.le_refl 1)
      (paces_of_findsOnly closed_safe.isMethodCall findsOnly_isMethodCall s c) (fun a d log hd => ?_) hc
    obtain ⟨a', d', log', hd', hahead⟩ := yields_iff.mp (yields_isMethodCall (s := s) c hc)
    cases hd.symm.trans hd'
    have hcurrent : (s.current d).kind = .identifier := by
      rw [Setting.current, hahead]
      exact beq_iff_eq.mp hk
    split
    · exact P.map paces_methodCall s d
    · exact pacesAt_assignment hcurrent
  split
  · exact P.map (P.block h) s c
  · exact fun hc hn => paced_report_advance hc hn rfl _

theorem paces_statementRule : Paces 1 (statementRule statement) := by
  have P := replacing_paces (Nat.le_refl 1)
  exact P.bind (paces_of_findsOnly safe_begin findsOnly_begin) fun _ => P.bind (P.repeatWhile P.advance) fun _ =>
    paces_afterModifiers h _

end

theorem paces_statement : Paces 1 statement := (reading_paces (Nat.le_refl 1)).fix fun _ => paces_statementRule

/-- Whatever a parse comes to, also if it is interrupted. -/
theorem paces_program : Paces 1 program := by
  have P := replacing_paces (Nat.le_refl 1)
  exact P.bind (paces_of_findsOnly safe_beginProgram findsOnly_beginProgram) fun _ =>
    P.bind (P.repeatWhile paces_statement) fun _ => P.pure _

end Parser
end Curly
