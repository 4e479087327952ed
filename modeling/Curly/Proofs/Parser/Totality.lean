import Curly.Proofs.Parser.Progress
import Curly.Proofs.Syntax.Growth

/-! Parsing comes to a program whatever the tokens are: it never asks for a token where there is none, never goes round
    without reading, never passes the first end of the input, and ends there; the tree of the program can be grown.
    Places are given by indices into the tokens. Main statement: `parse_total`. -/

namespace Curly

/-- The index of the first end of the input. -/
def Token.endIndex (tokens : List Token) : Nat := (close tokens).findIdx (·.kind == .eof)

/-- The index at which so many tokens are ahead. -/
def Token.indexOf (tokens : List Token) (ahead : Nat) : Nat := (close tokens).length - ahead

/-- The index of the current token. -/
def Cursor.index (tokens : List Token) (c : Cursor) : Nat := Token.indexOf tokens c.ahead.length

/-- The places that an entry of the log tells of, before and after it, by the number of tokens ahead. -/
def Event.places : Event → List Nat
  | .began ahead => [ahead]
  | .read ahead => [ahead, ahead - 1]
  | .found _ => []
  | .resumed ahead skipped => [ahead, ahead - skipped]

section
variable {tokens : List Token} {c d : Cursor}

theorem any_close (tokens : List Token) : ∃ t ∈ Token.close tokens, t.kind = .eof := by
  unfold Token.close
  split
  · next h =>
    obtain ⟨t, ht, hk⟩ := Option.map_eq_some_iff.mp h
    exact ⟨t, List.mem_of_getLast? ht, hk⟩
  · exact ⟨.addedEnd tokens, by simp, rfl⟩

theorem endIndex_lt (tokens : List Token) : Token.endIndex tokens < (Token.close tokens).length := by
  obtain ⟨t, ht, hk⟩ := any_close tokens
  exact List.findIdx_lt_length_of_exists ⟨t, ht, by simp [hk]⟩

theorem stop_ofTokens (tokens : List Token) :
    (Cursor.ofTokens tokens).stop = (Token.close tokens).drop (Token.endIndex tokens) := by
  show (Token.close tokens).dropWhile (·.kind != .eof) = _
  rw [List.dropWhile_eq_drop_findIdx_not, Token.endIndex]
  simp only [bne, Bool.not_not]

theorem open_ofTokens (tokens : List Token) : (Cursor.ofTokens tokens).Open := by
  rw [Cursor.Open, stop_ofTokens, Ne, List.drop_eq_nil_iff, Nat.not_le]
  exact endIndex_lt tokens

/-- A parse that nobody interrupts comes to a program at an end of the input, and its tree is what is reported. -/
theorem exists_program (tokens : List Token) : ∃ p d log,
    Parser.program (.ofTokens tokens none) (.ofTokens tokens) = .done p d log ∧ Onward (.ofTokens tokens) d ∧
      ((Setting.ofTokens tokens none).current d).kind = .eof ∧
      (Report.ofTokens tokens none).root = some p.toTree ∧ (Report.ofTokens tokens none).fatal = none := by
  obtain ⟨p, d, log, hp, hd, hend⟩ := Parser.yields_iff.mp <|
    Parser.yields_program (s := .ofTokens tokens none) rfl _ (open_ofTokens tokens)
  refine ⟨p, d, log, hp, hd, hend, ?_, ?_⟩
  · simp [Report.ofTokens, Report.ofOutcome, Report.root, hp, Except.toOption]
  · simp [Report.ofTokens, Report.ofOutcome, Report.fatal, hp]

/-- Where the first end of the input is ahead, the index of the current token does not lie beyond it. -/
theorem indexOf_le {ahead : Nat} (h : (Cursor.ofTokens tokens).stop.length ≤ ahead) :
    Token.indexOf tokens ahead ≤ Token.endIndex tokens := by
  rw [stop_ofTokens, List.length_drop] at h
  unfold Token.indexOf
  omega

theorem index_le (h : Onward (.ofTokens tokens) c) : c.index tokens ≤ Token.endIndex tokens :=
  indexOf_le (h.stop ▸ c.length_stop_le)

/-- A parse from the first token stays between that and the first end of the input. -/
theorem places_le {e : Event} (h : e.Between (.ofTokens tokens)) {ahead : Nat} (ha : ahead ∈ e.places) :
    Token.indexOf tokens ahead ≤ Token.endIndex tokens := by
  refine indexOf_le ?_
  cases e <;> simp only [Event.places, List.mem_cons, List.not_mem_nil, or_false] at ha <;>
    simp only [Event.Between] at h <;> omega

/-- The parse ends at the first end of the input, if the current token is one. -/
theorem index_eq {s : Setting} (h : Onward (.ofTokens tokens) c) (hc : (s.current c).kind = .eof) :
    c.index tokens = Token.endIndex tokens := by
  obtain ⟨ahead, n⟩ := c
  obtain ⟨t, rest, rfl⟩ := (h.isOpen (open_ofTokens tokens)).ahead
  have hstop : Cursor.stop ⟨t :: rest, n⟩ = t :: rest := by
    have ht : t.kind = .eof := hc
    simp [Cursor.stop, ht]
  have hlen := congrArg List.length (hstop.symm.trans h.stop)
  have hlt := endIndex_lt tokens
  rw [stop_ofTokens, List.length_drop] at hlen
  simp only [Cursor.index, Token.indexOf]
  omega

/-- A cursor in front of the first end of the input can be reached from the first token. -/
theorem onward_ofTokens (hc : c.ahead <:+ Token.close tokens) (hlt : c.index tokens < Token.endIndex tokens) :
    Onward (.ofTokens tokens) c := by
  obtain ⟨before, hbefore⟩ := hc
  have hlen : before.length = c.index tokens := by
    rw [Cursor.index, Token.indexOf, ← hbefore, List.length_append]
    omega
  have htake : (Cursor.ofTokens tokens).ahead.takeWhile (·.kind != .eof) =
      (Token.close tokens).take (Token.endIndex tokens) := by
    rw [List.takeWhile_eq_take_findIdx_not, Token.endIndex]
    simp only [bne, Bool.not_not, Cursor.ofTokens]
  have hskip : Onward (.ofTokens tokens) ((Cursor.ofTokens tokens).skip before.length) := by
    refine .skip _ ?_
    rw [htake, List.length_take]
    have := endIndex_lt tokens
    omega
  refine hskip.trans (.of_ahead ?_)
  show c.ahead = (Token.close tokens).drop before.length
  rw [← hbefore, List.drop_left]

/-- A cursor that does not lie beyond the first end of the input has it ahead. -/
theorem open_of_index_le (hc : c.ahead <:+ Token.close tokens) (hle : c.index tokens ≤ Token.endIndex tokens) :
    c.Open := by
  obtain ⟨before, hbefore⟩ := hc
  have hlt := endIndex_lt tokens
  have hkind : (Token.close tokens)[Token.endIndex tokens].kind = .eof := beq_iff_eq.mp (List.findIdx_getElem (w := hlt))
  have hlen : before.length ≤ Token.endIndex tokens := by
    rw [Cursor.index, Token.indexOf, ← hbefore, List.length_append] at hle
    omega
  have hmem : (Token.close tokens)[Token.endIndex tokens] ∈ c.ahead := by
    simp only [← hbefore, List.getElem_append_right hlen, List.getElem_mem]
  intro hstop
  have hne := List.dropWhile_eq_nil_iff.mp hstop _ hmem
  simp [hkind] at hne

/-- A statement that begins in front of the first end of the input is read, and not past it. -/
theorem statement_total (hc : c.ahead <:+ Token.close tokens) (hlt : c.index tokens < Token.endIndex tokens) :
    ∃ s d log, Parser.statement (.ofTokens tokens none) c = .done s d log ∧ c.index tokens < d.index tokens ∧
      d.index tokens ≤ Token.endIndex tokens := by
  have ho := onward_ofTokens hc hlt
  obtain ⟨s, d, log, hp, hd⟩ := Parser.yields_iff.mp <|
    Parser.yields_statement (s := .ofTokens tokens none) rfl c (ho.isOpen (open_ofTokens tokens))
  refine ⟨s, d, log, hp, ?_, index_le (ho.trans hd.onward)⟩
  have hle := hc.length_le
  have hend := endIndex_lt tokens
  have hstop : c.stop.length = (Token.close tokens).length - Token.endIndex tokens := by
    rw [ho.stop, stop_ofTokens, List.length_drop]
  simp only [Cursor.index, Token.indexOf] at hlt ⊢
  have := hd.moves (by omega)
  omega

end

/-- Parsing is total. Whatever the tokens are, a parse that nobody interrupts comes to a program, and to its tree, which
    can be grown; at the end it stands at the first end of the input, and it was never beyond that; and every statement
    that begins in front of it reads at least one token. -/
theorem parse_total (tokens : List Token) :
    (∃ p d log, Parser.program (.ofTokens tokens none) (.ofTokens tokens) = .done p d log ∧
      d.index tokens = Token.endIndex tokens ∧
      (∀ e ∈ log, ∀ ahead ∈ e.places, Token.indexOf tokens ahead ≤ Token.endIndex tokens) ∧
      (∃ h f, Program.grow p .empty = .ok (h, f) ∧ f.tree? h = some p.toTree) ∧
      (Report.ofTokens tokens none).root = some p.toTree ∧ (Report.ofTokens tokens none).fatal = none) ∧
    ∀ c : Cursor, c.ahead <:+ Token.close tokens → c.index tokens < Token.endIndex tokens →
      ∃ s d log, Parser.statement (.ofTokens tokens none) c = .done s d log ∧ c.index tokens < d.index tokens ∧
        d.index tokens ≤ Token.endIndex tokens := by
  have hopen := open_ofTokens tokens
  refine ⟨?_, fun c hc hlt => statement_total hc hlt⟩
  obtain ⟨p, d, log, hp, hd, hk⟩ := Parser.yields_iff.mp <|
    Parser.yields_program (s := .ofTokens tokens none) rfl _ hopen
  have hsafe := Parser.safe_program (.ofTokens tokens none) _ hopen
  rw [hp] at hsafe
  refine ⟨p, d, log, hp, index_eq hd hk, fun e he ahead ha => places_le (hsafe.events e he) ha, grow_program p, ?_, ?_⟩
  · simp [Report.ofTokens, Report.ofOutcome, Report.root, hp, Except.toOption]
  · simp [Report.ofTokens, Report.ofOutcome, Report.fatal, hp]

/-- Between two names stands an end of the input: the first statement reads one token and does not pass that end. -/
theorem parse_total_name_end_name :
    let name : Token := ⟨.identifier, "x", "x", ⟨"x", 1, 1, 0⟩⟩
    let tokens := [name, ⟨.eof, "", "", ⟨"x", 1, 2, 1⟩⟩, name]
    (Cursor.ofTokens tokens).ahead <:+ Token.close tokens ∧ (Cursor.ofTokens tokens).index tokens < 1 ∧
      ∃ s d log, Parser.statement (.ofTokens tokens none) (.ofTokens tokens) = .done s d log ∧
        0 < d.index tokens ∧ d.index tokens ≤ 1 := by
  intro name tokens
  have hsuffix : (Cursor.ofTokens tokens).ahead <:+ Token.close tokens := List.suffix_refl _
  have hlt : (Cursor.ofTokens tokens).index tokens < Token.endIndex tokens := by decide
  exact ⟨hsuffix, by decide, (parse_total tokens).2 (.ofTokens tokens) hsuffix hlt⟩

end Curly
