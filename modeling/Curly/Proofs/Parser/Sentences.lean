import Curly.Proofs.Parser.Soundness
import Curly.Proofs.Parser.Totality
import Curly.Proofs.Syntax.FinalComma

/-! Where parsing reports nothing, the tokens are a program of the grammar, but for one thing: the arguments of a call may
    end in a comma, which the grammar has no place for. Main statement: `program_of_diagnostics_nil`. -/

namespace Curly

variable {tokens : List Token} {interruption : Option Interruption}

/-- The added end of the input is not among the tokens before the first end. -/
theorem takeWhile_close (tokens : List Token) :
    (Token.close tokens).takeWhile (·.kind != .eof) = tokens.takeWhile (·.kind != .eof) := by
  unfold Token.close
  split
  · rfl
  · rw [List.takeWhile_append]
    split
    · next hall =>
      rw [List.takeWhile_cons_of_neg (by simp [Token.addedEnd]), List.append_nil]
      exact ((List.takeWhile_prefix _).eq_of_length hall).symm
    · rfl

/-- Behind the tokens before the first end of the input stands an end of the input. -/
theorem close_eq (tokens : List Token) : ∃ stop rest, stop.kind = .eof ∧
    Token.close tokens = tokens.takeWhile (·.kind != .eof) ++ stop :: rest := by
  obtain ⟨stop, rest, hstop⟩ := List.exists_cons_of_ne_nil (open_ofTokens tokens)
  have hdrop : (Token.close tokens).dropWhile (·.kind != .eof) = stop :: rest := hstop
  refine ⟨stop, rest, ?_, ?_⟩
  · have hne : (Token.close tokens).dropWhile (·.kind != .eof) ≠ [] := by simp [hdrop]
    have hhead := List.head_dropWhile_not _ hne
    simpa [hdrop] using hhead
  · rw [← takeWhile_close, ← hdrop, List.takeWhile_append_dropWhile]

/-- Nothing is reported only if the parse comes to a program without mistakes. -/
theorem accepts_of_diagnostics_nil (h : (Report.ofTokens tokens interruption).diagnostics = []) :
    ∃ p d, Parser.Accepts (.ofTokens tokens interruption) Parser.program (.ofTokens tokens) p d := by
  obtain ⟨hmistakes, hfatal⟩ := List.append_eq_nil_iff.mp (List.map_eq_nil_iff.mp h)
  have hlog : (Parser.program (.ofTokens tokens interruption) (.ofTokens tokens)).log.filterMap Event.mistake? = [] :=
    List.map_eq_nil_iff.mp hmistakes
  cases ho : Parser.program (.ofTokens tokens interruption) (.ofTokens tokens) with
  | stopped stop c log => simp [Report.fatal, Report.ofTokens, Report.ofOutcome, ho] at hfatal
  | done p d log =>
    rw [ho] at hlog
    exact ⟨p, d, log, ho, flawless_iff.mpr hlog⟩

/-- The tokens that are taken are those before the first end of the input. -/
theorem reads_of_accepts {p : Program} {d : Cursor}
    (ha : Parser.Accepts (.ofTokens tokens interruption) Parser.program (.ofTokens tokens) p d) :
    ReadsProgram (tokens.takeWhile (·.kind != .eof)) p := by
  obtain ⟨ts, hts, hread, t, rest, hd, ht⟩ := Parser.sound_program ha
  obtain ⟨log, ho, -⟩ := ha
  have hsafe := Parser.safe_program (.ofTokens tokens interruption) _ (open_ofTokens tokens)
  rw [ho] at hsafe
  have hstop : (Cursor.ofTokens tokens).stop = d.ahead := by
    rw [← hsafe.onward.stop, Cursor.stop, Outcome.cursor, hd, List.dropWhile_cons_of_neg (by simp [ht])]
  have hclose : (Token.close tokens).takeWhile (·.kind != .eof) ++ d.ahead = ts ++ d.ahead := by
    rw [← hstop, Cursor.stop, Cursor.ofTokens, List.takeWhile_append_dropWhile]
    exact hts.trans (congrArg (ts ++ ·) hstop.symm)
  rw [← takeWhile_close, List.append_cancel_right hclose]
  exact hread

/-- If a parse reports nothing, then the tokens before the first end of the input are a program of the grammar in which
    arguments may end in a comma; and they are a program of the grammar in which they may not if no comma ends arguments,
    and only then. -/
theorem program_of_diagnostics_nil (tokens : List Token) (interruption : Option Interruption)
    (h : (Report.ofTokens tokens interruption).diagnostics = []) :
    let kinds := (tokens.takeWhile (·.kind != .eof)).map Token.kind
    Grammar.Program true kinds ∧ (Grammar.Program false kinds ↔ Grammar.NoFinalComma kinds) := by
  obtain ⟨p, d, ha⟩ := accepts_of_diagnostics_nil h
  have hlenient := (reads_of_accepts ha).matches
  exact ⟨hlenient, Grammar.program_strict_iff hlenient⟩

/-- Nothing is reported of `f(a,);`, in which a comma ends the arguments: it is no program of the grammar. -/
theorem program_of_diagnostics_nil_comma :
    let tokens := (Source.mk "x" "f(a,);").tokens
    let kinds := (tokens.takeWhile (·.kind != .eof)).map Token.kind
    (Report.ofTokens tokens none).diagnostics = [] ∧ Grammar.Program true kinds ∧ ¬Grammar.Program false kinds := by
  intro tokens kinds
  have hnil : (Report.ofTokens tokens none).diagnostics = [] := by decide +kernel
  have hcomma : ¬Grammar.NoFinalComma kinds := by decide +kernel
  obtain ⟨hlenient, hstrict⟩ := program_of_diagnostics_nil tokens none hnil
  exact ⟨hnil, hlenient, fun h => hcomma (hstrict.mp h)⟩

end Curly
