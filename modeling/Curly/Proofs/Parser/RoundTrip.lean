import Curly.Parser.Report
import Curly.Proofs.Parser.Completeness
import Curly.Proofs.Syntax.Unparse

/-! Parsing undoes unparsing, however the words of a program are laid out. Main statement: `parse_unparse`. -/

namespace Curly

/-! ### Blanks between words -/

/-- No word goes on with a blank. -/
theorem joins_space (word : List Char) : joins word ' ' = false := by
  have hpair : ∀ c, TokenKind.ofPair? c ' ' = none := by
    intro c
    have hall : ∀ x ∈ TokenKind.pairOperators, x.1.2 ≠ ' ' := by decide
    cases h : TokenKind.ofPair? c ' ' with
    | none => rfl
    | some kind => exact absurd rfl (hall _ (TokenKind.mem_of_lookup h))
  unfold joins
  split
  · rfl
  · simp [hpair, show Char.isDigit ' ' = false by decide, show Lexeme.isWordPart ' ' = false by decide]

theorem layout_space {words : List String} {text : List Char} (h : Layout words text) : Layout words (' ' :: text) := by
  cases h with
  | done hg => exact .done (.blank rfl hg)
  | word hg hj h => exact .word (.blank rfl hg) hj h

/-- Words with a blank between any two are a layout of these words. -/
theorem layout_intercalate (words : List String) : Layout words (" ".intercalate words).toList := by
  induction words with
  | nil => exact .done .nil
  | cons word words ih =>
    cases words with
    | nil =>
      have h : Layout [word] ([] ++ (word.toList ++ [])) := .word .nil (fun d hd => by cases hd) (.done .nil)
      simpa using h
    | cons next words =>
      have h : Layout (word :: next :: words)
          ([] ++ (word.toList ++ (' ' :: (" ".intercalate (next :: words)).toList))) := by
        refine .word .nil (fun d hd => ?_) (layout_space ih)
        cases hd
        exact joins_space _
      rw [String.intercalate_cons_cons, String.toList_append, String.toList_append, List.append_assoc]
      exact h

/-! ### Parsing -/

/-- The parse of the tokens of a program, with an end of the input after them, comes to that program. -/
theorem report_of_reads {ts : List Token} {stop : Token} {p : Program} (h : ReadsProgram ts p)
    (hstop : stop.kind = .eof) : (Report.ofTokens (ts ++ [stop]) none).diagnostics = [] ∧
      (Report.ofTokens (ts ++ [stop]) none).root = some p.toTree := by
  have hclose : Token.close (ts ++ [stop]) = ts ++ [stop] := by simp [Token.close, hstop]
  have hstart : Cursor.ofTokens (ts ++ [stop]) = ⟨ts ++ [stop], 0⟩ := by rw [Cursor.ofTokens, hclose]
  have hnone : (Setting.ofTokens (ts ++ [stop]) none).interruption = none := rfl
  rcases Parser.accepts_program hnone h hstop with ⟨m, log, hdone, hlog⟩
  rw [← hstart] at hdone
  have hmistakes : log.filterMap Event.mistake? = [] := flawless_iff.mp hlog
  constructor
  · simp [Report.diagnostics, Report.errors, Report.mistakes, Report.fatal, Report.ofTokens, Report.ofOutcome, hdone,
      Outcome.log, hmistakes]
  · simp [Report.root, Report.ofTokens, Report.ofOutcome, hdone, Except.toOption]

/-- A program is written as a layout of its words; and whatever text is laid out from its words, the tokens of that text
    are cut without a warning, parsing them reports nothing, and the tree is that of the program, up to its lines. -/
theorem parse_unparse (p : Program) (file : String) (hp : p.isSource) :
    Layout p.words p.unparse.toList ∧ ∀ text : String, Layout p.words text.toList →
      let source : Source := ⟨file, text⟩
      source.scan.warnings = [] ∧ (source.parse none).diagnostics = [] ∧
        (source.parse none).root.map Tree.unlined = some p.toTree.unlined := by
  refine ⟨layout_intercalate p.words, fun text h => ?_⟩
  rcases tokens_of_layout (s := ⟨file, text⟩) h (allWords_body p hp) with ⟨ts, stop, htokens, hstop, hts, hwarnings⟩
  rcases reads_program hp hts with ⟨p', hread, htree⟩
  rcases report_of_reads hread hstop with ⟨hdiagnostics, hroot⟩
  have hparse : Source.parse ⟨file, text⟩ none = Report.ofTokens (ts ++ [stop]) none := by rw [Source.parse, htokens]
  simp only [hparse]
  refine ⟨hwarnings, hdiagnostics, ?_⟩
  rw [hroot, Option.map_some, htree]

/-- Parentheses, operators of both levels, a string with a quote and a backslash, and an `else` of the outer of two
    conditionals are all read back. -/
theorem parse_unparse_nested :
    let p : Program := [.classDecl "A" [⟨"public", 0⟩] [.methodDecl "m" ⟨"void", 0⟩ [⟨"static", 0⟩] [
      .declaration "int" "i" (some (.binary "*" (.binary "+" (.number "1" 0) (.postIncrement "j" 0))
        (.comparison "<" (.identifier "a" 0) (.number "2" 0)))) 0,
      .ifElse (.comparison "<=" (.identifier "i" 0) (.binary "-" (.number "3" 0) (.binary "-" (.number "2" 0)
        (.number "1" 0)))) (some (.block [.ifElse (.identifier "b" 0) (some (.increment "i" 0)) none 0] 0))
        (some (.methodCall "a.b" [.string "\"\\" 0, .number "0" 0] 0)) 0] 0] 0]
    let text := "public class A \x7b static void m ( ) \x7b int i = ( 1 + j ++ ) * ( a < 2 ) ; " ++
      "if ( i <= 3 - ( 2 - 1 ) ) \x7b if ( b ) i ++ ; \x7d else a . b ( \"\\\"\\\\\" , 0 ) ; \x7d \x7d"
    p.isSource ∧ p.unparse = text ∧ ((Source.mk "x" text).parse none).diagnostics = [] ∧
      ((Source.mk "x" text).parse none).root.map Tree.unlined = some p.toTree.unlined := by
  intro p text
  have hp : p.isSource := by decide +kernel
  have htext : p.unparse = text := by decide +kernel
  have h := parse_unparse p "x" hp
  exact ⟨hp, htext, (h.2 text (htext ▸ h.1)).2⟩

end Curly
