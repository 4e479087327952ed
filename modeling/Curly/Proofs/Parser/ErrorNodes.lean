import Curly.Proofs.Parser.Gathering
import Curly.Proofs.Parser.Totality
import Mathlib.Data.List.Forall2

/-! The nodes of a tree that stand for expressions which could not be read. There is one for each such expression that was
    reported, in the same order and on the same line, whatever else is wrong around it. Main statement:
    `parse_errorNodes`. -/

namespace Curly

/-- The line of a node that stands for an expression that could not be read. -/
def Tree.errorLine? (t : Tree) : Option Int := if t.kind = .error then some t.line else none

/-- The line of an expression that was reported. -/
def Mistake.expressionLine? (m : Mistake) : Option Int := if m.code = "P004" then some m.token.line else none

/-- The lines of the expressions that are reported in a log. -/
def expressionLines (log : List Event) : List Int := (log.filterMap Event.mistake?).filterMap Mistake.expressionLine?

namespace Parser

theorem additive_expressionLines : Additive fun _ lines _ log => lines = expressionLines log where
  trans h h' := by
    rw [h, h', expressionLines, expressionLines, expressionLines, List.filterMap_append, List.filterMap_append]
  plain {_ p s c d a log} hp _ h := by
    have hvalid := hp.valid s c
    rw [h] at hvalid
    exact (List.filterMap_eq_nil_iff.mpr fun m hm => if_neg (hvalid m hm)).symm

/-- An expression that is reported is read as an error on the same line. -/
theorem gathers_factor_lines {s : Setting} {condition : Parser Expr}
    (h : ∀ c, Gathers (fun _ lines _ log => lines = expressionLines log) s c [] condition (Expr.gather Tree.errorLine?))
    (c : Cursor) : Gathers (fun _ lines _ log => lines = expressionLines log) s c [] (factor condition)
      (Expr.gather Tree.errorLine?) := by
  have G := additive_expressionLines
  unfold factor
  refine G.plain_bind reading_plain.peek fun t c => ?_
  split
  · exact G.plain_bind reading_plain.advance fun _ _ => gathers_pure rfl
  · exact G.plain_bind reading_plain.advance fun _ _ => G.plain_bind (reading_plain.accept _) fun _ _ =>
      gathers_ite (gathers_pure rfl) <| G.plain_bind (reading_plain.accept _) fun _ _ =>
      gathers_ite (gathers_pure rfl) (gathers_pure rfl)
  · exact G.plain_bind reading_plain.advance fun _ _ => gathers_pure rfl
  · exact G.plain_bind reading_plain.advance fun _ d => G.bind (h d) fun _ _ =>
      G.plain_bind (plain_expect _ _) fun _ _ => gathers_pure rfl
  · intro hc
    have hreport : report (.invalidExpression t) s c = .done () c [.found (.invalidExpression t)] := rfl
    have hline : [t.line] = expressionLines [.found (.invalidExpression t)] := rfl
    exact G.after hreport hc hline (G.plain_bind reading_plain.advance fun _ _ => gathers_pure rfl) hc

theorem gathering_expressionLines : Gathering Tree.errorLine? fun _ lines _ log => lines = expressionLines log where
  toAdditive := additive_expressionLines
  operands kind value line children hk := if_neg fun h => hk (by simp_all [Tree.kind, NodeKind.operands])
  factor := gathers_factor_lines

end Parser

theorem lines_errors (t : Tree) :
    (t.preorder.filter (·.kind = .error)).map Tree.line = t.gather Tree.errorLine? := by
  rw [← List.filterMap_eq_map, List.filterMap_filter, Tree.gather]
  simp only [decide_eq_true_eq]
  rfl

theorem lines_diagnostics (ms : List Mistake) :
    ((ms.map Mistake.toDiagnostic).filter (·.code = some "P004")).map (·.location.line) =
      ms.filterMap Mistake.expressionLine? := by
  rw [← List.filterMap_eq_map, List.filterMap_filter, List.filterMap_map]
  simp only [Function.comp_def, decide_eq_true_eq, Mistake.toDiagnostic, Option.some.injEq]
  rfl

/-- The nodes of a tree that stand for expressions which could not be read, in preorder, correspond one by one to the
    diagnostics that no expression begins at a token, in the order of the report; and each node has the line of its
    diagnostic. -/
theorem parse_errorNodes (tokens : List Token) :
    ∃ root, (Report.ofTokens tokens none).root = some root ∧
      List.Forall₂ (fun node d => node.line = d.location.line) (root.preorder.filter (·.kind = .error))
        ((Report.ofTokens tokens none).errors.filter (·.code = some "P004")) := by
  have hopen := open_ofTokens tokens
  obtain ⟨p, d, log, hp, -⟩ := Parser.yields_iff.mp <|
    Parser.yields_program (s := .ofTokens tokens none) rfl _ hopen
  obtain ⟨-, hlines⟩ := Parser.gathering_expressionLines.program _ hopen (.ofTokens tokens) [] rfl p d log hp
  have herrors : (Report.ofTokens tokens none).errors = (log.filterMap Event.mistake?).map Mistake.toDiagnostic := by
    simp [Report.ofTokens, Report.ofOutcome, Report.errors, Report.mistakes, Report.fatal, hp, Outcome.log]
  refine ⟨p.toTree, by simp [Report.ofTokens, Report.ofOutcome, Report.root, hp, Except.toOption], ?_⟩
  have hsame : (p.toTree.preorder.filter (·.kind = .error)).map Tree.line =
      ((Report.ofTokens tokens none).errors.filter (·.code = some "P004")).map (·.location.line) := by
    rw [lines_errors, herrors, lines_diagnostics]
    exact hlines
  rw [← List.forall₂_eq_eq_eq] at hsame
  simpa only [List.forall₂_map_left_iff, List.forall₂_map_right_iff] using hsame

/-- Two arguments cannot be read, the second one in parentheses on the next line. -/
example : let r := (Source.mk "x" "f(+,\n(*));").parse none
    (r.root.map fun t => (t.preorder.filter (·.kind = .error)).map Tree.line) = some [1, 2] ∧
      r.errors.map (fun d => (d.code, d.location.line)) = [(some "P004", 1), (some "P004", 2)] := by
  decide +kernel

end Curly
