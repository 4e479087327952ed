import Curly.Proofs.Parser.Items
import Curly.Proofs.Parser.Sentences
import Curly.Proofs.Syntax.Inventory
import Curly.Proofs.Token.Spelling

/-! Parsing conserves what it reads. No item gets into the tree that was not read, none twice and none out of order; and
    where nothing is reported, none is lost but those among the parameters of methods. Main statement:
    `parse_conserves`. -/

namespace Curly

theorem outside_sublist (zone : Zone) (ts : List Token) : (zone.outside ts).Sublist ts := by
  induction ts generalizing zone with
  | nil => cases zone <;> exact .refl _
  | cons t ts ih =>
    cases zone with
    | parameters depth => exact (ih _).cons t
    | elsewhere | afterType | afterName => exact (ih _).cons_cons t

/-- A parse from the first token to an end of the input takes the tokens before the first end. -/
theorem Taken.of_end {tokens : List Token} {items : List Item} {d : Cursor} {s : Setting}
    (h : Taken (.ofTokens tokens) items d) (hd : d.Open) (hend : (s.current d).kind = .eof) :
    items.Sublist ((tokens.takeWhile (·.kind != .eof)).filterMap Token.item?) := by
  obtain ⟨ts, hts, hne, hitems⟩ := h
  obtain ⟨t, rest, ht⟩ := hd.ahead
  rw [Setting.current, ht] at hend
  have hclose : Token.close tokens = ts ++ t :: rest := hts.trans (congrArg (ts ++ ·) ht)
  have hstop : (t.kind != .eof) = false := by simpa using hend
  rw [← takeWhile_close, hclose, List.takeWhile_append_of_pos (by simpa using hne),
    List.takeWhile_cons_of_neg (by simp [hstop]), List.append_nil]
  exact hitems

/-- A program that was parsed has items that were read before the first end of the input. -/
theorem items_sublist (tokens : List Token) : ∃ root, (Report.ofTokens tokens none).root = some root ∧
    root.items.Sublist ((tokens.takeWhile (·.kind != .eof)).filterMap Token.item?) := by
  have hopen := open_ofTokens tokens
  obtain ⟨p, d, log, hp, hd, hend, hroot, -⟩ := exists_program tokens
  exact ⟨p.toTree, hroot, (Parser.taken_program hopen hp).of_end (hd.isOpen hopen) hend⟩

/-- The leaves of the expressions in a tree are items that were read before the first end of the input, each at most once
    and in their order. If nothing is reported, then every node is made of tokens of its own, again in their order, and
    all items outside the parameters of methods are among them; what they are can be told from the texts of the nodes, if
    blanks and dots stand only where they should. -/
theorem parse_conserves (tokens : List Token) :
    let before := tokens.takeWhile (·.kind != .eof)
    ∃ root, (Report.ofTokens tokens none).root = some root ∧ root.items.Sublist (before.filterMap Token.item?) ∧
      ((Report.ofTokens tokens none).diagnostics = [] →
        (∃ groups, List.Forall₂ Tree.MadeOf root.preorder groups ∧
          KeepsItems groups.flatten (Token.outsideParameters before)) ∧
        ((∀ t ∈ before, t.Divisible) →
          root.preorder.flatMap Tree.segments = (Token.outsideParameters before).filterMap Token.segment?)) := by
  intro before
  obtain ⟨root, hroot, hitems⟩ := items_sublist tokens
  refine ⟨root, hroot, hitems, fun hnil => ?_⟩
  obtain ⟨p, d, ha⟩ := accepts_of_diagnostics_nil hnil
  obtain ⟨groups, hnodes, hkeeps⟩ := (reads_of_accepts ha).inventory
  have hp : root = p.toTree := by
    obtain ⟨log, hdone, -⟩ := ha
    simpa [Report.ofTokens, Report.ofOutcome, Report.root, hdone, Except.toOption] using hroot.symm
  rw [hp]
  refine ⟨⟨groups, hnodes, hkeeps⟩, fun hdivisible => ?_⟩
  have hgroups : ∀ t ∈ groups.flatten, t.Divisible := fun t ht =>
    hdivisible t ((hkeeps.1.trans (outside_sublist _ _)).subset ht)
  rw [segments_eq hnodes hgroups, hkeeps.filterMap_segment?]

/-- Of the parameters of a method the tree has nothing, and of its body all the names, numbers and strings. -/
theorem parse_conserves_parameters :
    let tokens := (Source.mk "x" "void m(int n, f(b)) \x7b int i = g + 1; a.b(\"x\", (2)); \x7d").tokens
    let before := tokens.takeWhile (·.kind != .eof)
    (Report.ofTokens tokens none).diagnostics = [] ∧ (∀ t ∈ before, t.Divisible) ∧
      ∃ root, (Report.ofTokens tokens none).root = some root ∧ root.items.Sublist (before.filterMap Token.item?) ∧
        root.preorder.flatMap Tree.segments = [(.identifier, "m"), (.identifier, "i"), (.identifier, "g"),
          (.number, "1"), (.identifier, "a"), (.identifier, "b"), (.stringLiteral, "x"), (.number, "2")] := by
  intro tokens before
  have hnil : (Report.ofTokens tokens none).diagnostics = [] := by decide +kernel
  have hdivisible : ∀ t ∈ before, t.Divisible := fun t ht =>
    (spelled_tokens _ t ((List.takeWhile_prefix _).subset ht)).divisible
  obtain ⟨root, hroot, hitems, hclean⟩ := parse_conserves tokens
  refine ⟨hnil, hdivisible, root, hroot, hitems, ((hclean hnil).2 hdivisible).trans ?_⟩
  decide +kernel

end Curly
