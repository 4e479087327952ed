import Curly.Proofs.Parser.Kinds
import Curly.Proofs.Parser.Totality
import Curly.Proofs.Parser.WellFormed
import Curly.Proofs.Token.LineEnds
import Curly.Proofs.Tree.Traversal

/-! Where the texts of nodes come from, whatever is wrong with what was parsed; and what becomes of the lines of an outline
    when a text goes over the end of a line. Main statement: `outline_lines`. -/

namespace Curly

/-! ### Texts -/

/-- The text of a node is made of tokens as its kind asks: a string literal has the value of one, a variable a type and a
    name, a call the parts of a name; and all other nodes have one lexeme, or no text. Where something else stood in the
    place of a name, that is the name. -/
def Tree.WrittenWith (tokens : List Token) (u : Tree) : Prop :=
  match u.kind with
  | .stringLiteral => ∃ t ∈ tokens, u.value = t.value
  | .declaration => ∃ type ∈ tokens, ∃ name ∈ tokens, u.value = type.lexeme ++ " " ++ name.lexeme
  | .methodCall => ∃ parts : List Token, (∀ t ∈ parts, t ∈ tokens) ∧ u.value = String.join (parts.map Token.lexeme)
  | _ => u.value = "" ∨ ∃ t ∈ tokens, u.value = t.lexeme

/-- Only blanks are added to what the tokens are. -/
theorem Tree.WrittenWith.exists_token {tokens : List Token} {u : Tree} {c : Char} (h : u.WrittenWith tokens)
    (hc : c ∈ u.value.toList) (hblank : c ≠ ' ') : ∃ t ∈ tokens, c ∈ t.lexeme.toList ∨ c ∈ t.value.toList := by
  unfold WrittenWith at h
  split at h
  · obtain ⟨t, ht, hvalue⟩ := h
    exact ⟨t, ht, .inr (hvalue ▸ hc)⟩
  · obtain ⟨type, htype, name, hname, hvalue⟩ := h
    have hparts : c ∈ type.lexeme.toList ∨ c ∈ name.lexeme.toList := by simpa [hvalue, hblank] using hc
    exact hparts.elim (fun h => ⟨type, htype, .inl h⟩) fun h => ⟨name, hname, .inl h⟩
  · obtain ⟨parts, hparts, hvalue⟩ := h
    have hpart : ∃ t ∈ parts, c ∈ t.lexeme.toList := by simpa [hvalue] using hc
    obtain ⟨t, ht, hct⟩ := hpart
    exact ⟨t, hparts t ht, .inl hct⟩
  · rcases h with hnone | ⟨t, ht, hvalue⟩
    · simp [hnone] at hc
    · exact ⟨t, ht, .inl (hvalue ▸ hc)⟩

/-! ### What is parsed side by side -/

namespace Pairing
variable {P : Pairing} {tokens : List Token} (hP : ∀ t u, P.Rel t u → t ∈ tokens)
include hP

theorem mem_of_forall₂ {ts us : List Token} (h : List.Forall₂ P.Rel ts us) : ∀ t ∈ ts, t ∈ tokens := by
  induction h with
  | nil => exact List.forall_mem_nil _
  | cons h _ ih => exact List.forall_mem_cons.mpr ⟨hP _ _ h, ih⟩

theorem Exprs.written {e e' : Expr} (h : P.Exprs e e') : ∀ u ∈ e.toTree.preorder, u.WrittenWith tokens := by
  induction h with
  | number h | identifier h => exact forall_leaf.mpr (.inr ⟨_, hP _ _ h, rfl⟩)
  | string h => exact forall_leaf.mpr ⟨_, hP _ _ h, rfl⟩
  | postIncrement h | postDecrement h =>
    exact forall_label.mpr ⟨.inl rfl, forall_leaf.mpr (.inr ⟨_, hP _ _ h, rfl⟩)⟩
  | binary h _ _ ihe ihf | comparison h _ _ ihe ihf =>
    refine forall_preorder.mpr ⟨.inr ⟨_, hP _ _ h, rfl⟩, forall_preorders_cons.mpr ⟨ihe, ?_⟩⟩
    exact forall_preorders_cons.mpr ⟨ihf, forall_preorders_nil⟩
  | error => exact forall_leaf.mpr (.inl rfl)

theorem written_modifiers {ms ms' : List Token} (h : List.Forall₂ P.Rel ms ms') :
    ∀ u ∈ Tree.preorders ((ms.map Word.ofToken).map (Word.toTree .modifier)), u.WrittenWith tokens := by
  induction h with
  | nil => exact forall_preorders_nil
  | cons h _ ih => exact forall_preorders_cons.mpr ⟨forall_leaf.mpr (.inr ⟨_, hP _ _ h, rfl⟩), ih⟩

theorem written_arguments {es es' : List Expr} (h : List.Forall₂ P.Exprs es es') :
    ∀ u ∈ Tree.preorders (es.map fun e => .label .argument e.toTree), u.WrittenWith tokens := by
  induction h with
  | nil => exact forall_preorders_nil
  | cons h _ ih => exact forall_preorders_cons.mpr ⟨forall_label.mpr ⟨.inl rfl, h.written hP⟩, ih⟩

omit hP in
theorem written_body {body : List (Stmt × Stmt)} (h : ∀ x ∈ body, ∀ u ∈ x.1.toTree.preorder, u.WrittenWith tokens) :
    ∀ u ∈ Tree.preorders (Stmt.toTrees (body.map Prod.fst)), u.WrittenWith tokens := by
  induction body with
  | nil => exact forall_preorders_nil
  | cons x body ih =>
    rw [List.forall_mem_cons] at h
    exact forall_preorders_cons.mpr ⟨h.1, ih h.2⟩

omit hP in
theorem written_branch (kind : NodeKind) (hkind : ∀ t, (Tree.label kind t).WrittenWith tokens)
    {branch : Option (Stmt × Stmt)} (h : ∀ x ∈ branch, ∀ u ∈ x.1.toTree.preorder, u.WrittenWith tokens) :
    ∀ u ∈ Tree.preorders (Stmt.toBranch kind (branch.map Prod.fst)), u.WrittenWith tokens := by
  cases branch with
  | none => exact forall_preorders_nil
  | some x => exact forall_preorders_cons.mpr ⟨forall_label.mpr ⟨hkind _, h x rfl⟩, forall_preorders_nil⟩

theorem Stmts.written {st st' : Stmt} (h : P.Stmts st st') : ∀ u ∈ st.toTree.preorder, u.WrittenWith tokens := by
  induction h with
  | classDecl hname hms _ ih =>
    exact forall_preorder.mpr ⟨.inr ⟨_, hP _ _ hname, rfl⟩,
      forall_preorders_append.mpr ⟨written_modifiers hP hms, written_body ih⟩⟩
  | methodDecl hname htype hms _ ih =>
    refine forall_preorder.mpr ⟨.inr ⟨_, hP _ _ hname, rfl⟩, forall_preorders_cons.mpr ⟨?_, ?_⟩⟩
    · exact forall_leaf.mpr (.inr ⟨_, hP _ _ htype, rfl⟩)
    · exact forall_preorders_append.mpr ⟨written_modifiers hP hms, written_body ih⟩
  | declaration htype hname he =>
    refine forall_preorder.mpr ⟨⟨_, hP _ _ htype, _, hP _ _ hname, rfl⟩, ?_⟩
    cases he with
    | none => exact forall_preorders_nil
    | some he => exact forall_preorders_cons.mpr ⟨he.written hP, forall_preorders_nil⟩
  | whileLoop _ he _ ih =>
    refine forall_preorder.mpr ⟨.inl rfl, forall_preorders_cons.mpr ⟨?_, written_branch .body (fun _ => .inl rfl) ih⟩⟩
    exact forall_label.mpr ⟨.inl rfl, he.written hP⟩
  | ifElse _ he _ _ iha ihb =>
    refine forall_preorder.mpr ⟨.inl rfl, forall_preorders_cons.mpr ⟨?_, forall_preorders_append.mpr ⟨?_, ?_⟩⟩⟩
    · exact forall_label.mpr ⟨.inl rfl, he.written hP⟩
    · exact written_branch .thenBranch (fun _ => .inl rfl) iha
    · exact written_branch .elseBranch (fun _ => .inl rfl) ihb
  | block _ _ ih => exact forall_preorder.mpr ⟨.inl rfl, written_body ih⟩
  | methodCall _ hname hes =>
    exact forall_preorder.mpr ⟨⟨_, mem_of_forall₂ hP hname, rfl⟩, written_arguments hP hes⟩
  | assignment hname he =>
    refine forall_preorder.mpr ⟨.inr ⟨_, hP _ _ hname, rfl⟩, forall_preorders_cons.mpr ⟨?_, forall_preorders_nil⟩⟩
    exact he.written hP
  | increment hname | decrement hname => exact forall_leaf.mpr (.inr ⟨_, hP _ _ hname, rfl⟩)

theorem root_written {o o' : Outcome Program} (h : P.Outcomes P.Bodies o o') (c : Cursor) :
    ∀ root ∈ (Report.ofOutcome P.left c o).root, ∀ u ∈ root.preorder, u.WrittenWith tokens := by
  cases h with
  | stopped => exact fun _ h => by cases h
  | done h =>
    obtain ⟨body, rfl, -, hbody⟩ := h
    rintro _ ⟨⟩
    exact forall_preorder.mpr ⟨.inl rfl, written_body fun x hx => (hbody x hx).written hP⟩

end Pairing

/-- The tree of any tokens has texts that are made of them. -/
theorem exists_root_written (tokens : List Token) : ∃ root, (Report.ofTokens tokens none).root = some root ∧
    ∀ u ∈ root.preorder, u.WrittenWith (Token.input tokens) := by
  obtain ⟨p, -, -, -, -, -, hroot, -⟩ := exists_program tokens
  -- beside itself, the parse tells of every token in the tree that it has a place in the input
  have hinput : ∀ t u, (Pairing.ofInputs tokens tokens none rfl).Rel t u → t ∈ Token.input tokens := by
    rintro t u ⟨n, ht, -⟩
    exact List.mem_of_getElem? ht
  have hwritten := Pairing.root_written hinput (Parser.parallel_program _ _ (Pairing.cursors_ofInputs none rfl))
  exact ⟨p.toTree, hroot, hwritten _ _ hroot⟩

/-! ### Line feeds in tokens -/

/-- A lexeme that goes over the end of a line is a string literal. -/
theorem Lexeme.kind_of_lineFeed {c : Char} (hc : c ≠ '\n') (rest : List Char)
    (h : '\n' ∈ (read c rest).text ∨ '\n' ∈ (read c rest).value) :
    (read c rest).kind = .stringLiteral ∧ '\n' ∈ (read c rest).text := by
  by_cases hquote : c = '"'
  · subst hquote
    rw [read_quote] at h ⊢
    rcases h with htext | hvalue
    · exact ⟨rfl, htext⟩
    · exact ⟨rfl, List.mem_cons_of_mem _ (mem_stringRest rest hvalue)⟩
  · obtain ⟨kind, text, hplain, hline, -⟩ := read_plain hc hquote rest
    rw [hplain] at h
    exact absurd (h.elim id id) hline

theorem Scan.kind_of_lineFeed (file : String) (p : Place) : ∀ t ∈ (run file p).tokens,
    '\n' ∈ t.lexeme.toList ∨ '\n' ∈ t.value.toList → t.kind = .stringLiteral ∧ '\n' ∈ t.lexeme.toList := by
  induction p using Scan.induction with
  | stop p h =>
    rw [run_stop h]
    intro t ht hline
    obtain rfl := List.mem_singleton.mp ht
    simp at hline
  | token p c rest h ih =>
    rw [run_token h]
    refine List.forall_mem_cons.mpr ⟨fun hline => ?_, ih⟩
    simp only [Reading.at, String.toList_ofList] at hline ⊢
    exact Lexeme.kind_of_lineFeed (Place.ne_newline h) rest hline

theorem mem_input {tokens : List Token} {t : Token} (h : t ∈ Token.input tokens) : t ∈ tokens ∨ t = .addedEnd tokens := by
  rcases List.mem_append.mp h with h | h
  · exact .inl ((List.takeWhile_prefix _).subset h)
  · rw [List.mem_singleton.mp h]
    cases hf : tokens.find? (·.kind == .eof) with
    | none => exact .inr rfl
    | some stop => exact .inl (List.mem_of_find?_eq_some hf)

/-- A line feed in the text of a node comes from a string literal. -/
theorem Tree.WrittenWith.exists_stringLiteral {s : Source} {u : Tree} (h : u.WrittenWith (Token.input s.tokens))
    (hline : '\n' ∈ u.value.toList) : ∃ t ∈ s.tokens, t.kind = .stringLiteral ∧ '\n' ∈ t.lexeme.toList := by
  obtain ⟨t, ht, htext⟩ := h.exists_token hline (by decide)
  rcases mem_input ht with ht | rfl
  · exact ⟨t, ht, Scan.kind_of_lineFeed _ _ t ht htext⟩
  · simp [Token.addedEnd] at htext

/-! ### Lines that are broken -/

section
variable {α : Type} [BEq α] (a : α)

/-- What is put together of pieces comes apart into the parts of each. -/
theorem splitOn_intercalate_flatMap [ReflBEq α] : ∀ {ls : List (List α)}, ls ≠ [] →
    ([a].intercalate ls).splitOn a = ls.flatMap (List.splitOn a)
  | [l], _ => by simp
  | l :: l' :: ls, _ => by
    rw [List.intercalate_cons_cons, List.append_assoc, List.singleton_append, List.splitOn_append_cons_self,
      splitOn_intercalate_flatMap (List.cons_ne_nil l' ls)]
    rfl

theorem length_splitOn (l : List α) : (l.splitOn a).length = l.count a + 1 := by
  induction l with
  | nil => rfl
  | cons b l ih =>
    rw [List.splitOn_cons_eq_if_modifyHead, List.count_cons]
    split
    · rw [List.length_cons, ih]
    · rw [List.length_modifyHead, ih, Nat.add_zero]

end

namespace Tree

/-- An outline comes apart into the lines of its nodes, and these into theirs. -/
theorem splitOn_outline_flatMap (t : Tree) : t.outline.toList.splitOn '\n' =
    (t.nodes.map fun x => (entryAt x).toList).flatMap (List.splitOn '\n') := by
  have hne : (outlineEntries 0 t).map String.toList ≠ [] := by
    cases t
    simp [outlineEntries]
  rw [outline, String.toList_intercalate]
  refine (splitOn_intercalate_flatMap '\n' hne).trans ?_
  rw [outlineEntries_zero, List.map_map]
  rfl

theorem length_splitOn_outline (t : Tree) : (t.outline.toList.splitOn '\n').length =
    t.walk.length + (t.walk.flatMap fun u => u.value.toList).count '\n' := by
  rw [splitOn_outline_flatMap, walk_eq, ← map_snd_nodes]
  induction t.nodes with
  | nil => rfl
  | cons x xs ih =>
    simp only [List.map_cons, List.flatMap_cons, List.length_append, List.length_cons, List.count_append, length_splitOn,
      entryAt, count_outlineEntry] at ih ⊢
    omega

/-- The lines are those of the nodes if no text is broken, and there are more of them otherwise. -/
theorem splitOn_outline_iff (t : Tree) : t.outline.toList.splitOn '\n' = t.nodes.map (fun x => (entryAt x).toList) ↔
    ∀ u ∈ t.walk, '\n' ∉ u.value.toList := by
  have hwalk : t.nodes.map Prod.snd = t.walk := t.map_snd_nodes.trans t.walk_eq.symm
  constructor
  · intro h u hu
    have hlength := congrArg List.length h
    rw [length_splitOn_outline, List.length_map, ← List.length_map Prod.snd, hwalk, Nat.add_eq_left,
      List.count_eq_zero] at hlength
    exact fun hline => hlength (List.mem_flatMap_of_mem hu hline)
  · intro h
    have hone : ∀ x ∈ t.nodes, (entryAt x).toList.splitOn '\n' = [(entryAt x).toList] := fun x hx =>
      List.splitOn_eq_singleton (lineFeed_not_mem_outlineEntry (h _ (hwalk ▸ List.mem_map_of_mem hx)))
    rw [splitOn_outline_flatMap, List.flatMap_map, List.flatMap_congr hone, ← List.map_eq_flatMap]

end Tree

/-- Every text has a tree, and the lines of its outline are those of the nodes in the order of a walk, each of them broken
    wherever a line feed is in the text of its node. So there are as many lines as nodes, and as many more as there are line
    feeds in texts; and the lines are exactly one for each node if there are none. Only a string literal that goes over the
    end of a line brings one in, as a text of its own or in the place of a name. -/
theorem outline_lines (s : Source) : ∃ root, (s.parse none).root = some root ∧
    let lines := root.outline.toList.splitOn '\n'
    let entries := root.nodes.map fun x => (Tree.entryAt x).toList
    root.nodes.map Prod.snd = root.walk ∧ lines = entries.flatMap (List.splitOn '\n') ∧
    lines.length = root.walk.length + (root.walk.flatMap fun u => u.value.toList).count '\n' ∧
    (lines = entries ↔ ∀ u ∈ root.walk, '\n' ∉ u.value.toList) ∧
    ∀ u ∈ root.walk, '\n' ∈ u.value.toList → ∃ t ∈ s.tokens, t.kind = .stringLiteral ∧ '\n' ∈ t.lexeme.toList := by
  obtain ⟨root, hroot, hwritten⟩ := exists_root_written s.tokens
  refine ⟨root, hroot, root.map_snd_nodes.trans root.walk_eq.symm, root.splitOn_outline_flatMap,
    root.length_splitOn_outline, root.splitOn_outline_iff, fun u hu => ?_⟩
  rw [root.walk_eq] at hu
  exact (hwritten u hu).exists_stringLiteral

/-- A literal over two lines, and one in the place of a name. -/
example : ((Source.mk "x" "s = \"a\nb\"; class \"c\nd\" \x7b \x7d").parse none).root.map
    (fun root => (root.walk.length, root.outline)) =
      some (4, "├─ PROGRAM\n  ├─ ASSIGNMENT [s] (@1)\n    ├─ STRING_LITERAL [a\nb] (@1)\n  ├─ CLASS [\"c\nd\"] (@2)") := by
  decide +kernel

end Curly
