import Curly.Proofs.Parser.Composition
import Curly.Syntax.Span

/-! What the nodes of a tree were read from, and on which lines they stand. Parentheses are left out of the tree, and
    modifiers do not count; classes and methods stand where their names do, and the nodes above take their lines from what
    is left. Main statement: `lines_of_diagnostics_nil`. -/

namespace Curly

namespace Spanned

theorem trees_eq (ns : List Spanned) : trees ns = ns.map tree := by
  induction ns with
  | nil => rfl
  | cons n ns ih => rw [trees, ih, List.map_cons]

theorem line_tree (n : Spanned) : n.tree.line = n.line := by
  cases n
  rfl

/-! ### Nodes in their places -/

/-- The node is made of its tokens, and it stands on the line of the one that leads. -/
structure Placed (n : Spanned) : Prop where
  fits : Fits n.kind n.span n.children
  line : n.kind ≠ .program → ∃ t ∈ n.lead, n.line = t.line

def AllPlaced (ns : List Spanned) : Prop := ∀ n ∈ nodesOf ns, n.Placed

section
variable {kind : NodeKind} {value : String} {line : Int} {span : List Token} {n : Spanned} {ns ms : List Spanned}

@[simp] theorem allPlaced_nil : AllPlaced [] := List.forall_mem_nil _

@[simp] theorem allPlaced_cons : AllPlaced (n :: ns) ↔ (∀ m ∈ n.nodes, m.Placed) ∧ AllPlaced ns :=
  List.forall_mem_append

@[simp] theorem allPlaced_append : AllPlaced (ns ++ ms) ↔ AllPlaced ns ∧ AllPlaced ms := by
  induction ns with
  | nil => simp
  | cons n ns ih => simp [ih, and_assoc]

theorem placed_node (hfits : Fits kind span ns)
    (hline : ∃ t ∈ (node kind value line span ns).lead, line = t.line) (hns : AllPlaced ns) :
    ∀ m ∈ (node kind value line span ns).nodes, m.Placed :=
  List.forall_mem_cons.mpr ⟨⟨hfits, fun _ => hline⟩, hns⟩

end

end Spanned

open Spanned

/-! ### Expressions -/

/-- The expression was read from the tokens, and the node has its tree. -/
structure SpansExpr (n : Spanned) (ts : List Token) (e : Expr) : Prop where
  tree : n.tree = e.toTree
  span : Enclosed n.span ts
  lead : ∃ t, n.span.find? (·.kind != .leftParen) = some t ∧ e.line = t.line
  placed : ∀ m ∈ n.nodes, m.Placed

/-- Parentheses do not lead. -/
theorem Enclosed.find?_eq {ts us : List Token} {t : Token} (h : Enclosed ts us)
    (ht : ts.find? (·.kind != .leftParen) = some t) : us.find? (·.kind != .leftParen) = some t := by
  induction h with
  | self => exact ht
  | within hl _ _ ih => simp [hl, ih]

theorem SpansExpr.operation {m n : Spanned} {ts us : List Token} {o : Token} {e f g : Expr} {kind : NodeKind}
    (hm : SpansExpr m ts e) (hn : SpansExpr n us f)
    (ho : kind = .binaryOp ∧ (o.kind.isAdditive ∨ o.kind.isMultiplicative) ∨ kind = .comparison ∧ o.kind.isComparison)
    (htree : g.toTree = .node kind o.lexeme e.line [e.toTree, f.toTree]) (hline : g.line = e.line) :
    SpansExpr (.node kind o.lexeme e.line (ts ++ o :: us) [m, n]) (ts ++ o :: us) g := by
  obtain ⟨t, ht, hte⟩ := hm.lead
  have hlead : (ts ++ o :: us).find? (·.kind != .leftParen) = some t := by
    rw [List.find?_append, hm.span.find?_eq ht, Option.some_or]
  refine ⟨?_, .self, ⟨t, hlead, hline.trans hte⟩, placed_node (.operation ho hm.span hn.span) ⟨t, ?_, hte⟩ ?_⟩
  · rw [htree, Spanned.tree, trees, trees, trees, hm.tree, hn.tree]
  · rcases ho with ⟨rfl, -⟩ | ⟨rfl, -⟩
    · exact hlead
    · exact hlead
  · simpa using ⟨hm.placed, hn.placed⟩

theorem spansExpr_leaf {e : Expr} {t : Token} {kind : NodeKind} {value : String}
    (ht : kind = .number ∧ t.kind = .number ∨ kind = .identifier ∧ t.kind = .identifier ∨
      kind = .stringLiteral ∧ t.kind = .stringLiteral) (htree : e.toTree = .leaf kind value t.line)
    (hline : e.line = t.line) : SpansExpr (.node kind value t.line [t] []) [t] e := by
  have hlead : [t].find? (·.kind != .leftParen) = some t := by
    rcases ht with ⟨-, ht⟩ | ⟨-, ht⟩ | ⟨-, ht⟩ <;> simp [ht]
  refine ⟨htree.symm, .self, ⟨t, hlead, hline⟩, placed_node (.leaf ?_) ⟨t, ?_, rfl⟩ allPlaced_nil⟩
  · rcases ht with ht | ht | ht
    · exact .inl ht
    · exact .inr (.inl ht)
    · exact .inr (.inr (.inl ht))
  · rcases ht with ⟨rfl, -⟩ | ⟨rfl, -⟩ | ⟨rfl, -⟩ <;> exact hlead

theorem spansExpr_postfix {e : Expr} {t o : Token} {kind : NodeKind} (ht : t.kind = .identifier)
    (ho : kind = .postIncrement ∧ o.kind = .increment ∨ kind = .postDecrement ∧ o.kind = .decrement)
    (htree : e.toTree = .label kind (.leaf .identifier t.lexeme t.line)) (hline : e.line = t.line) :
    SpansExpr (.node kind "" t.line [t, o] [.node .identifier t.lexeme t.line [t] []]) [t, o] e := by
  have hname : SpansExpr (.node .identifier t.lexeme t.line [t] []) [t] (.identifier t.lexeme t.line) :=
    spansExpr_leaf (.inr (.inl ⟨rfl, ht⟩)) rfl rfl
  have hfits : Fits kind [t, o] [.node .identifier t.lexeme t.line [t] []] :=
    .postfixStep (n := .node .identifier t.lexeme t.line [t] []) ho
  have hlead : [t, o].find? (·.kind != .leftParen) = some t := by simp [ht]
  refine ⟨htree.symm, .self, ⟨t, hlead, hline⟩, placed_node hfits ⟨t, ?_, rfl⟩ ?_⟩
  · rcases ho with ⟨rfl, -⟩ | ⟨rfl, -⟩ <;> exact hlead
  · exact allPlaced_cons.mpr ⟨hname.placed, allPlaced_nil⟩

theorem ReadsExpr.spans {level : Level} {ts : List Token} {e : Expr} (h : ReadsExpr level ts e) :
    ∃ n, SpansExpr n ts e := by
  induction h with
  | number h => exact ⟨_, spansExpr_leaf (.inl ⟨rfl, h⟩) rfl rfl⟩
  | identifier h => exact ⟨_, spansExpr_leaf (.inr (.inl ⟨rfl, h⟩)) rfl rfl⟩
  | string h => exact ⟨_, spansExpr_leaf (.inr (.inr ⟨rfl, h⟩)) rfl rfl⟩
  | postIncrement h hu => exact ⟨_, spansExpr_postfix h (.inl ⟨rfl, hu⟩) rfl rfl⟩
  | postDecrement h hu => exact ⟨_, spansExpr_postfix h (.inr ⟨rfl, hu⟩) rfl rfl⟩
  | parenthesized hl _ hr ih =>
    obtain ⟨n, hn⟩ := ih
    exact ⟨n, hn.tree, .within hl hn.span hr, hn.lead, hn.placed⟩
  | ofFactor _ ih | ofTerm _ ih | ofExpression _ ih => exact ih
  | product _ ho _ ihe ihf =>
    obtain ⟨⟨m, hm⟩, n, hn⟩ := ihe, ihf
    exact ⟨_, hm.operation hn (.inl ⟨rfl, .inr ho⟩) rfl rfl⟩
  | sum _ ho _ ihe ihf =>
    obtain ⟨⟨m, hm⟩, n, hn⟩ := ihe, ihf
    exact ⟨_, hm.operation hn (.inl ⟨rfl, .inl ho⟩) rfl rfl⟩
  | comparison _ ho _ ihe ihf =>
    obtain ⟨⟨m, hm⟩, n, hn⟩ := ihe, ihf
    exact ⟨_, hm.operation hn (.inr ⟨rfl, ho⟩) rfl rfl⟩

/-- The labelled node of an expression. -/
theorem SpansExpr.label {n : Spanned} {ts : List Token} {e : Expr} {kind : NodeKind} (h : SpansExpr n ts e)
    (hkind : kind = .condition ∨ kind = .argument) :
    ∃ m : Spanned, m.span = ts ∧ m.tree = .label kind e.toTree ∧ ∀ k ∈ m.nodes, k.Placed := by
  obtain ⟨t, ht, hline⟩ := h.lead
  have hlead := h.span.find?_eq ht
  refine ⟨.node kind "" e.line ts [n], rfl, ?_, placed_node (.expression hkind h.span) ⟨t, ?_, hline⟩ ?_⟩
  · rw [Spanned.tree, trees, trees, h.tree, Tree.label, e.line_toTree]
  · rcases hkind with rfl | rfl <;> exact hlead
  · exact allPlaced_cons.mpr ⟨h.placed, allPlaced_nil⟩

theorem ReadsArguments.spans {ts : List Token} {es : List Expr} (h : ReadsArguments ts es) :
    ∃ ns : List Spanned, Separated (ns.map span) ts ∧ trees ns = es.map (fun e => .label .argument e.toTree) ∧
      AllPlaced ns := by
  induction h with
  | none => exact ⟨[], .none, rfl, allPlaced_nil⟩
  | last h =>
    obtain ⟨n, hn⟩ := h.spans
    obtain ⟨m, hspan, htree, hplaced⟩ := hn.label (.inr rfl)
    refine ⟨[m], hspan ▸ .last, ?_, allPlaced_cons.mpr ⟨hplaced, allPlaced_nil⟩⟩
    rw [trees, trees, htree, List.map_cons, List.map_nil]
  | cons h ho _ ih =>
    obtain ⟨n, hn⟩ := h.spans
    obtain ⟨m, hspan, htree, hplaced⟩ := hn.label (.inr rfl)
    obtain ⟨ns, hseparated, htrees, hall⟩ := ih
    refine ⟨m :: ns, ?_, ?_, allPlaced_cons.mpr ⟨hplaced, hall⟩⟩
    · rw [List.map_cons, hspan]
      exact .cons ho hseparated
    · rw [trees, htree, htrees, List.map_cons]

/-! ### Statements -/

/-- The statement was read from the tokens, and the node has its tree. -/
structure SpansStmt (n : Spanned) (ts : List Token) (st : Stmt) : Prop where
  tree : n.tree = st.toTree
  span : n.span = ts
  lead : ∃ t ∈ leadOf n.kind n.span, n.line = t.line
  placed : ∀ m ∈ n.nodes, m.Placed

theorem spansStmt_node (kind : NodeKind) {t : Token} {ts : List Token} {ns : List Spanned} {st : Stmt}
    (hkind : (node kind st.toTree.value t.line ts ns).lead = leadOf kind ts) (hfits : Fits kind ts ns)
    (hlead : leadOf kind ts = some t) (htree : st.toTree = .node kind st.toTree.value t.line (trees ns))
    (hns : AllPlaced ns) : SpansStmt (.node kind st.toTree.value t.line ts ns) ts st :=
  ⟨htree.symm, rfl, ⟨t, hlead, rfl⟩, placed_node hfits ⟨t, hkind.trans hlead, rfl⟩ hns⟩

/-! Modifiers do not lead. -/

section
variable {ms : List Token} (hms : Modifiers ms) {t u : Token} {ts : List Token} (ht : t.kind.isModifier = false)
include hms ht

theorem Modifiers.dropWhile_eq : (ms ++ t :: ts).dropWhile (·.kind.isModifier) = t :: ts := by
  rw [List.dropWhile_append_of_pos hms, List.dropWhile_cons_of_neg (by simp [ht])]

theorem Modifiers.head?_eq : ((ms ++ t :: ts).dropWhile (·.kind.isModifier)).head? = some t := by
  rw [hms.dropWhile_eq ht, List.head?_cons]

theorem Modifiers.second?_eq : ((ms ++ t :: u :: ts).dropWhile (·.kind.isModifier))[1]? = some u := by
  rw [hms.dropWhile_eq ht]
  rfl

end

/-- The node of a modifier or of a return type. -/
theorem spans_word {kind : NodeKind} {t : Token}
    (ht : kind = .modifier ∧ t.kind.isModifier ∨ kind = .returnType ∧ t.kind.isType) :
    ∃ n : Spanned, n.span = [t] ∧ n.kind = kind ∧ n.tree = (Word.ofToken t).toTree kind ∧ ∀ m ∈ n.nodes, m.Placed := by
  refine ⟨.node kind t.lexeme t.line [t] [], rfl, rfl, rfl, placed_node (.leaf ?_) ⟨t, ?_, rfl⟩ allPlaced_nil⟩
  · exact .inr (.inr (.inr ht))
  · rcases ht with ⟨rfl, -⟩ | ⟨rfl, -⟩ <;> rfl

theorem Modifiers.spans {ms : List Token} (hms : Modifiers ms) : ∃ ns : List Spanned, ns.flatMap span = ms ∧
    (∀ n ∈ ns, n.kind = .modifier) ∧ trees ns = (ms.map Word.ofToken).map (Word.toTree .modifier) ∧ AllPlaced ns := by
  induction ms with
  | nil => exact ⟨[], rfl, List.forall_mem_nil _, rfl, allPlaced_nil⟩
  | cons m ms ih =>
    obtain ⟨hm, hms⟩ := List.forall_mem_cons.mp hms
    obtain ⟨n, hspan, hkind, htree, hplaced⟩ := spans_word (.inl ⟨rfl, hm⟩)
    obtain ⟨ns, hspans, hkinds, htrees, hall⟩ := ih hms
    refine ⟨n :: ns, ?_, List.forall_mem_cons.mpr ⟨hkind, hkinds⟩, ?_, allPlaced_cons.mpr ⟨hplaced, hall⟩⟩
    · rw [List.flatMap_cons, hspan, hspans, List.singleton_append]
    · rw [trees, htree, htrees, List.map_cons, List.map_cons]

/-- The nodes of a body. -/
theorem spans_body {body : List (List Token × Stmt)} (h : ∀ x ∈ body, ∃ n, SpansStmt n x.1 x.2) :
    ∃ ns : List Spanned, ns.flatMap span = body.flatMap Prod.fst ∧ trees ns = Stmt.toTrees (body.map Prod.snd) ∧
      AllPlaced ns := by
  induction body with
  | nil => exact ⟨[], rfl, rfl, allPlaced_nil⟩
  | cons x body ih =>
    obtain ⟨⟨n, hn⟩, hbody⟩ := List.forall_mem_cons.mp h
    obtain ⟨ns, hspan, htrees, hall⟩ := ih hbody
    refine ⟨n :: ns, ?_, ?_, allPlaced_cons.mpr ⟨hn.placed, hall⟩⟩
    · rw [List.flatMap_cons, List.flatMap_cons, hn.span, hspan]
    · rw [trees, hn.tree, htrees]
      rfl

/-- The labelled node of a statement. -/
theorem SpansStmt.label {n : Spanned} {ts : List Token} {st : Stmt} {kind : NodeKind} (h : SpansStmt n ts st)
    (hkind : kind = .body ∨ kind = .thenBranch ∨ kind = .elseBranch) :
    ∃ m : Spanned, m.span = ts ∧ m.tree = .label kind st.toTree ∧ ∀ k ∈ m.nodes, k.Placed := by
  obtain ⟨t, ht, hline⟩ := h.lead
  refine ⟨.node kind "" n.line n.span [n], h.span, ?_, placed_node (.statement hkind) ⟨t, ?_, hline⟩ ?_⟩
  · rw [Spanned.tree, trees, trees, ← h.tree, Tree.label, line_tree]
  · rcases hkind with rfl | rfl | rfl <;> exact ht
  · exact allPlaced_cons.mpr ⟨h.placed, allPlaced_nil⟩

theorem ReadsStmt.spans {ts : List Token} {st : Stmt} (h : ReadsStmt ts st) : ∃ n, SpansStmt n ts st := by
  induction h with
  | classDecl hms hkw hname hl _ hr ih =>
    obtain ⟨modifiers, hmodifiers, hkinds, htrees, hplaced⟩ := hms.spans
    obtain ⟨members, hmembers, htrees', hall⟩ := spans_body ih
    refine ⟨_, spansStmt_node .classDecl rfl ?_ (hms.second?_eq (by rw [hkw]; rfl)) ?_
      (allPlaced_append.mpr ⟨hplaced, hall⟩)⟩
    · rw [← hmembers, ← hmodifiers]
      exact .classDecl hkinds hkw hname hl hr
    · rw [trees_eq, List.map_append, ← trees_eq, ← trees_eq, htrees, htrees']
      rfl
  | methodDecl hms htype hname hl hps hr hlb _ hrb ih =>
    obtain ⟨modifiers, hmodifiers, hkinds, htrees, hplaced⟩ := hms.spans
    obtain ⟨returns, hreturns, hkind, htree, hplaced'⟩ := spans_word (.inr ⟨rfl, htype⟩)
    obtain ⟨members, hmembers, htrees', hall⟩ := spans_body ih
    refine ⟨_, spansStmt_node .methodDecl rfl ?_ (hms.second?_eq (Parser.isModifier_of_isType htype)) ?_
      (allPlaced_cons.mpr ⟨hplaced', allPlaced_append.mpr ⟨hplaced, hall⟩⟩)⟩
    · rw [← hmembers, ← hmodifiers]
      change Fits _ (_ ++ ([_] ++ _)) _
      rw [← hreturns]
      exact .methodDecl hkind hkinds hname hl hps hr hlb hrb
    · rw [trees, htree, trees_eq, List.map_append, ← trees_eq, ← trees_eq, htrees, htrees']
      rfl
  | declaration htype _ hname hsemi =>
    exact ⟨_, spansStmt_node .declaration rfl (.declaration htype hname hsemi)
      (modifiers_nil.head?_eq (Parser.isModifier_of_isType htype)) rfl allPlaced_nil⟩
  | initialized htype _ hname ho he hsemi =>
    obtain ⟨n, hn⟩ := he.spans
    refine ⟨_, spansStmt_node .declaration rfl (.initialized htype hname ho hn.span hsemi)
      (modifiers_nil.head?_eq (Parser.isModifier_of_isType htype)) ?_ ?_⟩
    · rw [trees, trees, hn.tree]
      rfl
    · exact allPlaced_cons.mpr ⟨hn.placed, allPlaced_nil⟩
  | whileLoop hms hkw hl he hr _ ih =>
    obtain ⟨⟨n, hn⟩, b, hb⟩ := he.spans, ih
    obtain ⟨test, rfl, htest, hplaced⟩ := hn.label (.inl rfl)
    obtain ⟨body, rfl, hbody, hall⟩ := hb.label (.inl rfl)
    refine ⟨_, spansStmt_node .whileLoop rfl (.whileLoop hms hkw hl hr) (hms.head?_eq (by rw [hkw]; rfl)) ?_ ?_⟩
    · rw [trees, trees, trees, htest, hbody]
      rfl
    · simpa using ⟨hplaced, hall⟩
  | ifThen hms hkw hl he hr _ ih =>
    obtain ⟨⟨n, hn⟩, a, ha⟩ := he.spans, ih
    obtain ⟨test, rfl, htest, hplaced⟩ := hn.label (.inl rfl)
    obtain ⟨positive, rfl, hpositive, hall⟩ := ha.label (.inr (.inl rfl))
    refine ⟨_, spansStmt_node .ifElse rfl (.ifThen hms hkw hl hr) (hms.head?_eq (by rw [hkw]; rfl)) ?_ ?_⟩
    · rw [trees, trees, trees, htest, hpositive]
      rfl
    · simpa using ⟨hplaced, hall⟩
  | ifElse hms hkw hl he hr _ _ ho _ iha ihb =>
    obtain ⟨⟨n, hn⟩, ⟨a, ha⟩, b, hb⟩ := he.spans, iha, ihb
    obtain ⟨test, rfl, htest, hplaced⟩ := hn.label (.inl rfl)
    obtain ⟨positive, rfl, hpositive, hall⟩ := ha.label (.inr (.inl rfl))
    obtain ⟨negative, rfl, hnegative, hall'⟩ := hb.label (.inr (.inr rfl))
    refine ⟨_, spansStmt_node .ifElse rfl (.ifElse hms hkw hl hr ho) (hms.head?_eq (by rw [hkw]; rfl)) ?_ ?_⟩
    · rw [trees, trees, trees, trees, htest, hpositive, hnegative]
      rfl
    · simpa using ⟨hplaced, hall, hall'⟩
  | block hms hl _ hr ih =>
    obtain ⟨ns, hspan, htrees, hall⟩ := spans_body ih
    refine ⟨_, spansStmt_node .block rfl ?_ (hms.head?_eq (by rw [hl]; rfl)) ?_ hall⟩
    · rw [← hspan]
      exact .block hms hl hr
    · rw [htrees]
      rfl
  | methodCall hms hname hl h hr hsemi =>
    obtain ⟨arguments, hseparated, htrees, hall⟩ := h.spans
    obtain ⟨t, rest, rfl, ht⟩ := hname.head
    refine ⟨_, spansStmt_node .methodCall rfl (.methodCall hms hname hl hseparated hr hsemi)
      (hms.head?_eq (by rw [ht]; rfl)) ?_ hall⟩
    rw [htrees]
    rfl
  | assignment hms hname ho he hsemi =>
    obtain ⟨n, hn⟩ := he.spans
    refine ⟨_, spansStmt_node .assignment rfl (.assignment hms hname ho hn.span hsemi)
      (hms.head?_eq (by rw [hname]; rfl)) ?_ ?_⟩
    · rw [trees, trees, hn.tree]
      rfl
    · exact allPlaced_cons.mpr ⟨hn.placed, allPlaced_nil⟩
  | increment hms hname ho hsemi =>
    exact ⟨_, spansStmt_node .increment rfl (.step hms hname (.inl ⟨rfl, ho⟩) hsemi)
      (hms.head?_eq (by rw [hname]; rfl)) rfl allPlaced_nil⟩
  | decrement hms hname ho hsemi =>
    exact ⟨_, spansStmt_node .decrement rfl (.step hms hname (.inr ⟨rfl, ho⟩) hsemi)
      (hms.head?_eq (by rw [hname]; rfl)) rfl allPlaced_nil⟩

/-! ### Programs -/

/-- If the parse of a text reports nothing, then every node of the tree has the tokens that it was read from: the program
    all up to the end of the input, and the others, of those of the node above, the ones that the grammar gives them.
    Every node but the program stands on the line of the token that leads among its own. -/
theorem lines_of_diagnostics_nil (s : Source) (h : (s.parse none).diagnostics = []) :
    ∃ root : Spanned, (s.parse none).root = some root.tree ∧ root.kind = .program ∧
      root.span = s.tokens.takeWhile (·.kind != .eof) ∧
      ∀ n ∈ root.nodes, Fits n.kind n.span n.children ∧ (n.kind ≠ .program → ∃ t ∈ n.lead, n.line = t.line) := by
  obtain ⟨p, hp⟩ := diagnostics_eq_nil_iff.mp h
  have hroot := (report_of_readsProgram hp).1
  obtain ⟨body, hreads, htokens, rfl⟩ := hp
  obtain ⟨ns, hspan, htrees, hall⟩ := spans_body fun x hx => (hreads x hx).spans
  refine ⟨.node .program "" 0 (ns.flatMap span) ns, ?_, rfl, hspan.trans htokens.symm, ?_⟩
  · rw [Spanned.tree, htrees]
    exact hroot
  · refine List.forall_mem_cons.mpr ⟨⟨.program, fun hne => absurd rfl hne⟩, fun n hn => ?_⟩
    exact ⟨(hall n hn).fits, (hall n hn).line⟩

theorem lines_of_diagnostics_nil_parentheses :
    let s := Source.mk "x" "while (c) public\nclass A \x7b \x7d x = (\na) + b;"
    (s.parse none).diagnostics = [] ∧
      ∃ root : Spanned, (s.parse none).root = some root.tree ∧ root.kind = .program ∧
        root.span = s.tokens.takeWhile (·.kind != .eof) ∧
        ∀ n ∈ root.nodes, Fits n.kind n.span n.children ∧ (n.kind ≠ .program → ∃ t ∈ n.lead, n.line = t.line) := by
  intro s
  have hnil : (s.parse none).diagnostics = [] := by decide +kernel
  exact ⟨hnil, lines_of_diagnostics_nil s hnil⟩

/-- The sum begins with a parenthesis on the first line, but the first token of it that is kept stands on the second. -/
example : ((Source.mk "x" "x = (\na) + b;").parse none).root.map (fun t => t.preorder.map fun u => (u.kind, u.line)) =
    some [(.program, 0), (.assignment, 1), (.binaryOp, 2), (.identifier, 2), (.identifier, 2)] := by decide +kernel

end Curly
