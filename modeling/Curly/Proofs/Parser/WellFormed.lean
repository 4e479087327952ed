import Curly.Proofs.Parser.Sentences
import Curly.Proofs.Syntax.Unparse
import Curly.Proofs.Token.Spelling
import Curly.Syntax.WellFormed

/-! Where the parse of a text reports nothing, the tree is well-formed: nothing is missing in it, names are names, and no
    `else` could belong to a nearer conditional. It is the tree of a program that can be written. Main statement:
    `wellFormed_of_diagnostics_nil`. -/

namespace Curly

/-! ### What is read can be written -/

section
variable {ts us : List Token} {t : Token}

theorem spelled_append : (∀ t ∈ ts ++ us, t.Spelled) ↔ (∀ t ∈ ts, t.Spelled) ∧ ∀ t ∈ us, t.Spelled :=
  List.forall_mem_append

theorem spelled_cons : (∀ u ∈ t :: ts, u.Spelled) ↔ t.Spelled ∧ ∀ u ∈ ts, u.Spelled := List.forall_mem_cons

end

theorem ReadsExpr.isSource {level : Level} {ts : List Token} {e : Expr} (h : ReadsExpr level ts e)
    (hts : ∀ t ∈ ts, t.Spelled) : e.isSource := by
  induction h with
  | number hk => exact (spelled_cons.mp hts).1.isNumber hk
  | identifier hk | postIncrement hk | postDecrement hk => exact (spelled_cons.mp hts).1.isName hk
  | string => rfl
  | parenthesized _ _ _ ih => exact ih (spelled_append.mp (spelled_cons.mp hts).2).1
  | ofFactor _ ih | ofTerm _ ih | ofExpression _ ih => exact ih hts
  | product _ ho _ ihe ihf =>
    obtain ⟨hl, hop, hr⟩ := by simpa only [spelled_append, spelled_cons] using hts
    have hword := hop.of_class (P := multiplicativeOperators.contains) (by decide) (by decide) ho
    rw [Expr.isSource, hword, ihe hl, ihf hr, Bool.or_true]
    rfl
  | sum _ ho _ ihe ihf =>
    obtain ⟨hl, hop, hr⟩ := by simpa only [spelled_append, spelled_cons] using hts
    have hword := hop.of_class (P := additiveOperators.contains) (by decide) (by decide) ho
    rw [Expr.isSource, hword, ihe hl, ihf hr, Bool.true_or]
    rfl
  | comparison _ ho _ ihe ihf =>
    obtain ⟨hl, hop, hr⟩ := by simpa only [spelled_append, spelled_cons] using hts
    have hword := hop.of_class (P := comparisonOperators.contains) (by decide) (by decide) ho
    rw [Expr.isSource, hword, ihe hl, ihf hr]
    rfl

theorem DottedName.isSource {name : List Token} (h : DottedName name) (hts : ∀ t ∈ name, t.Spelled) :
    (nameParts (String.join (name.map Token.lexeme))).all isName := by
  rw [h.nameParts_eq, List.all_map, List.all_eq_true]
  · intro t ht
    rw [List.mem_filter, decide_eq_true_eq] at ht
    exact (hts t ht.1).isName ht.2
  · exact fun t ht hk => (hts t ht).divisible.2.1 hk
  · exact fun t ht hk => (hts t ht).divisible.2.2 hk

theorem ReadsArguments.isSource {ts : List Token} {es : List Expr} (h : ReadsArguments ts es)
    (hts : ∀ t ∈ ts, t.Spelled) : es.all Expr.isSource := by
  induction h with
  | none => rfl
  | last h => simp [h.isSource hts]
  | cons h _ _ ih =>
    obtain ⟨hl, -, hr⟩ := by simpa only [spelled_append, spelled_cons] using hts
    simpa [h.isSource hl] using ih hr

theorem Modifiers.isSource {ms : List Token} (h : Modifiers ms) (hts : ∀ t ∈ ms, t.Spelled) :
    (ms.map Word.ofToken).all fun m => (TokenKind.ofWord m.text).isModifier := by
  rw [List.all_map, List.all_eq_true]
  intro t ht
  exact (hts t ht).of_class (P := fun w => (TokenKind.ofWord w).isModifier) (by decide) (by decide) (h t ht)

theorem areSource_eq (body : List Stmt) : Stmt.areSource body = body.all Stmt.isSource := by
  induction body with
  | nil => rfl
  | cons st body ih => rw [Stmt.areSource, ih, List.all_cons]

theorem areSource_map {body : List (List Token × Stmt)} (h : ∀ x ∈ body, (∀ t ∈ x.1, t.Spelled) → x.2.isSource)
    (hts : ∀ t ∈ body.flatMap Prod.fst, t.Spelled) : Stmt.areSource (body.map Prod.snd) := by
  rw [areSource_eq, List.all_map, List.all_eq_true]
  exact fun x hx => h x hx fun t ht => hts t (List.mem_flatMap.mpr ⟨x, hx, ht⟩)

theorem Token.Spelled.isType {t : Token} (h : t.Spelled) (hk : t.kind.isType) : (TokenKind.ofWord t.lexeme).isType :=
  h.of_class (P := fun w => (TokenKind.ofWord w).isType) (by decide) (by decide) hk

theorem Token.Spelled.ne_void {t : Token} (h : t.Spelled) (hk : t.kind.isType) (hv : t.kind ≠ .kwVoid) :
    TokenKind.ofWord t.lexeme ≠ .kwVoid := by
  have := h.of_class (K := fun k => k.isType && k != .kwVoid) (P := fun w => TokenKind.ofWord w != .kwVoid)
    (by decide) (by decide) (by simp [hk, hv])
  simpa using this

/-- A program that is read from the tokens of a text can be written. -/
theorem ReadsStmt.isSource {ts : List Token} {st : Stmt} (h : ReadsStmt ts st) (hts : ∀ t ∈ ts, t.Spelled) :
    st.isSource := by
  induction h with
  | classDecl hms _ hname _ _ _ ih =>
    simp only [spelled_append, spelled_cons] at hts
    obtain ⟨hm, -, hn, -, hb, -⟩ := hts
    simp [Stmt.isSource, hn.isName hname, hms.isSource hm, areSource_map ih hb]
  | @methodDecl _ _ type _ _ _ _ _ _ hms htype hname _ _ _ _ _ _ ih =>
    simp only [spelled_append, spelled_cons] at hts
    obtain ⟨hm, ht, hn, -, -, -, -, hb, -⟩ := hts
    have hreturn : (TokenKind.ofWord (Word.ofToken type).text).isType := ht.isType htype
    simp [Stmt.isSource, hn.isName hname, hreturn, hms.isSource hm, areSource_map ih hb]
  | declaration htype hvoid hname _ =>
    simp only [spelled_cons] at hts
    obtain ⟨ht, hn, -⟩ := hts
    simp [Stmt.isSource, ht.isType htype, ht.ne_void htype hvoid, hn.isName hname]
  | initialized htype hvoid hname _ he _ =>
    simp only [spelled_append, spelled_cons] at hts
    obtain ⟨ht, hn, -, hval, -⟩ := hts
    simp [Stmt.isSource, ht.isType htype, ht.ne_void htype hvoid, hn.isName hname, he.isSource hval]
  | whileLoop _ _ _ he _ _ ih =>
    simp only [spelled_append, spelled_cons] at hts
    obtain ⟨-, -, -, htest, -, hb⟩ := hts
    simp [Stmt.isSource, Stmt.isSourceIn, he.isSource htest, ih hb]
  | ifThen _ _ _ he _ _ ih =>
    simp only [spelled_append, spelled_cons] at hts
    obtain ⟨-, -, -, htest, -, ha⟩ := hts
    simp [Stmt.isSource, Stmt.isSourceIn, he.isSource htest, ih ha]
  | ifElse _ _ _ he _ _ hopen _ _ iha ihb =>
    simp only [spelled_append, spelled_cons] at hts
    obtain ⟨-, -, -, htest, -, ha, -, hb⟩ := hts
    simp [Stmt.isSource, Stmt.isSourceIn, Stmt.endsOpenIn, he.isSource htest, iha ha, ihb hb, hopen]
  | block _ _ _ _ ih =>
    simp only [spelled_append, spelled_cons] at hts
    exact areSource_map ih hts.2.2.1
  | methodCall _ hname _ h _ _ =>
    simp only [spelled_append, spelled_cons] at hts
    obtain ⟨-, hn, -, hargs, -⟩ := hts
    rw [Stmt.isSource, hname.isSource hn, h.isSource hargs]
    rfl
  | assignment _ hname _ he _ =>
    simp only [spelled_append, spelled_cons] at hts
    obtain ⟨-, hn, -, hval, -⟩ := hts
    simp [Stmt.isSource, hn.isName hname, he.isSource hval]
  | increment _ hname | decrement _ hname =>
    simp only [spelled_append, spelled_cons] at hts
    exact hts.2.1.isName hname

theorem ReadsProgram.isSource {ts : List Token} {p : Program} (h : ReadsProgram ts p) (hts : ∀ t ∈ ts, t.Spelled) :
    p.isSource := by
  obtain ⟨body, hbody, rfl, rfl⟩ := h
  exact areSource_map (fun x hx => (hbody x hx).isSource) hts

/-! ### What can be written has a well-formed tree -/

section
variable {P : Tree → Prop} {kind : NodeKind} {value : String} {line : Int} {t : Tree} {ts us : List Tree}

theorem forall_preorder : (∀ u ∈ (Tree.node kind value line ts).preorder, P u) ↔
    P (.node kind value line ts) ∧ ∀ u ∈ Tree.preorders ts, P u :=
  List.forall_mem_cons

theorem forall_preorders_nil : ∀ u ∈ Tree.preorders [], P u := fun _ hu => by cases hu

theorem forall_preorders_cons : (∀ u ∈ Tree.preorders (t :: ts), P u) ↔
    (∀ u ∈ t.preorder, P u) ∧ ∀ u ∈ Tree.preorders ts, P u :=
  List.forall_mem_append

theorem forall_preorders_append : (∀ u ∈ Tree.preorders (ts ++ us), P u) ↔
    (∀ u ∈ Tree.preorders ts, P u) ∧ ∀ u ∈ Tree.preorders us, P u := by
  rw [Tree.preorders_append]
  exact List.forall_mem_append

theorem forall_leaf : (∀ u ∈ (Tree.leaf kind value line).preorder, P u) ↔ P (.leaf kind value line) :=
  forall_preorder.trans (and_iff_left forall_preorders_nil)

theorem forall_label : (∀ u ∈ (Tree.label kind t).preorder, P u) ↔ P (.label kind t) ∧ ∀ u ∈ t.preorder, P u :=
  forall_preorder.trans (and_congr_right fun _ => forall_preorders_cons.trans (and_iff_left forall_preorders_nil))

end

theorem wellFormed_expr (e : Expr) (he : e.isSource) : ∀ t ∈ e.toTree.preorder, t.WellFormed := by
  induction e with
  | number | identifier | string => exact forall_leaf.mpr trivial
  | postIncrement | postDecrement => exact forall_label.mpr ⟨trivial, forall_leaf.mpr trivial⟩
  | binary operator left right ihl ihr | comparison operator left right ihl ihr =>
    simp only [Expr.isSource, Bool.and_eq_true] at he
    refine forall_preorder.mpr ⟨trivial, forall_preorders_cons.mpr ⟨ihl he.1.2, ?_⟩⟩
    exact forall_preorders_cons.mpr ⟨ihr he.2, forall_preorders_nil⟩
  | error => cases he

theorem wellFormed_arguments {es : List Expr} (hes : es.all Expr.isSource) :
    ∀ t ∈ Tree.preorders (es.map fun e => .label .argument e.toTree), t.WellFormed := by
  induction es with
  | nil => exact forall_preorders_nil
  | cons e es ih =>
    rw [List.all_cons, Bool.and_eq_true] at hes
    exact forall_preorders_cons.mpr ⟨forall_label.mpr ⟨trivial, wellFormed_expr e hes.1⟩, ih hes.2⟩

theorem wellFormed_modifiers (ms : List Word) :
    ∀ t ∈ Tree.preorders (ms.map (Word.toTree .modifier)), t.WellFormed := by
  induction ms with
  | nil => exact forall_preorders_nil
  | cons m ms ih => exact forall_preorders_cons.mpr ⟨forall_leaf.mpr trivial, ih⟩

/-- A tree ends in an open conditional just if the statement does. -/
theorem endsOpen_toTree (st : Stmt) : st.toTree.endsOpen = st.endsOpen := by
  match st with
  | .whileLoop c (some b) _ | .ifElse c none (some b) _ | .ifElse c (some _) (some b) _ =>
    simpa [Stmt.toTree, Stmt.toBranch, Tree.label, Tree.endsOpen, Tree.lastEndsOpen, Tree.kind, Stmt.endsOpen,
      Stmt.endsOpenIn] using endsOpen_toTree b
  | .whileLoop _ none _ | .ifElse _ none none _ | .ifElse _ (some _) none _ =>
    simp [Stmt.toTree, Stmt.toBranch, Tree.label, Tree.endsOpen, Tree.lastEndsOpen, Tree.kind, Stmt.endsOpen,
      Stmt.endsOpenIn]
  | .classDecl .. | .methodDecl .. | .declaration .. | .block .. | .methodCall .. | .assignment .. | .increment ..
  | .decrement .. => rfl

mutual
theorem wellFormed_stmt (st : Stmt) (hst : st.isSource) : ∀ t ∈ st.toTree.preorder, t.WellFormed := by
  match st with
  | .classDecl name ms body line =>
    simp only [Stmt.isSource, Bool.and_eq_true] at hst
    exact forall_preorder.mpr ⟨hst.1.1,
      forall_preorders_append.mpr ⟨wellFormed_modifiers ms, wellFormed_body body hst.2⟩⟩
  | .methodDecl name type ms body line =>
    simp only [Stmt.isSource, Bool.and_eq_true] at hst
    refine forall_preorder.mpr ⟨hst.1.1.1, forall_preorders_cons.mpr ⟨forall_leaf.mpr hst.1.1.2, ?_⟩⟩
    exact forall_preorders_append.mpr ⟨wellFormed_modifiers ms, wellFormed_body body hst.2⟩
  | .declaration type name e line =>
    simp only [Stmt.isSource, Bool.and_eq_true, bne_iff_ne] at hst
    refine forall_preorder.mpr ⟨⟨type, name, rfl, hst.1.1.1, hst.1.1.2, hst.1.2⟩, ?_⟩
    cases e with
    | none => exact forall_preorders_nil
    | some e => exact forall_preorders_cons.mpr ⟨wellFormed_expr e hst.2, forall_preorders_nil⟩
  | .whileLoop c (some b) line =>
    simp only [Stmt.isSource, Bool.and_eq_true, Stmt.isSourceIn] at hst
    refine forall_preorder.mpr ⟨rfl, forall_preorders_cons.mpr ⟨?_, forall_preorders_cons.mpr ⟨?_, ?_⟩⟩⟩
    · exact forall_label.mpr ⟨trivial, wellFormed_expr c hst.1.1⟩
    · exact forall_label.mpr ⟨trivial, wellFormed_stmt b hst.2⟩
    · exact forall_preorders_nil
  | .ifElse c (some a) none line =>
    simp only [Stmt.isSource, Bool.and_eq_true, Stmt.isSourceIn] at hst
    refine forall_preorder.mpr ⟨.inl rfl, forall_preorders_cons.mpr ⟨?_, forall_preorders_cons.mpr ⟨?_, ?_⟩⟩⟩
    · exact forall_label.mpr ⟨trivial, wellFormed_expr c hst.1.1.1.1⟩
    · exact forall_label.mpr ⟨trivial, wellFormed_stmt a hst.1.1.2⟩
    · exact forall_preorders_nil
  | .ifElse c (some a) (some b) line =>
    simp only [Stmt.isSource, Bool.and_eq_true, Stmt.isSourceIn, Option.isNone_some, Bool.false_or, Bool.not_eq_true',
      Stmt.endsOpenIn] at hst
    have hopen : (Tree.label .thenBranch a.toTree).endsOpen = false := (endsOpen_toTree a).trans hst.2
    refine forall_preorder.mpr ⟨.inr ⟨rfl, ?_⟩, forall_preorders_cons.mpr ⟨?_, forall_preorders_cons.mpr ⟨?_,
      forall_preorders_cons.mpr ⟨?_, forall_preorders_nil⟩⟩⟩⟩
    · rintro branch hbranch
      cases hbranch
      exact hopen
    · exact forall_label.mpr ⟨trivial, wellFormed_expr c hst.1.1.1.1⟩
    · exact forall_label.mpr ⟨trivial, wellFormed_stmt a hst.1.1.2⟩
    · exact forall_label.mpr ⟨trivial, wellFormed_stmt b hst.1.2⟩
  | .whileLoop _ none _ | .ifElse _ none _ _ => simp [Stmt.isSource] at hst
  | .block body line => exact forall_preorder.mpr ⟨trivial, wellFormed_body body hst⟩
  | .methodCall name es line =>
    simp only [Stmt.isSource, Bool.and_eq_true] at hst
    exact forall_preorder.mpr ⟨hst.1, wellFormed_arguments hst.2⟩
  | .assignment name e line =>
    simp only [Stmt.isSource, Bool.and_eq_true] at hst
    exact forall_preorder.mpr ⟨hst.1, forall_preorders_cons.mpr ⟨wellFormed_expr e hst.2, forall_preorders_nil⟩⟩
  | .increment name line | .decrement name line => exact forall_leaf.mpr hst

theorem wellFormed_body (body : List Stmt) (hbody : Stmt.areSource body) :
    ∀ t ∈ Tree.preorders (Stmt.toTrees body), t.WellFormed := by
  match body with
  | [] => exact forall_preorders_nil
  | st :: body =>
    simp only [Stmt.areSource, Bool.and_eq_true] at hbody
    exact forall_preorders_cons.mpr ⟨wellFormed_stmt st hbody.1, wellFormed_body body hbody.2⟩
end

/-- If the parse of a text reports nothing, then there is a tree, and all of its nodes are well-formed. It is the tree of
    a program that can be written. -/
theorem wellFormed_of_diagnostics_nil (s : Source) (h : (s.parse none).diagnostics = []) :
    ∃ p : Program, (s.parse none).root = some p.toTree ∧ p.isSource ∧ ∀ t ∈ p.toTree.preorder, t.WellFormed := by
  obtain ⟨p, d, ha⟩ := accepts_of_diagnostics_nil h
  have hspelled : ∀ t ∈ s.tokens.takeWhile (·.kind != .eof), t.Spelled :=
    fun t ht => spelled_tokens s t ((List.takeWhile_prefix _).subset ht)
  have hp : p.isSource := (reads_of_accepts ha).isSource hspelled
  obtain ⟨log, hdone, -⟩ := ha
  refine ⟨p, ?_, hp, forall_preorder.mpr ⟨trivial, wellFormed_body p hp⟩⟩
  simp [Source.parse, Report.root, Report.ofTokens, Report.ofOutcome, hdone, Except.toOption]

/-- A loop stands between a conditional and its `else`. Nothing is reported, and the tree is well-formed. -/
theorem wellFormed_of_diagnostics_nil_else :
    let s := Source.mk "x"
      "class A \x7b void m(int n) \x7b int i = 1; if (b) while (i < 9) a.f(\"x\", i++); else i--; \x7d \x7d"
    (s.parse none).diagnostics = [] ∧
      ∃ p : Program, (s.parse none).root = some p.toTree ∧ p.isSource ∧ ∀ t ∈ p.toTree.preorder, t.WellFormed := by
  intro s
  have hnil : (s.parse none).diagnostics = [] := by decide +kernel
  exact ⟨hnil, wellFormed_of_diagnostics_nil s hnil⟩

end Curly
