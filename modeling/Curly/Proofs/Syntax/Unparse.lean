import Curly.Proofs.Token.Layout
import Curly.Syntax.Unparse

/-! The words of a program are read as that program. Main statements: `reads_program`, `layout_unparse`. -/

namespace Curly

/-! ### Words and tokens -/

/-- The word is a lexeme. -/
def IsWord (word : String) : Prop := ∃ l : Lexeme, l.Proper ∧ l.text = word.toList

/-- Every one of the words is a lexeme. -/
def AllWords (words : List String) : Prop := ∀ w ∈ words, IsWord w

@[simp] theorem allWords_nil : AllWords [] := by
  intro w hw
  cases hw

@[simp] theorem allWords_cons {word : String} {words : List String} :
    AllWords (word :: words) ↔ IsWord word ∧ AllWords words :=
  List.forall_mem_cons

@[simp] theorem allWords_append {words more : List String} :
    AllWords (words ++ more) ↔ AllWords words ∧ AllWords more :=
  List.forall_mem_append

theorem IsWord.text_ofWord {word : String} (h : IsWord word) : (Lexeme.ofWord word).text = word.toList := by
  rcases h with ⟨l, hl, hword⟩
  rw [hl.ofWord hword, hword]

/-- The tokens are what the words read as. -/
def Writes (words : List String) (ts : List Token) : Prop := ts.map Token.lexemeOf = words.map Lexeme.ofWord

theorem writes_nil {ts : List Token} (h : Writes [] ts) : ts = [] := List.map_eq_nil_iff.mp h

theorem writes_cons {word : String} {words : List String} {ts : List Token} (h : Writes (word :: words) ts) :
    ∃ t us, ts = t :: us ∧ t.lexemeOf = Lexeme.ofWord word ∧ Writes words us :=
  List.map_eq_cons_iff.mp h

theorem writes_append {words more : List String} {ts : List Token} (h : Writes (words ++ more) ts) :
    ∃ us vs, ts = us ++ vs ∧ Writes words us ∧ Writes more vs := by
  unfold Writes at h
  rw [List.map_append] at h
  exact List.map_eq_append_iff.mp h

theorem writes_single {word : String} {ts : List Token} (h : Writes [word] ts) :
    ∃ t, ts = [t] ∧ t.lexemeOf = Lexeme.ofWord word := by
  rcases writes_cons h with ⟨t, us, rfl, ht, hus⟩
  rw [writes_nil hus]
  exact ⟨t, rfl, ht⟩

theorem kind_eq {t : Token} {word : String} {kind : TokenKind} (h : t.lexemeOf = Lexeme.ofWord word)
    (hk : (Lexeme.ofWord word).kind = kind) : t.kind = kind :=
  (congrArg Lexeme.kind h).trans hk

theorem lexeme_eq {t : Token} {word : String} (h : t.lexemeOf = Lexeme.ofWord word) (hw : IsWord word) :
    t.lexeme = word :=
  String.toList_inj.mp ((congrArg Lexeme.text h).trans hw.text_ofWord)

theorem lexemes_eq {words : List String} {ts : List Token} (h : Writes words ts) (hw : AllWords words) :
    ts.map Token.lexeme = words := by
  induction words generalizing ts with
  | nil => rw [writes_nil h, List.map_nil]
  | cons word words ih =>
    rcases allWords_cons.mp hw with ⟨hword, hwords⟩
    rcases writes_cons h with ⟨t, us, rfl, ht, hus⟩
    rw [List.map_cons, lexeme_eq ht hword, ih hus hwords]

/-! ### The words of programs -/

theorem isWord_of_parts {word : String} {c : Char} {rest : List Char} (hw : word.toList = c :: rest)
    (hc : Lexeme.isWordStart c) (h : ∀ d ∈ rest, Lexeme.isWordPart d) :
    IsWord word ∧ (Lexeme.ofWord word).kind = TokenKind.ofWord word := by
  have hword : String.ofList (c :: rest) = word := by rw [← hw, String.ofList_toList]
  have hl := Lexeme.Proper.word hc h
  rw [hword] at hl
  refine ⟨⟨_, hl, hw.symm⟩, ?_⟩
  rw [hl.ofWord hw.symm, Lexeme.plain]

theorem isWord_name {name : String} (h : isName name) :
    IsWord name ∧ (Lexeme.ofWord name).kind = .identifier := by
  unfold isName at h
  cases hn : name.toList with
  | nil =>
    rw [hn] at h
    cases h
  | cons c rest =>
    simp only [hn, Bool.and_eq_true, List.all_eq_true, Option.isNone_iff_eq_none] at h
    rcases isWord_of_parts hn h.1.1 h.1.2 with ⟨hword, hkind⟩
    refine ⟨hword, ?_⟩
    rw [hkind, TokenKind.ofWord, h.2, Option.getD_none]

theorem isWord_number {text : String} (h : isNumber text) :
    IsWord text ∧ (Lexeme.ofWord text).kind = .number := by
  simp only [isNumber, Bool.and_eq_true, bne_iff_ne, ne_eq, List.all_eq_true] at h
  cases ht : text.toList with
  | nil => exact absurd (String.toList_eq_nil_iff.mp ht) h.1
  | cons c rest =>
    rw [ht] at h
    have hl := Lexeme.Proper.number (h.2 c List.mem_cons_self) fun d hd => h.2 d (List.mem_cons_of_mem _ hd)
    refine ⟨⟨_, hl, ht.symm⟩, ?_⟩
    rw [hl.ofWord ht.symm, Lexeme.plain]

theorem isWord_quoted (text : String) :
    IsWord (quoted text) ∧ Lexeme.ofWord (quoted text) = ⟨.stringLiteral, (quoted text).toList, text.toList⟩ := by
  have hl := Lexeme.Proper.string text.toList
  have ht : '"' :: (Lexeme.escape text.toList ++ ['"']) = (quoted text).toList := by rw [quoted, String.toList_ofList]
  refine ⟨⟨_, hl, ht⟩, ?_⟩
  rw [hl.ofWord ht, ht]

theorem isWord_keyword {word : String} {kind : TokenKind} (h : TokenKind.keywords.lookup word = some kind) :
    IsWord word ∧ (Lexeme.ofWord word).kind = kind := by
  have hall : TokenKind.keywords.all (fun x => x.1.toList.head?.any Lexeme.isWordStart &&
      x.1.toList.all Lexeme.isWordPart) := by rfl
  have hword := List.all_eq_true.mp hall _ (TokenKind.mem_of_lookup h)
  rw [Bool.and_eq_true, List.all_eq_true] at hword
  rcases hword with ⟨hstart, hparts⟩
  cases hw : word.toList with
  | nil => simp [hw] at hstart
  | cons c rest =>
    simp only [hw, List.head?_cons, Option.any_some] at hstart hparts
    rcases isWord_of_parts hw hstart fun d hd => hparts d (List.mem_cons_of_mem _ hd) with ⟨hword, hkind⟩
    refine ⟨hword, ?_⟩
    rw [hkind, TokenKind.ofWord, h, Option.getD_some]

/-- The words with a spelling of their own: keywords, operators and punctuation. -/
def isFixed (word : String) : Bool :=
  (TokenKind.keywords.lookup word).isSome ||
    match word.toList with
    | [c] => (TokenKind.ofChar? c).isSome
    | [c, d] => (TokenKind.ofPair? c d).isSome
    | _ => false

theorem isWord_fixed {word : String} (h : isFixed word) : IsWord word := by
  unfold isFixed at h
  rw [Bool.or_eq_true] at h
  rcases h with h | h
  · rcases Option.isSome_iff_exists.mp h with ⟨kind, hkind⟩
    exact (isWord_keyword hkind).1
  · split at h
    · next c hw =>
      rcases Option.isSome_iff_exists.mp h with ⟨kind, hkind⟩
      exact ⟨_, .char hkind, hw.symm⟩
    · next c d hw =>
      rcases Option.isSome_iff_exists.mp h with ⟨kind, hkind⟩
      exact ⟨_, .pair hkind, hw.symm⟩
    · cases h

/-- A modifier or a type. -/
theorem isWord_class {word : String} {admits : TokenKind → Bool} (hn : admits .identifier = false)
    (h : admits (TokenKind.ofWord word)) : IsWord word ∧ (Lexeme.ofWord word).kind = TokenKind.ofWord word := by
  unfold TokenKind.ofWord at h ⊢
  cases hk : TokenKind.keywords.lookup word with
  | none =>
    rw [hk, Option.getD_none, hn] at h
    cases h
  | some kind => exact isWord_keyword hk

theorem isWord_operator {operators : List String} {admits : TokenKind → Bool}
    (hall : ∀ x ∈ operators, isFixed x ∧ admits (Lexeme.ofWord x).kind) {operator : String}
    (h : operators.contains operator) : IsWord operator ∧ admits (Lexeme.ofWord operator).kind := by
  rcases hall operator (List.contains_iff_mem.mp h) with ⟨hf, hk⟩
  exact ⟨isWord_fixed hf, hk⟩

theorem isWord_additive {operator : String} (h : additiveOperators.contains operator) :
    IsWord operator ∧ (Lexeme.ofWord operator).kind.isAdditive :=
  isWord_operator (by decide) h

theorem isWord_multiplicative {operator : String} (h : multiplicativeOperators.contains operator) :
    IsWord operator ∧ (Lexeme.ofWord operator).kind.isMultiplicative :=
  isWord_operator (by decide) h

theorem isWord_comparison {operator : String} (h : comparisonOperators.contains operator) :
    IsWord operator ∧ (Lexeme.ofWord operator).kind.isComparison :=
  isWord_operator (by decide) h

/-! ### Expressions -/

/-- The token of a name. -/
theorem reads_name {t : Token} {name : String} (h : t.lexemeOf = Lexeme.ofWord name) (hname : isName name) :
    t.kind = .identifier ∧ t.lexeme = name :=
  ⟨kind_eq h (isWord_name hname).2, lexeme_eq h (isWord_name hname).1⟩

/-- The tokens are read as an expression of the same tree, up to its lines. -/
def ReadsAs (level : Level) (ts : List Token) (e : Expr) : Prop :=
  ∃ e', ReadsExpr level ts e' ∧ e'.toTree.unlined = e.toTree.unlined

/-- An expression is also one of any looser level. -/
theorem ReadsAs.raise {inner outer : Level} {ts : List Token} {e : Expr} (h : ReadsAs inner ts e)
    (hle : inner.rank ≤ outer.rank) : ReadsAs outer ts e := by
  rcases h with ⟨e', hread, htree⟩
  refine ⟨e', ?_, htree⟩
  cases inner <;> cases outer <;> first
    | exact hread
    | exact absurd hle (by decide)
    | exact .ofFactor hread
    | exact .ofTerm hread
    | exact .ofExpression hread
    | exact .ofTerm (.ofFactor hread)
    | exact .ofExpression (.ofTerm hread)
    | exact .ofExpression (.ofTerm (.ofFactor hread))

theorem reads_enclose {inner outer : Level} {words : List String} {e : Expr} {ts : List Token}
    (h : ∀ us, Writes words us → ReadsAs inner us e) (ht : Writes (enclose outer inner words) ts) :
    ReadsAs outer ts e := by
  unfold enclose at ht
  split at ht
  · next hle => exact (h ts ht).raise hle
  · rcases writes_cons ht with ⟨l, vs, rfl, hl, hvs⟩
    rcases writes_append hvs with ⟨us, vs, rfl, hus, hvs⟩
    rcases writes_single hvs with ⟨r, rfl, hr⟩
    have hcondition : ReadsAs .condition us e := (h us hus).raise (by cases inner <;> decide)
    rcases hcondition with ⟨e', hread, htree⟩
    have hfactor : ReadsAs .factor (l :: (us ++ [r])) e :=
      ⟨e', .parenthesized (kind_eq hl (by decide)) hread (kind_eq hr (by decide)), htree⟩
    exact hfactor.raise (Nat.zero_le _)

/-- The tokens of two operands and of the operator between them. -/
theorem reads_operands {a b : Level} {operator : String} {admits : TokenKind → Bool}
    (hoperator : IsWord operator ∧ admits (Lexeme.ofWord operator).kind) {l r : Expr}
    (hl : ∀ us, Writes l.words us → ReadsAs l.level us l) (hr : ∀ us, Writes r.words us → ReadsAs r.level us r)
    {ts : List Token} (h : Writes (enclose a l.level l.words ++ operator :: enclose b r.level r.words) ts) :
    ∃ us o vs l' r', ts = us ++ o :: vs ∧ admits o.kind ∧ o.lexeme = operator ∧
      (ReadsExpr a us l' ∧ l'.toTree.unlined = l.toTree.unlined) ∧
      ReadsExpr b vs r' ∧ r'.toTree.unlined = r.toTree.unlined := by
  rcases writes_append h with ⟨us, vs, rfl, hus, hvs⟩
  rcases writes_cons hvs with ⟨o, vs, rfl, ho, hvs⟩
  rcases reads_enclose hl hus with ⟨l', hleft⟩
  rcases reads_enclose hr hvs with ⟨r', hright⟩
  exact ⟨us, o, vs, l', r', rfl, by rw [kind_eq ho rfl]; exact hoperator.2, lexeme_eq ho hoperator.1, hleft, hright⟩

theorem reads_words (e : Expr) (he : e.isSource) {ts : List Token} (h : Writes e.words ts) :
    ReadsAs e.level ts e := by
  induction e generalizing ts with
  | number text line =>
    rcases writes_single h with ⟨t, rfl, ht⟩
    rcases isWord_number he with ⟨hw, hk⟩
    refine ⟨_, .number (kind_eq ht hk), ?_⟩
    rw [lexeme_eq ht hw]
    rfl
  | identifier name line =>
    rcases writes_single h with ⟨t, rfl, ht⟩
    rcases reads_name ht he with ⟨hk, hname⟩
    refine ⟨_, .identifier hk, ?_⟩
    rw [hname]
    rfl
  | string text line =>
    rcases writes_single h with ⟨t, rfl, ht⟩
    rcases isWord_quoted text with ⟨hw, hq⟩
    rw [hq] at ht
    have hvalue : t.value = text := String.toList_inj.mp (congrArg Lexeme.value ht)
    refine ⟨_, .string (congrArg Lexeme.kind ht), ?_⟩
    rw [hvalue]
    rfl
  | postIncrement name line =>
    rcases writes_cons h with ⟨t, us, rfl, ht, hus⟩
    rcases writes_single hus with ⟨u, rfl, hu⟩
    rcases reads_name ht he with ⟨hk, hname⟩
    refine ⟨_, .postIncrement hk (kind_eq hu (by decide)), ?_⟩
    rw [hname]
    rfl
  | postDecrement name line =>
    rcases writes_cons h with ⟨t, us, rfl, ht, hus⟩
    rcases writes_single hus with ⟨u, rfl, hu⟩
    rcases reads_name ht he with ⟨hk, hname⟩
    refine ⟨_, .postDecrement hk (kind_eq hu (by decide)), ?_⟩
    rw [hname]
    rfl
  | binary operator left right ihl ihr =>
    simp only [Expr.isSource, Bool.and_eq_true, Bool.or_eq_true] at he
    rcases he with ⟨⟨hop, hl⟩, hr⟩
    rw [Expr.words] at h
    rw [Expr.level]
    split at h
    · next hadd =>
      rw [if_pos hadd]
      rcases reads_operands (isWord_additive hadd) (fun _ => ihl hl) (fun _ => ihr hr) h with
        ⟨us, o, vs, l, r, rfl, ho, hlexeme, ⟨hreadl, htreel⟩, hreadr, htreer⟩
      refine ⟨_, .sum hreadl ho hreadr, ?_⟩
      simp only [Expr.toTree, Tree.unlined, Tree.unlineds, hlexeme, htreel, htreer]
    · next hadd =>
      rw [if_neg hadd]
      have hmul := isWord_multiplicative (hop.resolve_left hadd)
      rcases reads_operands hmul (fun _ => ihl hl) (fun _ => ihr hr) h with
        ⟨us, o, vs, l, r, rfl, ho, hlexeme, ⟨hreadl, htreel⟩, hreadr, htreer⟩
      refine ⟨_, .product hreadl ho hreadr, ?_⟩
      simp only [Expr.toTree, Tree.unlined, Tree.unlineds, hlexeme, htreel, htreer]
  | comparison operator left right ihl ihr =>
    simp only [Expr.isSource, Bool.and_eq_true] at he
    rcases he with ⟨⟨hop, hl⟩, hr⟩
    rcases reads_operands (isWord_comparison hop) (fun _ => ihl hl) (fun _ => ihr hr) h with
      ⟨us, o, vs, l, r, rfl, ho, hlexeme, ⟨hreadl, htreel⟩, hreadr, htreer⟩
    refine ⟨_, .comparison hreadl ho hreadr, ?_⟩
    simp only [Expr.toTree, Tree.unlined, Tree.unlineds, hlexeme, htreel, htreer]
  | error line => cases he

/-- The value of an expression is read where no comparison may stand. -/
theorem reads_value {e : Expr} (he : e.isSource) {ts : List Token} (h : Writes e.valueWords ts) :
    ReadsAs .expression ts e :=
  reads_enclose (fun _ => reads_words e he) h

theorem reads_condition {e : Expr} (he : e.isSource) {ts : List Token} (h : Writes e.words ts) :
    ReadsAs .condition ts e :=
  (reads_words e he h).raise (by cases e.level <;> decide)

/-! ### The parts of statements -/

theorem reads_arguments (es : List Expr) (hes : es.all Expr.isSource) {ts : List Token}
    (h : Writes (Expr.argumentWords es) ts) :
    ∃ es', ReadsArguments ts es' ∧ es'.map (fun e => e.toTree.unlined) = es.map fun e => e.toTree.unlined := by
  induction es generalizing ts with
  | nil =>
    rw [writes_nil h]
    exact ⟨[], .none, rfl⟩
  | cons e es ih =>
    rw [List.all_cons, Bool.and_eq_true] at hes
    cases es with
    | nil =>
      rcases reads_value hes.1 h with ⟨e', hread, htree⟩
      exact ⟨[e'], .last hread, by rw [List.map_singleton, List.map_singleton, htree]⟩
    | cons f es =>
      rw [Expr.argumentWords] at h
      · rcases writes_append h with ⟨us, vs, rfl, hus, hvs⟩
        rcases writes_cons hvs with ⟨o, vs, rfl, ho, hvs⟩
        rcases reads_value hes.1 hus with ⟨e', hread, htree⟩
        rcases ih hes.2 hvs with ⟨es', hreads, htrees⟩
        refine ⟨e' :: es', .cons hread (kind_eq ho (by decide)) hreads, ?_⟩
        rw [List.map_cons, htree, htrees]
        rfl
      · simp

theorem reads_modifiers (ms : List Word) (hms : ms.all fun m => (TokenKind.ofWord m.text).isModifier)
    {ts : List Token} (h : Writes (ms.map Word.text) ts) : Modifiers ts ∧
      Tree.unlineds ((ts.map Word.ofToken).map (Word.toTree .modifier)) =
        Tree.unlineds (ms.map (Word.toTree .modifier)) := by
  induction ms generalizing ts with
  | nil =>
    rw [writes_nil h]
    exact ⟨modifiers_nil, rfl⟩
  | cons m ms ih =>
    rw [List.all_cons, Bool.and_eq_true] at hms
    rcases writes_cons h with ⟨t, us, rfl, ht, hus⟩
    rcases isWord_class rfl hms.1 with ⟨hw, hk⟩
    rcases ih hms.2 hus with ⟨hmods, htrees⟩
    refine ⟨List.forall_mem_cons.mpr ⟨by rw [kind_eq ht hk]; exact hms.1, hmods⟩, ?_⟩
    simp only [List.map_cons, Tree.unlineds, htrees, Word.toTree, Word.ofToken, lexeme_eq ht hw, Tree.leaf,
      Tree.unlined]

theorem reads_names {parts : List String} (hne : parts ≠ []) (hparts : parts.all isName) {ts : List Token}
    (h : Writes (parts.intersperse ".") ts) : DottedName ts := by
  induction parts generalizing ts with
  | nil => exact absurd rfl hne
  | cons part parts ih =>
    rw [List.all_cons, Bool.and_eq_true] at hparts
    have hk := (isWord_name hparts.1).2
    cases parts with
    | nil =>
      rcases writes_single h with ⟨t, rfl, ht⟩
      exact .single (kind_eq ht hk)
    | cons next parts =>
      rw [List.intersperse_cons_cons] at h
      rcases writes_cons h with ⟨t, us, rfl, ht, hus⟩
      rcases writes_cons hus with ⟨dot, us, rfl, hdot, hus⟩
      exact .cons (kind_eq ht hk) (kind_eq hdot (by decide)) (ih (List.cons_ne_nil _ _) hparts.2 hus)

theorem allWords_names {parts : List String} (hparts : parts.all isName) : AllWords (parts.intersperse ".") := by
  induction parts with
  | nil => exact allWords_nil
  | cons part parts ih =>
    rw [List.all_cons, Bool.and_eq_true] at hparts
    have hpart := (isWord_name hparts.1).1
    cases parts with
    | nil => exact allWords_cons.mpr ⟨hpart, allWords_nil⟩
    | cons next parts =>
      rw [List.intersperse_cons_cons, allWords_cons, allWords_cons]
      exact ⟨hpart, isWord_fixed (by decide), ih hparts.2⟩

theorem join_intersperse (parts : List String) : String.join (parts.intersperse ".") = ".".intercalate parts := by
  induction parts with
  | nil => rfl
  | cons part parts ih =>
    cases parts with
    | nil => simp
    | cons next parts =>
      rw [List.intersperse_cons_cons, String.join_cons, String.join_cons, ih, String.intercalate_cons_cons,
        String.append_assoc]

/-- The words of a dotted name make up the name. -/
theorem join_nameParts (name : String) : String.join ((nameParts name).intersperse ".") = name := by
  rw [join_intersperse, ← String.toList_inj, String.toList_intercalate, nameParts, List.map_map]
  have hid : String.toList ∘ String.ofList = id := funext fun _ => String.toList_ofList
  rw [hid, List.map_id]
  exact List.intercalate_splitOn '.'

theorem nameParts_ne_nil (name : String) : nameParts name ≠ [] := by
  intro h
  exact List.splitOn_ne_nil _ _ (List.map_eq_nil_iff.mp h)

/-- The parts of a dotted name are its names, if dots stand for themselves and in no name. -/
theorem DottedName.nameParts_eq {name : List Token} (h : DottedName name)
    (hname : ∀ t ∈ name, t.kind = .identifier → '.' ∉ t.lexeme.toList)
    (hdot : ∀ t ∈ name, t.kind = .dot → t.lexeme = ".") :
    nameParts (String.join (name.map Token.lexeme)) = (name.filter (·.kind = .identifier)).map Token.lexeme := by
  induction h with
  | @single t hk =>
    have hsplit := List.splitOn_eq_singleton (hname t List.mem_cons_self hk)
    simp [nameParts, hk, hsplit]
  | @cons t dot ts hk hd _ ih =>
    obtain ⟨ht, hts⟩ := List.forall_mem_cons.mp hname
    obtain ⟨-, hdots⟩ := List.forall_mem_cons.mp hdot
    obtain ⟨hdot, hdots⟩ := List.forall_mem_cons.mp hdots
    have ih := ih (fun u hu => hts u (List.mem_cons_of_mem _ hu)) hdots
    simp only [nameParts, String.toList_join] at ih ⊢
    have hsplit := List.splitOn_append_cons_self_of_not_mem (ht hk) ((ts.map Token.lexeme).flatMap String.toList)
    simp [hk, hd, hdot hd, hsplit, ih]

/-! ### Statements -/

theorem unlineds_append (ts us : List Tree) : Tree.unlineds (ts ++ us) = Tree.unlineds ts ++ Tree.unlineds us := by
  induction ts with
  | nil => rfl
  | cons t ts ih => rw [List.cons_append, Tree.unlineds, ih, Tree.unlineds, List.cons_append]

theorem unlineds_arguments (es : List Expr) : Tree.unlineds (es.map fun e => .label .argument e.toTree) =
    (es.map fun e => e.toTree.unlined).map fun t => .node .argument "" 0 [t] := by
  induction es with
  | nil => rfl
  | cons e es ih =>
    rw [List.map_cons, Tree.unlineds, ih]
    rfl

/-- The tokens are read as a statement of the same tree, up to its lines, which leaves the same open. -/
def ReadsStmtAs (ts : List Token) (st : Stmt) : Prop :=
  ∃ st', ReadsStmt ts st' ∧ st'.toTree.unlined = st.toTree.unlined ∧ st'.endsOpen = st.endsOpen

/-- The tokens are read as statements of the same trees, one after another. -/
def ReadsBodyAs (ts : List Token) (body : List Stmt) : Prop :=
  ∃ body' : List (List Token × Stmt), (∀ x ∈ body', ReadsStmt x.1 x.2) ∧ ts = body'.flatMap Prod.fst ∧
    Tree.unlineds (Stmt.toTrees (body'.map Prod.snd)) = Tree.unlineds (Stmt.toTrees body)

/-- The token of a type. -/
theorem reads_type {t : Token} {type : String} (h : t.lexemeOf = Lexeme.ofWord type)
    (htype : (TokenKind.ofWord type).isType) : t.kind = TokenKind.ofWord type ∧ t.lexeme = type := by
  rcases isWord_class rfl htype with ⟨hw, hk⟩
  exact ⟨kind_eq h hk, lexeme_eq h hw⟩

/-- The tokens of a keyword and of a condition in parentheses behind it. -/
theorem reads_header {keyword : String} {kind : TokenKind} (hkind : (Lexeme.ofWord keyword).kind = kind) {c : Expr}
    (hc : c.isSource) {words : List String} {ts : List Token}
    (h : Writes (keyword :: "(" :: (c.words ++ ")" :: words)) ts) :
    ∃ kw l cs r us c', ts = kw :: l :: (cs ++ r :: us) ∧ Writes words us ∧ kw.kind = kind ∧ l.kind = .leftParen ∧
      r.kind = .rightParen ∧ ReadsExpr .condition cs c' ∧ c'.toTree.unlined = c.toTree.unlined := by
  rcases writes_cons h with ⟨kw, us, rfl, hkw, hus⟩
  rcases writes_cons hus with ⟨l, us, rfl, hl, hus⟩
  rcases writes_append hus with ⟨cs, vs, rfl, hcs, hvs⟩
  rcases writes_cons hvs with ⟨r, vs, rfl, hr, hvs⟩
  rcases reads_condition hc hcs with ⟨c', hread, htree⟩
  exact ⟨kw, l, cs, r, vs, c', rfl, hvs, kind_eq hkw hkind, kind_eq hl (by decide), kind_eq hr (by decide), hread, htree⟩

theorem reads_declaration {type name : String} {initial : Option Expr} {line : Int} {ts : List Token}
    (hst : (Stmt.declaration type name initial line).isSource)
    (h : Writes (Stmt.declaration type name initial line).words ts) :
    ReadsStmtAs ts (.declaration type name initial line) := by
  cases initial with
  | none =>
    simp only [Stmt.isSource, Bool.and_eq_true, bne_iff_ne] at hst
    rcases writes_cons h with ⟨t, us, rfl, ht, hus⟩
    rcases writes_cons hus with ⟨n, us, rfl, hn, hus⟩
    rcases writes_single hus with ⟨semi, rfl, hsemi⟩
    rcases reads_type ht hst.1.1.1 with ⟨htk, htype⟩
    rcases reads_name hn hst.1.2 with ⟨hnk, hname⟩
    refine ⟨_, .declaration (htk ▸ hst.1.1.1) (htk ▸ hst.1.1.2) hnk (kind_eq hsemi (by decide)), ?_, rfl⟩
    simp only [Stmt.toTree, Tree.unlined, Option.map_none, Option.toList_none, htype, hname]
  | some e =>
    simp only [Stmt.isSource, Bool.and_eq_true, bne_iff_ne, Option.all_some] at hst
    rcases writes_cons h with ⟨t, us, rfl, ht, hus⟩
    rcases writes_cons hus with ⟨n, us, rfl, hn, hus⟩
    rcases writes_cons hus with ⟨o, us, rfl, ho, hus⟩
    rcases writes_append hus with ⟨vs, ws, rfl, hvs, hws⟩
    rcases writes_single hws with ⟨semi, rfl, hsemi⟩
    rcases reads_value hst.2 hvs with ⟨e', hread, htree⟩
    rcases reads_type ht hst.1.1.1 with ⟨htk, htype⟩
    rcases reads_name hn hst.1.2 with ⟨hnk, hname⟩
    refine ⟨_, .initialized (htk ▸ hst.1.1.1) (htk ▸ hst.1.1.2) hnk (kind_eq ho (by decide)) hread
      (kind_eq hsemi (by decide)), ?_, rfl⟩
    simp only [Stmt.toTree, Tree.unlined, Option.map_some, Option.toList_some, Tree.unlineds, htree, htype, hname]

theorem reads_methodCall {name : String} {es : List Expr} {line : Int} {ts : List Token}
    (hst : (Stmt.methodCall name es line).isSource) (h : Writes (Stmt.methodCall name es line).words ts) :
    ReadsStmtAs ts (.methodCall name es line) := by
  simp only [Stmt.isSource, Bool.and_eq_true] at hst
  rcases writes_append h with ⟨us, vs, rfl, hus, hvs⟩
  rcases writes_cons hvs with ⟨l, vs, rfl, hl, hvs⟩
  rcases writes_append hvs with ⟨as, ws, rfl, has, hws⟩
  rcases writes_cons hws with ⟨r, ws, rfl, hr, hws⟩
  rcases writes_single hws with ⟨semi, rfl, hsemi⟩
  rcases reads_arguments es hst.2 has with ⟨es', hreads, htrees⟩
  have hname := reads_names (nameParts_ne_nil name) hst.1 hus
  refine ⟨_, .methodCall modifiers_nil hname (kind_eq hl (by decide)) hreads (kind_eq hr (by decide))
    (kind_eq hsemi (by decide)), ?_, rfl⟩
  rw [lexemes_eq hus (allWords_names hst.1), join_nameParts]
  simp only [Stmt.toTree, Tree.unlined, unlineds_arguments, htrees]

theorem reads_assignment {name : String} {e : Expr} {line : Int} {ts : List Token}
    (hst : (Stmt.assignment name e line).isSource) (h : Writes (Stmt.assignment name e line).words ts) :
    ReadsStmtAs ts (.assignment name e line) := by
  simp only [Stmt.isSource, Bool.and_eq_true] at hst
  rcases writes_cons h with ⟨n, us, rfl, hn, hus⟩
  rcases writes_cons hus with ⟨o, us, rfl, ho, hus⟩
  rcases writes_append hus with ⟨vs, ws, rfl, hvs, hws⟩
  rcases writes_single hws with ⟨semi, rfl, hsemi⟩
  rcases reads_value hst.2 hvs with ⟨e', hread, htree⟩
  rcases reads_name hn hst.1 with ⟨hnk, hname⟩
  refine ⟨_, .assignment modifiers_nil hnk (kind_eq ho (by decide)) hread (kind_eq hsemi (by decide)), ?_, rfl⟩
  simp only [Stmt.toTree, Tree.unlined, Tree.unlineds, htree, hname]

/-- The tokens of a name, of an operator behind it and of the semicolon. -/
theorem reads_step {name operator : String} {kind : TokenKind} (hkind : (Lexeme.ofWord operator).kind = kind)
    (hname : isName name) {ts : List Token} (h : Writes [name, operator, ";"] ts) :
    ∃ n o semi, ts = [n, o, semi] ∧ n.kind = .identifier ∧ n.lexeme = name ∧ o.kind = kind ∧
      semi.kind = .semicolon := by
  rcases writes_cons h with ⟨n, us, rfl, hn, hus⟩
  rcases writes_cons hus with ⟨o, us, rfl, ho, hus⟩
  rcases writes_single hus with ⟨semi, rfl, hsemi⟩
  rcases reads_name hn hname with ⟨hnk, hname⟩
  exact ⟨n, o, semi, rfl, hnk, hname, kind_eq ho hkind, kind_eq hsemi (by decide)⟩

theorem reads_classDecl {name : String} {ms : List Word} {body : List Stmt} {line : Int} {ts : List Token}
    (hst : (Stmt.classDecl name ms body line).isSource)
    (hbody : ∀ {bs}, Writes (Stmt.bodyWords body) bs → ReadsBodyAs bs body)
    (h : Writes (Stmt.classDecl name ms body line).words ts) : ReadsStmtAs ts (.classDecl name ms body line) := by
  simp only [Stmt.isSource, Bool.and_eq_true] at hst
  rcases writes_append h with ⟨us, vs, rfl, hus, hvs⟩
  rcases writes_cons hvs with ⟨kw, vs, rfl, hkw, hvs⟩
  rcases writes_cons hvs with ⟨n, vs, rfl, hn, hvs⟩
  rcases writes_cons hvs with ⟨l, vs, rfl, hl, hvs⟩
  rcases writes_append hvs with ⟨bs, ws, rfl, hbs, hws⟩
  rcases writes_single hws with ⟨r, rfl, hr⟩
  rcases reads_modifiers ms hst.1.2 hus with ⟨hmods, hmtrees⟩
  rcases hbody hbs with ⟨body', hreads, rfl, htrees⟩
  rcases reads_name hn hst.1.1 with ⟨hnk, hname⟩
  refine ⟨_, .classDecl hmods (kind_eq hkw (by decide)) hnk (kind_eq hl (by decide)) hreads
    (kind_eq hr (by decide)), ?_, rfl⟩
  simp only [Stmt.toTree, Tree.unlined, unlineds_append, hmtrees, htrees, hname]

theorem reads_methodDecl {name : String} {type : Word} {ms : List Word} {body : List Stmt} {line : Int}
    {ts : List Token} (hst : (Stmt.methodDecl name type ms body line).isSource)
    (hbody : ∀ {bs}, Writes (Stmt.bodyWords body) bs → ReadsBodyAs bs body)
    (h : Writes (Stmt.methodDecl name type ms body line).words ts) :
    ReadsStmtAs ts (.methodDecl name type ms body line) := by
  simp only [Stmt.isSource, Bool.and_eq_true] at hst
  rcases writes_append h with ⟨us, vs, rfl, hus, hvs⟩
  rcases writes_cons hvs with ⟨t, vs, rfl, ht, hvs⟩
  rcases writes_cons hvs with ⟨n, vs, rfl, hn, hvs⟩
  rcases writes_cons hvs with ⟨l, vs, rfl, hl, hvs⟩
  rcases writes_cons hvs with ⟨r, vs, rfl, hr, hvs⟩
  rcases writes_cons hvs with ⟨lb, vs, rfl, hlb, hvs⟩
  rcases writes_append hvs with ⟨bs, ws, rfl, hbs, hws⟩
  rcases writes_single hws with ⟨rb, rfl, hrb⟩
  rcases reads_modifiers ms hst.1.2 hus with ⟨hmods, hmtrees⟩
  rcases hbody hbs with ⟨body', hreads, rfl, htrees⟩
  rcases reads_name hn hst.1.1.1 with ⟨hnk, hname⟩
  rcases reads_type ht hst.1.1.2 with ⟨htk, htype⟩
  have hps : Grammar.closes 0 (([] : List Token).map Token.kind) := rfl
  refine ⟨_, .methodDecl hmods (by rw [htk]; exact hst.1.1.2) hnk (kind_eq hl (by decide)) hps
    (kind_eq hr (by decide)) (kind_eq hlb (by decide)) hreads (kind_eq hrb (by decide)), ?_, rfl⟩
  simp only [Stmt.toTree, List.cons_append, Tree.unlined, Tree.unlineds, unlineds_append, hmtrees, htrees,
    Word.toTree, Word.ofToken, Tree.leaf, hname, htype]

mutual
theorem reads_stmt (st : Stmt) (hst : st.isSource) {ts : List Token} (h : Writes st.words ts) : ReadsStmtAs ts st := by
  match st with
  | .classDecl name ms body line =>
    have hbody : Stmt.areSource body := (Bool.and_eq_true_iff.mp hst).2
    exact reads_classDecl hst (fun hbs => reads_body body hbody hbs) h
  | .methodDecl name type ms body line =>
    have hbody : Stmt.areSource body := (Bool.and_eq_true_iff.mp hst).2
    exact reads_methodDecl hst (fun hbs => reads_body body hbody hbs) h
  | .declaration .. => exact reads_declaration hst h
  | .whileLoop c (some b) line =>
    simp only [Stmt.isSource, Bool.and_eq_true, Stmt.isSourceIn] at hst
    rcases reads_header rfl hst.1.1 h with ⟨kw, l, cs, r, us, c', rfl, hus, hkw, hl, hr, hread, htree⟩
    rcases reads_stmt b hst.2 hus with ⟨b', hbody, hbtree, hopen⟩
    refine ⟨_, .whileLoop modifiers_nil hkw hl hread hr hbody, ?_, hopen⟩
    simp only [Stmt.toTree, Stmt.toBranch, Tree.label, Tree.unlined, Tree.unlineds, htree, hbtree]
  | .whileLoop _ none _ => simp [Stmt.isSource] at hst
  | .ifElse c (some a) none line =>
    simp only [Stmt.isSource, Bool.and_eq_true, Stmt.isSourceIn] at hst
    rcases reads_header rfl hst.1.1.1.1 h with ⟨kw, l, cs, r, us, c', rfl, hus, hkw, hl, hr, hread, htree⟩
    rcases writes_append hus with ⟨as, ws, rfl, has, hws⟩
    rcases reads_stmt a hst.1.1.2 has with ⟨a', hthen, hatree, -⟩
    rw [writes_nil hws, List.append_nil]
    refine ⟨_, .ifThen modifiers_nil hkw hl hread hr hthen, ?_, rfl⟩
    simp only [Stmt.toTree, Stmt.toBranch, Tree.label, List.append_nil, Tree.unlined, Tree.unlineds, htree, hatree]
  | .ifElse c (some a) (some b) line =>
    simp only [Stmt.isSource, Bool.and_eq_true, Stmt.isSourceIn, Option.isNone_some, Bool.false_or, Bool.not_eq_true',
      Stmt.endsOpenIn] at hst
    rcases reads_header rfl hst.1.1.1.1 h with ⟨kw, l, cs, r, us, c', rfl, hus, hkw, hl, hr, hread, htree⟩
    rcases writes_append hus with ⟨as, ws, rfl, has, hws⟩
    rcases writes_cons hws with ⟨o, ws, rfl, ho, hws⟩
    rcases reads_stmt a hst.1.1.2 has with ⟨a', hthen, hatree, haopen⟩
    rcases reads_stmt b hst.1.2 hws with ⟨b', helse, hbtree, hbopen⟩
    refine ⟨_, .ifElse modifiers_nil hkw hl hread hr hthen (haopen.trans hst.2) (kind_eq ho (by decide)) helse, ?_,
      hbopen⟩
    simp only [Stmt.toTree, Stmt.toBranch, Tree.label, List.cons_append, List.nil_append, Tree.unlined, Tree.unlineds,
      htree, hatree, hbtree]
  | .ifElse _ none _ _ => simp [Stmt.isSource] at hst
  | .block body line =>
    rcases writes_cons h with ⟨l, us, rfl, hl, hus⟩
    rcases writes_append hus with ⟨bs, vs, rfl, hbs, hvs⟩
    rcases writes_single hvs with ⟨r, rfl, hr⟩
    rcases reads_body body hst hbs with ⟨body', hbody, rfl, htrees⟩
    refine ⟨_, .block modifiers_nil (kind_eq hl (by decide)) hbody (kind_eq hr (by decide)), ?_, rfl⟩
    simp only [Stmt.toTree, Tree.unlined, htrees]
  | .methodCall .. => exact reads_methodCall hst h
  | .assignment .. => exact reads_assignment hst h
  | .increment name line =>
    rcases reads_step rfl hst h with ⟨n, o, semi, rfl, hn, hname, ho, hsemi⟩
    refine ⟨_, .increment modifiers_nil hn ho hsemi, ?_, rfl⟩
    simp only [Stmt.toTree, Tree.leaf, Tree.unlined, hname]
  | .decrement name line =>
    rcases reads_step rfl hst h with ⟨n, o, semi, rfl, hn, hname, ho, hsemi⟩
    refine ⟨_, .decrement modifiers_nil hn ho hsemi, ?_, rfl⟩
    simp only [Stmt.toTree, Tree.leaf, Tree.unlined, hname]

theorem reads_body (body : List Stmt) (hbody : Stmt.areSource body) {ts : List Token}
    (h : Writes (Stmt.bodyWords body) ts) : ReadsBodyAs ts body := by
  match body with
  | [] =>
    rw [writes_nil h]
    exact ⟨[], (fun _ hx => by cases hx), rfl, rfl⟩
  | st :: body =>
    simp only [Stmt.areSource, Bool.and_eq_true] at hbody
    rcases writes_append h with ⟨us, vs, rfl, hus, hvs⟩
    rcases reads_stmt st hbody.1 hus with ⟨st', hread, htree, -⟩
    rcases reads_body body hbody.2 hvs with ⟨body', hreads, rfl, htrees⟩
    refine ⟨(us, st') :: body', List.forall_mem_cons.mpr ⟨hread, hreads⟩, rfl, ?_⟩
    simp only [List.map_cons, Stmt.toTrees, Tree.unlineds, htree, htrees]
end

/-- The tokens that the words of a program read as are read as that program, up to its lines. -/
theorem reads_program {p : Program} (hp : p.isSource) {ts : List Token} (h : Writes p.words ts) :
    ∃ p', ReadsProgram ts p' ∧ p'.toTree.unlined = p.toTree.unlined := by
  rcases reads_body p hp h with ⟨body, hbody, hts, htrees⟩
  refine ⟨body.map Prod.snd, ⟨body, hbody, hts, rfl⟩, ?_⟩
  simp only [Program.toTree, Tree.unlined, htrees]

/-! ### Layouts -/

theorem isWord_punctuation : IsWord "(" ∧ IsWord ")" ∧ IsWord "\x7b" ∧ IsWord "\x7d" ∧ IsWord ";" ∧ IsWord "," ∧
    IsWord "=" ∧ IsWord "++" ∧ IsWord "--" ∧ IsWord "class" ∧ IsWord "while" ∧ IsWord "if" ∧ IsWord "else" := by
  refine ⟨?_, ?_, ?_, ?_, ?_, ?_, ?_, ?_, ?_, ?_, ?_, ?_, ?_⟩
  all_goals exact isWord_fixed (by decide)

theorem allWords_enclose {outer inner : Level} {words : List String} (h : AllWords words) :
    AllWords (enclose outer inner words) := by
  unfold enclose
  split
  · exact h
  · simp [h, isWord_punctuation]

theorem allWords_expr {e : Expr} (he : e.isSource) : AllWords e.words := by
  induction e with
  | number => simpa [Expr.words] using (isWord_number he).1
  | identifier => simpa [Expr.words] using (isWord_name he).1
  | string text => simpa [Expr.words] using (isWord_quoted text).1
  | postIncrement | postDecrement => simpa [Expr.words, isWord_punctuation] using (isWord_name he).1
  | binary operator left right ihl ihr =>
    simp only [Expr.isSource, Bool.and_eq_true, Bool.or_eq_true] at he
    rcases he with ⟨⟨hop, hl⟩, hr⟩
    have hword : IsWord operator := by
      rcases hop with hop | hop
      · exact (isWord_additive hop).1
      · exact (isWord_multiplicative hop).1
    unfold Expr.words
    split
    all_goals simp [allWords_enclose, ihl hl, ihr hr, hword]
  | comparison operator left right ihl ihr =>
    simp only [Expr.isSource, Bool.and_eq_true] at he
    rcases he with ⟨⟨hop, hl⟩, hr⟩
    simp [Expr.words, allWords_enclose, ihl hl, ihr hr, (isWord_comparison hop).1]
  | error => exact allWords_nil

theorem allWords_value {e : Expr} (he : e.isSource) : AllWords e.valueWords := allWords_enclose (allWords_expr he)

theorem allWords_arguments {es : List Expr} (hes : es.all Expr.isSource) : AllWords (Expr.argumentWords es) := by
  induction es with
  | nil => exact allWords_nil
  | cons e es ih =>
    rw [List.all_cons, Bool.and_eq_true] at hes
    cases es with
    | nil => exact allWords_value hes.1
    | cons f es => simp [Expr.argumentWords, allWords_value hes.1, isWord_punctuation, ih hes.2]

theorem allWords_modifiers {ms : List Word} (hms : ms.all fun m => (TokenKind.ofWord m.text).isModifier) :
    AllWords (ms.map Word.text) := by
  intro w hw
  rcases List.mem_map.mp hw with ⟨m, hm, rfl⟩
  exact (isWord_class rfl (List.all_eq_true.mp hms m hm)).1

mutual
theorem allWords_stmt (st : Stmt) (hst : st.isSource) : AllWords st.words := by
  match st with
  | .classDecl name ms body line =>
    simp only [Stmt.isSource, Bool.and_eq_true] at hst
    simp [Stmt.words, isWord_punctuation, isWord_name hst.1.1, allWords_modifiers hst.1.2, allWords_body body hst.2]
  | .methodDecl name type ms body line =>
    simp only [Stmt.isSource, Bool.and_eq_true] at hst
    simp [Stmt.words, isWord_punctuation, isWord_name hst.1.1.1, isWord_class rfl hst.1.1.2,
      allWords_modifiers hst.1.2, allWords_body body hst.2]
  | .declaration type name none line =>
    simp only [Stmt.isSource, Bool.and_eq_true] at hst
    simp [Stmt.words, isWord_punctuation, isWord_class rfl hst.1.1.1, isWord_name hst.1.2]
  | .declaration type name (some e) line =>
    simp only [Stmt.isSource, Bool.and_eq_true, Option.all_some] at hst
    simp [Stmt.words, isWord_punctuation, isWord_class rfl hst.1.1.1, isWord_name hst.1.2, allWords_value hst.2]
  | .whileLoop c body line =>
    simp only [Stmt.isSource, Bool.and_eq_true] at hst
    simp [Stmt.words, isWord_punctuation, allWords_expr hst.1.1, allWords_branch [] allWords_nil body hst.2]
  | .ifElse c a b line =>
    simp only [Stmt.isSource, Bool.and_eq_true] at hst
    have helse : AllWords ["else"] := by simp [isWord_punctuation]
    simp [Stmt.words, isWord_punctuation, allWords_expr hst.1.1.1.1, allWords_branch [] allWords_nil a hst.1.1.2,
      allWords_branch ["else"] helse b hst.1.2]
  | .block body line => simp [Stmt.words, isWord_punctuation, allWords_body body hst]
  | .methodCall name es line =>
    simp only [Stmt.isSource, Bool.and_eq_true] at hst
    simp [Stmt.words, isWord_punctuation, allWords_names hst.1, allWords_arguments hst.2]
  | .assignment name e line =>
    simp only [Stmt.isSource, Bool.and_eq_true] at hst
    simp [Stmt.words, isWord_punctuation, isWord_name hst.1, allWords_value hst.2]
  | .increment name line => simp [Stmt.words, isWord_punctuation, isWord_name hst]
  | .decrement name line => simp [Stmt.words, isWord_punctuation, isWord_name hst]

theorem allWords_body (body : List Stmt) (hbody : Stmt.areSource body) : AllWords (Stmt.bodyWords body) := by
  match body with
  | [] => exact allWords_nil
  | st :: body =>
    simp only [Stmt.areSource, Bool.and_eq_true] at hbody
    exact allWords_append.mpr ⟨allWords_stmt st hbody.1, allWords_body body hbody.2⟩

theorem allWords_branch (lead : List String) (hlead : AllWords lead) (branch : Option Stmt)
    (hb : Stmt.isSourceIn branch) : AllWords (Stmt.branchWords lead branch) := by
  match branch with
  | none => exact allWords_nil
  | some st => exact allWords_append.mpr ⟨hlead, allWords_stmt st hb⟩
end

end Curly
