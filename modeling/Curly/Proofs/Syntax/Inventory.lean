import Curly.Proofs.Syntax.Unparse
import Curly.Syntax.Inventory
import Mathlib.Data.List.Forall2
import Mathlib.Data.List.TakeWhile

/-! Reading keeps every item. The nodes of what a run of tokens is read as are named by the items among these tokens, each
    item once and all in their order; only the parameters of methods are left out. Main statement:
    `ReadsProgram.inventory`. -/

namespace Curly

/-! ### Tokens outside parameters -/

section
variable {t : Token} {ts us : List Token}

theorem outside_cons (h : t.kind.isType = false) :
    Zone.elsewhere.outside (t :: ts) = t :: Zone.elsewhere.outside ts := by
  simp [Zone.outside, Zone.next, h]

theorem outside_append (h : ∀ t ∈ ts, t.kind.isType = false) (rest : List Token) :
    Zone.elsewhere.outside (ts ++ rest) = ts ++ Zone.elsewhere.outside rest := by
  induction ts with
  | nil => rfl
  | cons t ts ih =>
    obtain ⟨ht, hts⟩ := List.forall_mem_cons.mp h
    rw [List.cons_append, outside_cons ht, ih hts, List.cons_append]

/-- Parameters end with the parenthesis that closes them. -/
theorem outside_parameters {ps rest : List Token} {r : Token} {depth : Nat}
    (hps : Grammar.closes depth (ps.map Token.kind)) (hr : r.kind = .rightParen) :
    (Zone.parameters depth).outside (ps ++ r :: rest) = Zone.elsewhere.outside rest := by
  induction ps generalizing depth with
  | nil =>
    have hdepth : depth = 0 := by simpa [Grammar.closes] using hps
    simp [Zone.outside, Zone.next, hr, hdepth]
  | cons p ps ih =>
    rw [List.cons_append, Zone.outside]
    unfold Zone.next
    simp only [List.map_cons, Grammar.closes] at hps
    by_cases hp : p.kind = .rightParen
    · cases depth with
      | zero => simp [hp] at hps
      | succ depth =>
        simp only [hp, reduceCtorEq, ↓reduceIte] at hps ⊢
        exact ih hps
    · by_cases hl : p.kind = .leftParen
      · simp only [hl, reduceCtorEq, ↓reduceIte] at hps ⊢
        exact ih hps
      · split at hps
        · cases hps
        · simp only [hp, hl, ↓reduceIte] at hps ⊢
          exact ih hps

section
variable {type name : Token} (htype : type.kind.isType) (hname : name.kind = .identifier)
include htype hname

theorem outside_variable (ht : t.kind.isType = false) (hl : t.kind ≠ .leftParen) :
    Zone.elsewhere.outside (type :: name :: t :: ts) = type :: name :: t :: Zone.elsewhere.outside ts := by
  simp [Zone.outside, Zone.next, htype, hname, ht, hl]

theorem outside_method {ps : List Token} {l r : Token} (hl : l.kind = .leftParen)
    (hps : Grammar.closes 0 (ps.map Token.kind)) (hr : r.kind = .rightParen) :
    Zone.elsewhere.outside (type :: name :: l :: (ps ++ r :: ts)) = type :: name :: l :: Zone.elsewhere.outside ts := by
  simp [Zone.outside, Zone.next, htype, hname, hl, outside_parameters hps hr]

end

end

/-! ### Inventories -/

/-- The nodes are made of the tokens, of each at most once and in their order, and no item among them is left out. -/
def Inventory (ts : List Token) (nodes : List Tree) : Prop :=
  ∃ groups, List.Forall₂ Tree.MadeOf nodes groups ∧ ∀ rest kept, KeepsItems kept (Zone.elsewhere.outside rest) →
    KeepsItems (groups.flatten ++ kept) (Zone.elsewhere.outside (ts ++ rest))

/-- A token of a kind that is neither a type nor an item. -/
def TokenKind.isQuiet (k : TokenKind) : Bool :=
  !k.isType && !(k == .identifier || k == .number || k == .stringLiteral)

section
variable {t : Token} {ts us : List Token} {node : Tree} {nodes nodes' : List Tree}

theorem KeepsItems.keep (h : KeepsItems ts us) (t : Token) : KeepsItems (t :: ts) (t :: us) :=
  ⟨h.1.cons_cons t, by rw [List.filter_cons, List.filter_cons, h.2]⟩

theorem KeepsItems.drop (h : KeepsItems ts us) (ht : ¬t.isItem) : KeepsItems ts (t :: us) :=
  ⟨h.1.cons t, by rw [List.filter_cons_of_neg ht, h.2]⟩

theorem isItem_eq (t : Token) :
    t.isItem = (t.kind == .identifier || t.kind == .number || t.kind == .stringLiteral) := by
  unfold Token.isItem Token.item?
  cases t.kind <;> rfl

theorem isType_of_isQuiet (h : t.kind.isQuiet) : t.kind.isType = false ∧ ¬t.isItem := by
  simpa [TokenKind.isQuiet, isItem_eq] using h

theorem not_isItem_of_isType (h : t.kind.isType) : ¬t.isItem := by
  rw [isItem_eq]
  cases hk : t.kind <;> simp [hk] at h ⊢ <;> cases h

theorem isType_of_isItem (h : t.isItem) : t.kind.isType = false := by
  by_contra htype
  exact not_isItem_of_isType (by simpa using htype) h

theorem inventory_nil : Inventory [] [] := ⟨[], .nil, fun _ _ h => h⟩

theorem Inventory.append (h : Inventory ts nodes) (h' : Inventory us nodes') :
    Inventory (ts ++ us) (nodes ++ nodes') := by
  obtain ⟨groups, hn, hi⟩ := h
  obtain ⟨groups', hn', hi'⟩ := h'
  refine ⟨groups ++ groups', List.rel_append hn hn', fun rest kept hk => ?_⟩
  rw [List.append_assoc, List.flatten_append, List.append_assoc]
  exact hi _ _ (hi' _ _ hk)

/-- A node that is made of nothing. -/
theorem Inventory.unnamed (h : Inventory ts nodes) (hn : node.MadeOf []) : Inventory ts (node :: nodes) := by
  obtain ⟨groups, hns, hi⟩ := h
  exact ⟨[] :: groups, .cons hn hns, hi⟩

/-- A token that nothing is made of. -/
theorem Inventory.quiet (h : Inventory ts nodes) (ht : t.kind.isQuiet) : Inventory (t :: ts) nodes := by
  obtain ⟨groups, hn, hi⟩ := h
  obtain ⟨htype, hitem⟩ := isType_of_isQuiet ht
  refine ⟨groups, hn, fun rest kept hk => ?_⟩
  rw [List.cons_append, outside_cons htype]
  exact (hi rest kept hk).drop hitem

theorem Inventory.quiets (h : Inventory us nodes) (hts : ∀ t ∈ ts, t.kind.isQuiet) : Inventory (ts ++ us) nodes := by
  induction ts with
  | nil => exact h
  | cons t ts ih =>
    obtain ⟨ht, hrest⟩ := List.forall_mem_cons.mp hts
    exact (ih hrest).quiet ht

theorem Inventory.closed (h : Inventory ts nodes) (ht : t.kind.isQuiet) : Inventory (ts ++ [t]) nodes := by
  have h' := h.append (inventory_nil.quiet ht)
  rwa [List.append_nil] at h'

/-- An item that a node is made of. -/
theorem Inventory.named (h : Inventory ts nodes) (ht : t.isItem) (hn : node.MadeOf [t]) :
    Inventory (t :: ts) (node :: nodes) := by
  obtain ⟨groups, hns, hi⟩ := h
  refine ⟨[t] :: groups, .cons hn hns, fun rest kept hk => ?_⟩
  rw [List.cons_append, outside_cons (isType_of_isItem ht)]
  exact (hi rest kept hk).keep t

/-- Names and dots that a call is made of. -/
theorem Inventory.dotted {name : List Token} (h : Inventory ts nodes) (hname : DottedName name)
    (hn : node.MadeOf name) : Inventory (name ++ ts) (node :: nodes) := by
  have htypes : ∀ t ∈ name, t.kind.isType = false := by
    clear hn
    induction hname with
    | single h => simp [h, TokenKind.isType]
    | cons h hd _ ih => simpa [h, hd, TokenKind.isType] using ih
  obtain ⟨groups, hns, hi⟩ := h
  refine ⟨name :: groups, .cons hn hns, fun rest kept hk => ?_⟩
  rw [List.append_assoc, outside_append htypes, List.flatten_cons, List.append_assoc]
  obtain ⟨hsub, hfilter⟩ := hi rest kept hk
  exact ⟨hsub.append_left name, by rw [List.filter_append, hfilter, List.filter_append]⟩

section
variable {type name : Token} (h : Inventory ts nodes) (htype : type.kind.isType) (hname : name.kind = .identifier)
include h htype hname

/-- A type and the name of a variable, and what comes next. -/
theorem Inventory.variable (hn : node.MadeOf [type, name]) (ht : t.kind.isQuiet) (hl : t.kind ≠ .leftParen) :
    Inventory (type :: name :: t :: ts) (node :: nodes) := by
  obtain ⟨groups, hns, hi⟩ := h
  obtain ⟨hquiet, hitem⟩ := isType_of_isQuiet ht
  refine ⟨[type, name] :: groups, .cons hn hns, fun rest kept hk => ?_⟩
  simp only [List.cons_append, outside_variable htype hname hquiet hl, List.flatten_cons]
  exact (((hi rest kept hk).drop hitem).keep name).keep type

/-- A type, the name of a method and its parameters. -/
theorem Inventory.method (hn : node.MadeOf [name]) {ps : List Token} {l r : Token} (hl : l.kind = .leftParen)
    (hps : Grammar.closes 0 (ps.map Token.kind)) (hr : r.kind = .rightParen) :
    Inventory (type :: name :: l :: (ps ++ r :: ts)) (node :: nodes) := by
  obtain ⟨groups, hns, hi⟩ := h
  refine ⟨[name] :: groups, .cons hn hns, fun rest kept hk => ?_⟩
  simp only [List.cons_append, List.append_assoc, outside_method htype hname hl hps hr, List.flatten_cons]
  exact (((hi rest kept hk).drop (by simp [isItem_eq, hl])).keep name).drop (not_isItem_of_isType htype)

end

end

/-! ### What is read -/

theorem isQuiet_of_isMultiplicative {k : TokenKind} (h : k.isMultiplicative) : k.isQuiet := by
  cases k <;> first | rfl | cases h

theorem isQuiet_of_isAdditive {k : TokenKind} (h : k.isAdditive) : k.isQuiet := by
  cases k <;> first | rfl | cases h

theorem isQuiet_of_isComparison {k : TokenKind} (h : k.isComparison) : k.isQuiet := by
  cases k <;> first | rfl | cases h

theorem isQuiet_of_isModifier {k : TokenKind} (h : k.isModifier) : k.isQuiet := by
  cases k <;> first | rfl | cases h

/-- A leaf that was read from a token. -/
theorem inventory_leaf {t : Token} {kind : NodeKind} {text : String} (h : t.item? = some ⟨kind, text, t.line⟩) :
    Inventory [t] (Tree.leaf kind text t.line).preorder := by
  have hn : (Tree.leaf kind text t.line).MadeOf [t] := by
    unfold Token.item? at h
    split at h <;> cases h <;> exact ⟨t, rfl, by simp [Token.item?, *]; rfl⟩
  exact inventory_nil.named (by simp [Token.isItem, h]) hn

theorem item?_identifier {t : Token} (h : t.kind = .identifier) : t.item? = some ⟨.identifier, t.lexeme, t.line⟩ := by
  simp [Token.item?, h]

/-- Two operands with an operator between them. -/
theorem inventory_operation {ts us : List Token} {o : Token} {e f t : Tree} (he : Inventory ts e.preorder)
    (ho : o.kind.isQuiet) (hf : Inventory us f.preorder) {kind : NodeKind} {operator : String} {line : Int}
    (ht : t = .node kind operator line [e, f]) (hn : t.MadeOf []) : Inventory (ts ++ o :: us) t.preorder := by
  have hboth := he.append (hf.quiet ho)
  subst ht
  refine Inventory.unnamed ?_ hn
  rwa [Tree.preorders, Tree.preorders, Tree.preorders, List.append_nil]

theorem ReadsExpr.inventory {level : Level} {ts : List Token} {e : Expr} (h : ReadsExpr level ts e) :
    Inventory ts e.toTree.preorder := by
  induction h with
  | number hk | identifier hk | string hk => exact inventory_leaf (by simp [Token.item?, hk])
  | postIncrement hk hu | postDecrement hk hu =>
    have hleaf := (inventory_leaf (item?_identifier hk)).closed (by rw [hu]; rfl)
    exact hleaf.unnamed rfl
  | parenthesized hl _ hr ih => exact (ih.closed (by rw [hr]; rfl)).quiet (by rw [hl]; rfl)
  | ofFactor _ ih | ofTerm _ ih | ofExpression _ ih => exact ih
  | product _ ho _ ihe ihf => exact inventory_operation ihe (isQuiet_of_isMultiplicative ho) ihf rfl rfl
  | sum _ ho _ ihe ihf => exact inventory_operation ihe (isQuiet_of_isAdditive ho) ihf rfl rfl
  | comparison _ ho _ ihe ihf => exact inventory_operation ihe (isQuiet_of_isComparison ho) ihf rfl rfl

/-- A node that labels another one. -/
theorem Inventory.label {ts : List Token} {t : Tree} (h : Inventory ts t.preorder) (kind : NodeKind)
    (hn : (Tree.label kind t).MadeOf []) : Inventory ts (Tree.label kind t).preorder := by
  have h' := h.unnamed hn
  rwa [← List.append_nil t.preorder] at h'

theorem ReadsArguments.inventory {ts : List Token} {es : List Expr} (h : ReadsArguments ts es) :
    Inventory ts (Tree.preorders (es.map fun e => .label .argument e.toTree)) := by
  have label : ∀ {us : List Token} {e : Expr}, ReadsExpr .expression us e →
      Inventory us (Tree.label .argument e.toTree).preorder := fun he => he.inventory.label _ rfl
  induction h with
  | none => exact inventory_nil
  | last he =>
    rw [List.map_cons, List.map_nil, Tree.preorders, Tree.preorders, List.append_nil]
    exact label he
  | cons he ho _ ih => exact (label he).append (ih.quiet (by rw [ho]; rfl))

theorem inventory_body {body : List (List Token × Stmt)} (h : ∀ x ∈ body, Inventory x.1 x.2.toTree.preorder) :
    Inventory (body.flatMap Prod.fst) (Tree.preorders (Stmt.toTrees (body.map Prod.snd))) := by
  induction body with
  | nil => exact inventory_nil
  | cons x body ih =>
    obtain ⟨hx, hbody⟩ := List.forall_mem_cons.mp h
    exact hx.append (ih hbody)

/-- Modifiers are nodes that nothing names. -/
theorem Inventory.modifiers {ts : List Token} {nodes : List Tree} (h : Inventory ts nodes) (ms : List Word) :
    Inventory ts (Tree.preorders (ms.map (Word.toTree .modifier)) ++ nodes) := by
  induction ms with
  | nil => exact h
  | cons m ms ih => exact ih.unnamed rfl

theorem Modifiers.quiet {ms : List Token} (hms : Modifiers ms) : ∀ m ∈ ms, m.kind.isQuiet :=
  fun m hm => isQuiet_of_isModifier (hms m hm)

/-- A body or a branch with its label. -/
theorem inventory_branch {ts : List Token} {st : Stmt} (h : Inventory ts st.toTree.preorder) (kind : NodeKind)
    (hn : (Tree.label kind st.toTree).MadeOf []) : Inventory ts (Tree.preorders (Stmt.toBranch kind (some st))) := by
  rw [Stmt.toBranch, Tree.preorders, Tree.preorders, List.append_nil]
  exact h.label kind hn

theorem ReadsStmt.inventory {ts : List Token} {st : Stmt} (h : ReadsStmt ts st) :
    Inventory ts st.toTree.preorder := by
  induction h with
  | classDecl hms hkw hname hl _ hr ih =>
    rw [Stmt.toTree, Tree.preorder, Tree.preorders_append]
    refine .quiets (.quiet (.named ?_ (by simp [isItem_eq, hname]) ⟨_, rfl, hname, rfl, rfl⟩)
      (by rw [hkw]; rfl)) hms.quiet
    exact (((inventory_body ih).closed (by rw [hr]; rfl)).quiet (by rw [hl]; rfl)).modifiers _
  | @methodDecl _ _ type _ _ _ _ _ _ hms htype hname hl hps hr hlb _ hrb ih =>
    have hreturn : Inventory [] (Word.toTree .returnType (.ofToken type)).preorder := inventory_nil.unnamed rfl
    have hbody := ((inventory_body ih).closed (by rw [hrb]; rfl)).quiet (by rw [hlb]; rfl)
    rw [Stmt.toTree, Tree.preorder, List.cons_append, Tree.preorders, Tree.preorders_append]
    refine .quiets (.method (hreturn.append (hbody.modifiers _)) htype hname ?_ hl hps hr) hms.quiet
    exact ⟨_, rfl, hname, rfl, rfl⟩
  | declaration htype hvoid hname hsemi =>
    exact inventory_nil.variable htype hname ⟨_, _, rfl, htype, hname, rfl, rfl⟩ (by rw [hsemi]; rfl) (by simp [hsemi])
  | initialized htype hvoid hname ho h hsemi =>
    rw [Stmt.toTree, Tree.preorder, Option.map_some, Option.toList_some, Tree.preorders, Tree.preorders, List.append_nil]
    refine .variable ?_ htype hname ⟨_, _, rfl, htype, hname, rfl, rfl⟩ (by rw [ho]; rfl) (by simp [ho])
    exact h.inventory.closed (by rw [hsemi]; rfl)
  | whileLoop hms hkw hl he hr _ ih =>
    rw [Stmt.toTree, Tree.preorder, Tree.preorders]
    refine .quiets (.quiet (.quiet (.unnamed ?_ rfl) (by rw [hl]; rfl)) (by rw [hkw]; rfl)) hms.quiet
    exact (he.inventory.label .condition rfl).append ((inventory_branch ih .body rfl).quiet (by rw [hr]; rfl))
  | ifThen hms hkw hl he hr _ ih =>
    rw [Stmt.toTree, Tree.preorder, Tree.preorders, Stmt.toBranch, List.append_nil]
    refine .quiets (.quiet (.quiet (.unnamed ?_ rfl) (by rw [hl]; rfl)) (by rw [hkw]; rfl)) hms.quiet
    exact (he.inventory.label .condition rfl).append ((inventory_branch ih .thenBranch rfl).quiet (by rw [hr]; rfl))
  | ifElse hms hkw hl he hr _ _ ho _ iha ihb =>
    rw [Stmt.toTree, Tree.preorder, Tree.preorders, Tree.preorders_append]
    refine .quiets (.quiet (.quiet (.unnamed ?_ rfl) (by rw [hl]; rfl)) (by rw [hkw]; rfl)) hms.quiet
    have hbranches := (inventory_branch iha .thenBranch rfl).append
      ((inventory_branch ihb .elseBranch rfl).quiet (by rw [ho]; rfl))
    exact (he.inventory.label .condition rfl).append (hbranches.quiet (by rw [hr]; rfl))
  | block hms hl _ hr ih =>
    rw [Stmt.toTree, Tree.preorder]
    refine .quiets (.unnamed ?_ rfl) hms.quiet
    exact ((inventory_body ih).closed (by rw [hr]; rfl)).quiet (by rw [hl]; rfl)
  | methodCall hms hname hl h hr hsemi =>
    rw [Stmt.toTree, Tree.preorder]
    refine .quiets (.dotted ?_ hname ⟨hname, rfl, rfl⟩) hms.quiet
    have hend := (inventory_nil.quiet (by rw [hsemi]; rfl)).quiet (by rw [hr]; rfl)
    have hargs := (h.inventory.append hend).quiet (by rw [hl]; rfl)
    rwa [List.append_nil] at hargs
  | assignment hms hname ho h hsemi =>
    rw [Stmt.toTree, Tree.preorder, Tree.preorders, Tree.preorders, List.append_nil]
    refine .quiets (.named ?_ (by simp [isItem_eq, hname]) ⟨_, rfl, hname, rfl, rfl⟩) hms.quiet
    exact (h.inventory.closed (by rw [hsemi]; rfl)).quiet (by rw [ho]; rfl)
  | increment hms hname ho hsemi | decrement hms hname ho hsemi =>
    refine .quiets (.named ?_ (by simp [isItem_eq, hname]) ⟨_, rfl, hname, rfl, rfl⟩) hms.quiet
    exact (inventory_nil.quiet (by rw [hsemi]; rfl)).quiet (by rw [ho]; rfl)

/-- The nodes of a program are made of the tokens outside the parameters of methods, and no item is left out. -/
theorem ReadsProgram.inventory {ts : List Token} {p : Program} (h : ReadsProgram ts p) :
    ∃ groups, List.Forall₂ Tree.MadeOf p.toTree.preorder groups ∧
      KeepsItems groups.flatten (Token.outsideParameters ts) := by
  obtain ⟨body, hbody, rfl, rfl⟩ := h
  have hall : Inventory (body.flatMap Prod.fst) (Program.toTree (body.map Prod.snd)).preorder :=
    (inventory_body fun x hx => (hbody x hx).inventory).unnamed rfl
  obtain ⟨groups, hn, hi⟩ := hall
  have hend := hi [] [] ⟨.refl _, rfl⟩
  rw [List.append_nil, List.append_nil] at hend
  exact ⟨groups, hn, hend⟩

/-! ### Names in texts -/

theorem segment?_identifier {t : Token} (h : t.kind = .identifier) : t.segment? = some (.identifier, t.lexeme) := by
  simp [Token.segment?, item?_identifier h]

theorem segment?_eq_none {t : Token} (h : ¬t.isItem) : t.segment? = none := by
  simpa [Token.segment?, Token.isItem] using h

/-- Where no item is left out, no name and no leaf is. -/
theorem KeepsItems.filterMap_segment? {kept all : List Token} (h : KeepsItems kept all) :
    kept.filterMap Token.segment? = all.filterMap Token.segment? := by
  have hitems : ∀ ts : List Token, ts.filterMap Token.segment? = (ts.filter Token.isItem).filterMap Token.segment? := by
    intro ts
    rw [List.filterMap_filter]
    refine List.filterMap_congr fun t _ => ?_
    cases ht : t.isItem
    · simp [segment?_eq_none, ht]
    · rfl
  rw [hitems kept, hitems all, h.2]

theorem DottedName.filterMap_segment? {name : List Token} (h : DottedName name) : name.filterMap Token.segment? =
    ((name.filter (·.kind = .identifier)).map Token.lexeme).map fun text => (.identifier, text) := by
  induction h with
  | single h => simp [segment?_identifier h, h]
  | @cons t dot ts h hd _ ih =>
    have hdot : dot.segment? = none := segment?_eq_none (by simp [isItem_eq, hd])
    simp [segment?_identifier h, hdot, h, hd, ih]

/-- What comes after the first blank. -/
theorem tail_dropWhile_blank {type : String} (h : ' ' ∉ type.toList) (name : String) :
    String.ofList ((type ++ " " ++ name).toList.dropWhile (· != ' ')).tail = name := by
  have htype : type.toList.dropWhile (· != ' ') = [] := by
    rw [List.dropWhile_eq_nil_iff]
    intro c hc
    simpa using fun heq : c = ' ' => h (heq ▸ hc)
  simp [List.dropWhile_append, htype]

/-- What a node is made of can be told from its text. -/
theorem Tree.MadeOf.segments_eq {t : Tree} {ts : List Token} (h : t.MadeOf ts) (hts : ∀ u ∈ ts, u.Divisible) :
    t.segments = ts.filterMap Token.segment? := by
  have leaf : ∀ u : Token, u.item? = t.item? → t.item? = some ⟨t.kind, t.value, t.line⟩ →
      [(t.kind, t.value)] = [u].filterMap Token.segment? := by
    intro u hu ht
    simp [Token.segment?, hu, ht]
  have name : ∀ u : Token, u.kind = .identifier → t.value = u.lexeme →
      [(NodeKind.identifier, t.value)] = [u].filterMap Token.segment? := by
    intro u hu ht
    simp [segment?_identifier hu, ht]
  unfold Tree.MadeOf at h
  unfold Tree.segments
  cases hk : t.kind <;> simp only [hk] at h ⊢
  case identifier | number | stringLiteral =>
    obtain ⟨u, rfl, hu⟩ := h
    rw [← hk]
    exact leaf u hu (by simp [Tree.item?, hk])
  case classDecl | methodDecl | assignment | increment | decrement =>
    obtain ⟨u, rfl, hu, hvalue, -⟩ := h
    exact name u hu hvalue
  case declaration =>
    obtain ⟨type, u, rfl, htype, hu, hvalue, -⟩ := h
    have hblank := (hts type List.mem_cons_self).1 htype
    rw [hvalue, tail_dropWhile_blank hblank]
    simp [segment?_eq_none (not_isItem_of_isType htype), segment?_identifier hu]
  case methodCall =>
    obtain ⟨hname, hvalue, -⟩ := h
    rw [hvalue, hname.nameParts_eq (fun u hu => (hts u hu).2.1) fun u hu => (hts u hu).2.2, hname.filterMap_segment?]
  all_goals
    rw [h]
    rfl

theorem segments_eq {nodes : List Tree} {groups : List (List Token)} (h : List.Forall₂ Tree.MadeOf nodes groups)
    (hgroups : ∀ t ∈ groups.flatten, t.Divisible) :
    nodes.flatMap Tree.segments = groups.flatten.filterMap Token.segment? := by
  induction h with
  | nil => rfl
  | cons hn _ ih =>
    rw [List.flatten_cons, List.forall_mem_append] at hgroups
    rw [List.flatMap_cons, List.flatten_cons, List.filterMap_append, hn.segments_eq hgroups.1, ih hgroups.2]

end Curly
