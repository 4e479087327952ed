import Curly.Syntax.Part

/-! Parts of what is read. Tokens that are read as the part of a statement can stand for it among the tokens around it; and
    every statement inside of one that is read is read from some of the tokens. Main statements: `HasPart.reads`,
    `ReadsProgram.exists_hasPart`. -/

namespace Curly

variable {inner outer : Stmt} {before after ts : List Token}

theorem forall_mem_insert {x : List Token × Stmt} {earlier later : List (List Token × Stmt)}
    (h : ∀ y ∈ earlier, ReadsStmt y.1 y.2) (hx : ReadsStmt x.1 x.2) (h' : ∀ y ∈ later, ReadsStmt y.1 y.2) :
    ∀ y ∈ earlier ++ x :: later, ReadsStmt y.1 y.2 :=
  List.forall_mem_append.mpr ⟨h, List.forall_mem_cons.mpr ⟨hx, h'⟩⟩

theorem Frame.reads (hf : Frame before after inner outer) (h : ReadsStmt ts inner) :
    ReadsStmt (before ++ (ts ++ after)) outer := by
  cases hf with
  | classBody hms hkw hname hl hearlier hlater hr =>
    simpa using ReadsStmt.classDecl hms hkw hname hl (forall_mem_insert (x := (ts, inner)) hearlier h hlater) hr
  | methodBody hms htype hname hl hps hr hlb hearlier hlater hrb =>
    simpa using ReadsStmt.methodDecl hms htype hname hl hps hr hlb
      (forall_mem_insert (x := (ts, inner)) hearlier h hlater) hrb
  | blockBody hms hl hearlier hlater hr =>
    simpa using ReadsStmt.block hms hl (forall_mem_insert (x := (ts, inner)) hearlier h hlater) hr
  | loopBody hms hkw hl he hr => simpa using ReadsStmt.whileLoop hms hkw hl he hr h
  | onlyBranch hms hkw hl he hr => simpa using ReadsStmt.ifThen hms hkw hl he hr h
  | thenBranch hms hkw hl he hr hopen ho hb => simpa using ReadsStmt.ifElse hms hkw hl he hr h hopen ho hb
  | elseBranch hms hkw hl he hr ha hopen ho => simpa using ReadsStmt.ifElse hms hkw hl he hr ha hopen ho h

theorem PartOf.reads (hp : PartOf inner before after outer) (h : ReadsStmt ts inner) :
    ReadsStmt (before ++ (ts ++ after)) outer := by
  induction hp with
  | self => simpa using h
  | within _ hf ih => simpa using hf.reads ih

/-- Tokens that are read as the part complete those around it. -/
theorem HasPart.reads {p : Program} (hp : HasPart inner before after p) (h : ReadsStmt ts inner) :
    ReadsProgram (before ++ (ts ++ after)) p := by
  cases hp with
  | @mk before after earlier later outer hearlier hlater hpart =>
    refine ⟨earlier ++ (before ++ (ts ++ after), outer) :: later, forall_mem_insert hearlier (hpart.reads h) hlater, ?_, ?_⟩
    · simp
    · simp

/-! ### Every statement is a part -/

/-- Among the tokens of the one statement are those of the other. -/
def Exposes (ts : List Token) (outer inner : Stmt) : Prop :=
  ∃ before us after, ts = before ++ (us ++ after) ∧ ReadsStmt us inner ∧ PartOf inner before after outer

theorem exposes_self (h : ReadsStmt ts inner) : Exposes ts inner inner := ⟨[], ts, [], by simp, h, .self⟩

theorem Exposes.within {mid : Stmt} (h : Exposes ts mid inner) (hf : Frame before after mid outer) :
    Exposes (before ++ (ts ++ after)) outer inner := by
  obtain ⟨before', us, after', rfl, hreads, hpart⟩ := h
  exact ⟨before ++ before', us, after' ++ after, by simp, hreads, .within hpart hf⟩

/-- A statement that is the one or inside of it. -/
theorem Exposes.of_mem {mid : Stmt} (hreads : ReadsStmt ts mid) (h : ∀ st ∈ mid.inside, Exposes ts mid st)
    (hmem : inner ∈ mid :: mid.inside) : Exposes ts mid inner := by
  rcases List.mem_cons.mp hmem with rfl | hmem
  · exact exposes_self hreads
  · exact h _ hmem

theorem mem_insideAll {body : List Stmt} : inner ∈ Stmt.insideAll body ↔ ∃ st ∈ body, inner ∈ st :: st.inside := by
  induction body with
  | nil => simp [Stmt.insideAll]
  | cons st body ih => simp [Stmt.insideAll, ih, or_assoc]

section
variable {body : List (List Token × Stmt)} (hreads : ∀ x ∈ body, ReadsStmt x.1 x.2)
  (ih : ∀ x ∈ body, ∀ st ∈ x.2.inside, Exposes x.1 x.2 st) (hmem : inner ∈ Stmt.insideAll (body.map Prod.snd))
include hreads ih hmem

/-- In a body, the statement is found with others before and behind it. -/
theorem exposes_body : ∃ (earlier later : List (List Token × Stmt)) (us : List Token) (mid : Stmt),
    body = earlier ++ (us, mid) :: later ∧ (∀ x ∈ earlier, ReadsStmt x.1 x.2) ∧ (∀ x ∈ later, ReadsStmt x.1 x.2) ∧
      Exposes us mid inner := by
  obtain ⟨_, hst, hinner⟩ := mem_insideAll.mp hmem
  obtain ⟨⟨us, mid⟩, hx, rfl⟩ := List.mem_map.mp hst
  obtain ⟨earlier, later, rfl⟩ := List.append_of_mem hx
  obtain ⟨hearlier, hrest⟩ := List.forall_mem_append.mp hreads
  exact ⟨earlier, later, us, mid, rfl, hearlier, (List.forall_mem_cons.mp hrest).2,
    .of_mem (hreads _ hx) (ih _ hx) hinner⟩

end

theorem ReadsStmt.exposes (h : ReadsStmt ts outer) : ∀ st ∈ outer.inside, Exposes ts outer st := by
  induction h with
  | classDecl hms hkw hname hl hreads hr ih =>
    intro st hst
    obtain ⟨earlier, later, us, mid, rfl, hearlier, hlater, hex⟩ := exposes_body hreads ih hst
    simpa using hex.within (.classBody hms hkw hname hl hearlier hlater hr)
  | methodDecl hms htype hname hl hps hr hlb hreads hrb ih =>
    intro st hst
    obtain ⟨earlier, later, us, mid, rfl, hearlier, hlater, hex⟩ := exposes_body hreads ih hst
    simpa using hex.within (.methodBody hms htype hname hl hps hr hlb hearlier hlater hrb)
  | block hms hl hreads hr ih =>
    intro st hst
    obtain ⟨earlier, later, us, mid, rfl, hearlier, hlater, hex⟩ := exposes_body hreads ih hst
    simpa using hex.within (.blockBody hms hl hearlier hlater hr)
  | whileLoop hms hkw hl he hr hb ih =>
    intro st hst
    simpa using (Exposes.of_mem hb ih hst).within (.loopBody hms hkw hl he hr)
  | ifThen hms hkw hl he hr ha ih =>
    intro st hst
    rw [Stmt.inside, Stmt.insideBranch, Stmt.insideBranch, List.append_nil] at hst
    simpa using (Exposes.of_mem ha ih hst).within (.onlyBranch hms hkw hl he hr)
  | ifElse hms hkw hl he hr ha hopen ho hb iha ihb =>
    intro st hst
    rcases List.mem_append.mp hst with hst | hst
    · simpa using (Exposes.of_mem ha iha hst).within (.thenBranch hms hkw hl he hr hopen ho hb)
    · simpa using (Exposes.of_mem hb ihb hst).within (.elseBranch hms hkw hl he hr ha hopen ho)
  | declaration | initialized | methodCall | assignment | increment | decrement =>
    intro st hst
    cases hst

/-- Every statement of a program, at any depth, is read from some of the tokens. -/
theorem ReadsProgram.exists_hasPart {p : Program} (h : ReadsProgram ts p) (hmem : inner ∈ Stmt.insideAll p) :
    ∃ before us after, ts = before ++ (us ++ after) ∧ ReadsStmt us inner ∧ HasPart inner before after p := by
  obtain ⟨body, hreads, rfl, rfl⟩ := h
  obtain ⟨earlier, later, us, mid, rfl, hearlier, hlater, before, vs, after, rfl, hvs, hpart⟩ :=
    exposes_body hreads (fun x hx => (hreads x hx).exposes) hmem
  refine ⟨earlier.flatMap Prod.fst ++ before, vs, after ++ later.flatMap Prod.fst, by simp, hvs, ?_⟩
  simpa using HasPart.mk hearlier hlater hpart

end Curly
