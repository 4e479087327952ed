import Curly.Tree.Call
import Mathlib.Data.List.Perm.Basic

/-! Children are owned exclusively, whatever calls are made, in whatever order, and whichever of them are refused: no node
    is twice among the children of all nodes, and one that is a child is refused ever after. Main statement:
    `places_exclusive`. -/

namespace Curly.Forest
variable {f g : Forest} {c : Call} {h : Handle} {hs : List Handle}

/-! ### What a call does -/

/-- One more node. -/
def push (f : Forest) (e : Entry) : Forest := ⟨f.entries ++ [e]⟩

/-- One more child at the end of the children of a node. -/
def addChild (f : Forest) (parent child : Handle) : Forest :=
  f.modify parent fun e => { e with children := e.children ++ [child] }

/-- Of `f` the nodes `hs` were attached and nothing else was changed, which gave `g`. -/
structure Adopts (f : Forest) (hs : List Handle) (g : Forest) : Prop where
  free : ∀ h ∈ hs, f.isAttached h = false
  nodup : hs.Nodup
  children : g.entries.map Entry.children = f.entries.map Entry.children
  attached : ∀ i, g.isAttached i = true ↔ f.isAttached i = true ∨ i ∈ hs

namespace Adopts

theorem nil (f : Forest) : f.Adopts [] f := ⟨by simp, .nil, rfl, by simp⟩

theorem cons (hh : h < f.count) (hfree : f.isAttached h = false)
    (hrest : (f.modify h fun e => { e with attached := true }).Adopts hs g) : f.Adopts (h :: hs) g := by
  have hstep : ∀ i, (f.modify h fun e => { e with attached := true }).isAttached i = true ↔
      f.isAttached i = true ∨ i = h := by
    intro i
    unfold isAttached
    rw [modify_entry]
    split
    · next heq =>
      subst heq
      have hsome : f.entry? h = some f.entries[h] := List.getElem?_eq_getElem hh
      simp [hsome]
    · next hne => simp [Ne.symm hne]
  have hnot : ∀ i ∈ hs, f.isAttached i = false ∧ i ≠ h := by
    intro i hi
    have hi' := hrest.free i hi
    rw [Bool.eq_false_iff, Ne, hstep, not_or] at hi'
    exact ⟨by simpa using hi'.1, hi'.2⟩
  refine ⟨List.forall_mem_cons.mpr ⟨hfree, fun i hi => (hnot i hi).1⟩, ?_, ?_, fun i => ?_⟩
  · exact List.nodup_cons.mpr ⟨fun hmem => (hnot h hmem).2 rfl, hrest.nodup⟩
  · rw [hrest.children]
    refine List.ext_getElem? fun i => ?_
    simp only [modify, List.getElem?_map, List.getElem?_modify]
    cases f.entries[i]? <;> simp [apply_ite Entry.children]
  · rw [hrest.attached, hstep, List.mem_cons, or_assoc]

theorem count_eq (hg : f.Adopts hs g) : g.count = f.count := by
  simpa [count] using congrArg List.length hg.children

theorem places_eq (hg : f.Adopts hs g) : g.places = f.places := by
  simp only [places, List.flatMap_def, hg.children]

end Adopts

/-- Nodes are attached up to the first that is attached already. -/
theorem attach_cases (hhs : ∀ h ∈ hs, h < f.count) : (∃ g, f.attach hs = (g, none) ∧ f.Adopts hs g) ∨
    ∃ before k rest g, hs = before ++ k :: rest ∧ f.attach hs = (g, some (.attached k)) ∧ f.Adopts before g ∧
      g.isAttached k = true := by
  induction hs generalizing f with
  | nil => exact .inl ⟨f, rfl, .nil f⟩
  | cons h hs ih =>
    rw [List.forall_mem_cons] at hhs
    rw [attach]
    split
    · next hatt => exact .inr ⟨[], h, hs, f, rfl, rfl, .nil f, hatt⟩
    · next hfree =>
      rw [Bool.not_eq_true] at hfree
      -- the rest is attached to a forest in which `h` is attached already, so that `h` is not attached twice
      rcases ih fun i hi => count_modify.symm ▸ hhs.2 i hi with ⟨g, hg, hadopts⟩ | ⟨before, k, rest, g, rfl, hg, hadopts, hk⟩
      · exact .inl ⟨g, hg, .cons hhs.1 hfree hadopts⟩
      · exact .inr ⟨h :: before, k, rest, g, rfl, hg, .cons hhs.1 hfree hadopts, hk⟩

/-- What comes of a call on `f`: it is refused at a node `k`, with those before it attached; or the nodes are attached
    and become the children of a new node, or one more child of an old one. -/
inductive Performs (f : Forest) : Call → Forest → Option Refusal → Prop where
  | refused {c : Call} {g : Forest} {before rest : List Handle} {k : Handle} (hc : c.children = before ++ k :: rest)
    (hg : f.Adopts before g) (hk : g.isAttached k = true) : f.Performs c g (some (.attached k))
  | built {d : Draft Handle} {g : Forest} {e : Entry} (hg : f.Adopts d.children g) (he : e.children = d.children) :
    f.Performs (.build d) (g.push e) none
  | appended {parent child : Handle} {g : Forest} (hparent : parent < f.count) (hg : f.Adopts [child] g) :
    f.Performs (.append parent child) (g.addChild parent child) none

theorem performs (hc : f.Admits c) : f.Performs c (f.perform c).1 (f.perform c).2 := by
  cases c with
  | build d =>
    rcases attach_cases hc with ⟨g, hg, hadopts⟩ | ⟨before, k, rest, g, hd, hg, hadopts, hk⟩
    · simp only [perform, build, hg]
      exact .built hadopts rfl
    · simp only [perform, build, hg]
      exact .refused hd hadopts hk
  | append parent child =>
    obtain ⟨hchild, hcontainer⟩ := hc
    have hparent := lt_of_any hcontainer
    have hchildren : ∀ h ∈ [child], h < f.count := by simpa using hchild
    rcases attach_cases hchildren with
      ⟨g, hg, hadopts⟩ | ⟨before, k, rest, g, hd, hg, hadopts, hk⟩
    · simp only [perform, append, hcontainer, ↓reduceIte, hg]
      exact .appended hparent hadopts
    · simp only [perform, append, hcontainer, ↓reduceIte, hg]
      exact .refused hd hadopts hk

/-! ### What every call keeps -/

theorem isAttached_addChild {parent child : Handle} : (f.addChild parent child).isAttached h = f.isAttached h := by
  unfold isAttached addChild
  rw [modify_entry]
  split
  · cases f.entry? h <;> rfl
  · rfl

theorem isAttached_push {e : Entry} (hh : f.isAttached h = true) : (f.push e).isAttached h = true := by
  unfold isAttached entry? at hh ⊢
  cases he : f.entries[h]? with
  | none =>
    rw [he] at hh
    cases hh
  | some e' =>
    rw [he] at hh
    rw [push, List.getElem?_append_left (List.getElem?_eq_some_iff.mp he).1, he]
    exact hh

/-- A node that is attached stays so. -/
theorem Performs.isAttached {r : Option Refusal} (hp : f.Performs c g r) (hh : f.isAttached h = true) :
    g.isAttached h = true := by
  cases hp with
  | refused _ hg => exact (hg.attached h).mpr (.inl hh)
  | built hg => exact isAttached_push ((hg.attached h).mpr (.inl hh))
  | appended _ hg => exact isAttached_addChild.trans ((hg.attached h).mpr (.inl hh))

theorem isAttached_after (calls : List Call) (hh : f.isAttached h = true) : (f.after calls).isAttached h = true :=
  after_induction (P := fun f => f.isAttached h = true) (fun _ _ hh hc => (performs hc).isAttached hh) hh calls

theorem places_push (f : Forest) (e : Entry) : (f.push e).places = f.places ++ e.children := by
  simp [places, push]

theorem places_addChild {parent : Handle} (hparent : parent < f.count) (child : Handle) :
    (f.addChild parent child).places.Perm (f.places ++ [child]) := by
  suffices h : (f.addChild parent child).places.Perm (child :: f.places) from
    h.trans (List.perm_append_singleton child f.places).symm
  obtain ⟨entries⟩ := f
  unfold places addChild modify
  induction entries generalizing parent with
  | nil => cases hparent
  | cons e entries ih =>
    cases parent with
    | zero =>
      simp only [List.modify_zero_cons, List.flatMap_cons, List.append_assoc, List.singleton_append]
      exact List.perm_middle
    | succ parent =>
      simp only [List.modify_succ_cons, List.flatMap_cons]
      exact ((ih (Nat.lt_of_succ_lt_succ hparent)).append_left _).trans List.perm_middle

/-- No node is twice among the children of all nodes, and all of them are attached. -/
structure Owning (f : Forest) : Prop where
  nodup : f.places.Nodup
  attached : ∀ h ∈ f.places, f.isAttached h = true

theorem owning_empty : Owning .empty := ⟨.nil, by simp [places, empty]⟩

theorem Adopts.owning (hg : f.Adopts hs g) (hf : f.Owning) : (g.places ++ hs).Nodup ∧
    ∀ h ∈ g.places ++ hs, g.isAttached h = true := by
  rw [hg.places_eq]
  refine ⟨List.nodup_append.mpr ⟨hf.nodup, hg.nodup, fun a ha b hb hab => ?_⟩, fun h hh => ?_⟩
  · subst hab
    have hfree := hg.free a hb
    rw [hf.attached a ha] at hfree
    cases hfree
  · exact (hg.attached h).mpr ((List.mem_append.mp hh).imp_left (hf.attached h))

theorem Performs.owning {r : Option Refusal} (hp : f.Performs c g r) (hf : f.Owning) : g.Owning := by
  cases hp with
  | refused _ hg =>
    obtain ⟨hnodup, hatt⟩ := hg.owning hf
    exact ⟨(List.nodup_append.mp hnodup).1, fun h hh => hatt h (List.mem_append_left _ hh)⟩
  | built hg he =>
    obtain ⟨hnodup, hatt⟩ := hg.owning hf
    rw [← he, ← places_push] at hnodup hatt
    exact ⟨hnodup, fun h hh => isAttached_push (hatt h hh)⟩
  | @appended _ child _ hparent hg =>
    obtain ⟨hnodup, hatt⟩ := hg.owning hf
    have hperm := places_addChild (hg.count_eq.symm ▸ hparent) child
    exact ⟨hperm.nodup_iff.mpr hnodup, fun h hh => isAttached_addChild.trans (hatt h (hperm.mem_iff.mp hh))⟩

theorem owning_after (calls : List Call) : (Forest.empty.after calls).Owning :=
  after_induction (fun _ _ hf hc => (performs hc).owning hf) owning_empty calls

/-- A call that is to attach a node that is attached is refused, there or before it comes to it. -/
theorem Performs.refused_of_isAttached {r : Option Refusal} (hp : f.Performs c g r) (hh : f.isAttached h = true)
    (hmem : h ∈ c.children) :
    ∃ before k rest, c.children = before ++ k :: rest ∧ h ∉ before ∧ r = some (.attached k) := by
  have hnot : ∀ {hs g}, f.Adopts hs g → h ∉ hs := fun hg hmem => by
    rw [hg.free h hmem] at hh
    cases hh
  cases hp with
  | refused hd hg => exact ⟨_, _, _, hd, hnot hg, rfl⟩
  | built hg | appended _ hg => exact absurd hmem (hnot hg)

/-- Whatever calls are made, each node is at most once among the children of all nodes. A node that is among them is
    refused ever after: a call that is to attach it is refused at it or at a node in front of it. -/
theorem places_exclusive (calls : List Call) : (Forest.empty.after calls).places.Nodup ∧
    ∀ h ∈ (Forest.empty.after calls).places, ∀ (later : List Call) (c : Call),
      ((Forest.empty.after calls).after later).Admits c → h ∈ c.children →
      ∃ before k rest, c.children = before ++ k :: rest ∧ h ∉ before ∧
        (((Forest.empty.after calls).after later).perform c).2 = some (.attached k) := by
  have hf := owning_after calls
  refine ⟨hf.nodup, fun h hh later c hc hmem => ?_⟩
  exact (performs hc).refused_of_isAttached (isAttached_after later (hf.attached h hh)) hmem

/-- A name is added to a block, and then refused as the right operand, behind a left one that is free. -/
theorem places_exclusive_operand :
    let f := Forest.empty.after [.build (.leaf .identifier "x" 1), .build (.block [] 1), .append 1 0]
    let later : List Call := [.append 1 0, .build (.leaf .number "2" 1)]
    let c : Call := .build (.operation .binaryOp "+" 2 0 0)
    0 ∈ f.places ∧ (f.after later).Admits c ∧ 0 ∈ c.children ∧
      ∃ before k rest, c.children = before ++ k :: rest ∧ 0 ∉ before ∧
        ((f.after later).perform c).2 = some (.attached k) := by
  intro f later c
  have hplace : 0 ∈ f.places := by decide
  have hadmits : (f.after later).Admits c := by decide
  have hmem : 0 ∈ c.children := by decide
  exact ⟨hplace, hadmits, hmem, (places_exclusive _).2 0 hplace later c hadmits hmem⟩

end Curly.Forest
