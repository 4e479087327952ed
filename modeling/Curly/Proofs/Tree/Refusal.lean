import Curly.Proofs.Syntax.Growth
import Curly.Proofs.Tree.Ownership

/-! What a call that is refused leaves behind. No node is built, and nothing is changed of those that are there but this: the
    nodes that the call had attached before it came to the one that is refused stay attached, although to nothing. Main
    statement: `spared_of_refused`. -/

namespace Curly.Forest
variable {f g : Forest} {c : Call} {h i k : Handle} {hs : List Handle}

/-! ### Nodes as they are -/

theorem free_iff : f.Free i ↔ i < f.count ∧ f.isAttached i = false := by
  unfold Free isAttached
  constructor
  · rintro ⟨e, he, hfree⟩
    rw [he]
    exact ⟨lt_of_entry he, hfree⟩
  · rintro ⟨hi, hfree⟩
    have he : f.entry? i = some f.entries[i] := List.getElem?_eq_getElem hi
    rw [he] at hfree
    exact ⟨_, he, hfree⟩

/-- A forest is what its nodes are and which of them are attached. -/
theorem eq_of_core? (hcore : ∀ i, g.core? i = f.core? i) (hattached : ∀ i, g.isAttached i = f.isAttached i) : g = f := by
  have hentry : ∀ i, g.entry? i = f.entry? i := by
    intro i
    have hcore := hcore i
    have hattached := hattached i
    unfold core? at hcore
    unfold isAttached at hattached
    cases hg : g.entry? i with
    | none =>
      rw [hg, Option.map_none, eq_comm, Option.map_eq_none_iff] at hcore
      rw [hcore]
    | some e =>
      rw [hg, Option.map_some, eq_comm, Option.map_eq_some_iff] at hcore
      obtain ⟨e', he', heq⟩ := hcore
      rw [hg, he'] at hattached
      rw [he']
      cases e
      cases e'
      simp_all
  obtain ⟨gs⟩ := g
  obtain ⟨fs⟩ := f
  exact congrArg Forest.mk (List.ext_getElem? hentry)

theorem core?_modify_attached : (f.modify h fun e => { e with attached := true }).core? i = f.core? i := by
  unfold core?
  rw [modify_entry]
  split
  · cases f.entry? i <;> rfl
  · rfl

/-- Attaching changes nothing of the nodes but that they are attached, be it refused or not. -/
theorem core?_attach (f : Forest) (hs : List Handle) (i : Handle) : (f.attach hs).1.core? i = f.core? i := by
  induction hs generalizing f with
  | nil => rfl
  | cons h hs ih =>
    rw [attach]
    split
    · rfl
    · rw [ih, core?_modify_attached]

/-! ### Refused calls -/

/-- A call that is refused does no more than attach nodes. -/
theorem core?_of_refused (hr : f.perform c = (g, some (.attached k))) : g.core? i = f.core? i := by
  suffices h : g = (f.attach c.children).1 by rw [h, core?_attach]
  cases c with
  | build d =>
    simp only [perform, build] at hr
    split at hr
    · next heq =>
      split at heq <;> cases heq
      cases hr
    · next heq =>
      split at heq <;> cases heq
      next hattach =>
      obtain ⟨rfl, -⟩ := Prod.mk.inj hr
      exact (congrArg Prod.fst hattach).symm
  | append parent child =>
    simp only [perform, append] at hr
    split at hr
    · split at hr <;> cases hr
      next hattach => exact (congrArg Prod.fst hattach).symm
    · cases hr

theorem Admits.lt (hc : f.Admits c) : ∀ i ∈ c.children, i < f.count := by
  cases c with
  | build d => exact hc
  | append parent child => exact List.forall_mem_singleton.mpr hc.1

/-- A call that is refused, because a node that it is to attach has a parent already or was to have one twice, builds
    nothing and leaves all nodes as they are. Only those that it had attached before, which stand in front of the refused
    node, cannot be attached any more. If it was to attach one node only, as every append is, nothing is changed at all. -/
theorem spared_of_refused (hc : f.Admits c) (hr : f.perform c = (g, some (.attached k))) :
    ∃ taken rest, c.children = taken ++ k :: rest ∧ (∀ i ∈ taken, f.Free i) ∧ (f.isAttached k = true ∨ k ∈ taken) ∧
      g.count = f.count ∧ (∀ i, g.core? i = f.core? i) ∧ (∀ i, g.Free i ↔ f.Free i ∧ i ∉ taken) ∧
      (c.children.length = 1 → g = f) := by
  have hcore : ∀ i, g.core? i = f.core? i := fun i => core?_of_refused hr
  have hp := performs hc
  rw [hr] at hp
  cases hp with
  | @refused _ _ taken rest _ hchildren hg hk =>
    have htaken : ∀ i ∈ taken, f.Free i := fun i hi =>
      free_iff.mpr ⟨hc.lt i (hchildren ▸ List.mem_append_left _ hi), hg.free i hi⟩
    have hfree : ∀ i, g.Free i ↔ f.Free i ∧ i ∉ taken := fun i => by
      rw [free_iff, free_iff, hg.count_eq, ← Bool.not_eq_true, ← Bool.not_eq_true, hg.attached, not_or, and_assoc]
    refine ⟨taken, rest, hchildren, htaken, (hg.attached k).mp hk, hg.count_eq, hcore, hfree, fun hone => ?_⟩
    have hnil : taken = [] := by
      rw [hchildren, List.length_append, List.length_cons] at hone
      exact List.length_eq_zero_iff.mp (by omega)
    subst hnil
    exact eq_of_core? hcore fun i => Bool.eq_iff_iff.mpr (by simpa using hg.attached i)

/-- A method is not built because it was to have a modifier twice. The return type, which was attached first, is lost. -/
theorem spared_of_refused_modifier :
    let f := Forest.empty.after [.build (.leaf .returnType "int" 1), .build (.leaf .modifier "static" 1)]
    let c : Call := .build (.methodDecl "f" 0 [1, 1] [] 1)
    let g := (f.perform c).1
    f.Admits c ∧ f.perform c = (g, some (.attached 1)) ∧
      ∃ taken rest, c.children = taken ++ 1 :: rest ∧ (∀ i ∈ taken, f.Free i) ∧ (f.isAttached 1 = true ∨ 1 ∈ taken) ∧
        g.count = f.count ∧ (∀ i, g.core? i = f.core? i) ∧ (∀ i, g.Free i ↔ f.Free i ∧ i ∉ taken) ∧
        (c.children.length = 1 → g = f) := by
  intro f c g
  have hc : f.Admits c := by decide
  have hr : f.perform c = (g, some (.attached 1)) := by decide
  exact ⟨hc, hr, spared_of_refused hc hr⟩

/-- An addition is not built because its right operand has a parent already. The left one, which could be added to a block
    before, cannot be added to it any more. -/
theorem refused_takes_operand :
    let f := Forest.empty.after [.build (.leaf .number "1" 1), .build (.leaf .identifier "x" 1), .build (.block [1] 1),
      .build (.block [] 2)]
    let c : Call := .build (.operation .binaryOp "+" 0 1 0)
    f.Admits c ∧ (f.perform c).2 = some (.attached 1) ∧ f.Free 0 ∧ (f.append 3 0).2 = none ∧
      ¬ (f.perform c).1.Free 0 ∧ ((f.perform c).1.append 3 0).2 = some (.attached 0) := by
  refine ⟨by decide, by decide, ⟨_, rfl, rfl⟩, by decide, ?_, by decide⟩
  rintro ⟨e, he, hfree⟩
  cases he
  cases hfree

end Curly.Forest
