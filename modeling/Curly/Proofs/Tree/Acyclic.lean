import Curly.Proofs.Syntax.Growth
import Curly.Proofs.Tree.Ownership
import Curly.Tree.Walk
import Mathlib.Order.WellFoundedSet

/-! Only an append that adds to a node the node itself or one above it puts a node below itself. From a node that is
    not below itself a walk ends and visits every node below it once. Main statement: `acyclic_after`. -/

namespace Curly.Forest
open Relation
variable {f g : Forest} {c : Call} {h i p : Handle} {hs stack visited : List Handle}

/-! ### Children and parents -/

theorem childrenOf_of_entry {e : Entry} (he : f.entry? h = some e) : f.childrenOf h = e.children := by
  rw [childrenOf, he]
  rfl

theorem parent_iff_entry : f.Parent h i ↔ ∃ e, f.entry? h = some e ∧ i ∈ e.children := by
  cases he : f.entry? h with
  | none => simp [Parent, childrenOf, he]
  | some e => simp [Parent, childrenOf_of_entry he]

namespace Owning

theorem child_lt (hf : f.Owning) (hp : f.Parent h i) : i < f.count := by
  obtain ⟨e, he, hi⟩ := parent_iff_entry.mp hp
  exact lt_of_any (hf.attached i (List.mem_flatMap.mpr ⟨e, List.mem_of_getElem? he, hi⟩))

theorem lt_of_contains (hf : f.Owning) (hh : h < f.count) (hi : f.Contains h i) : i < f.count := by
  rcases hi.cases_tail with rfl | ⟨k, -, hk⟩
  · exact hh
  · exact hf.child_lt hk

theorem nodup_childrenOf (hf : f.Owning) (h : Handle) : (f.childrenOf h).Nodup := by
  cases he : f.entry? h with
  | none => simp [childrenOf, he]
  | some e =>
    rw [childrenOf_of_entry he]
    exact (List.nodup_flatMap.mp hf.nodup).1 e (List.mem_of_getElem? he)

theorem parent_unique (hf : f.Owning) (hp : f.Parent h i) (hq : f.Parent p i) : h = p := by
  obtain ⟨e, he, hi⟩ := parent_iff_entry.mp hp
  obtain ⟨e', he', hi'⟩ := parent_iff_entry.mp hq
  obtain ⟨hlt, rfl⟩ := List.getElem?_eq_some_iff.mp he
  obtain ⟨hlt', rfl⟩ := List.getElem?_eq_some_iff.mp he'
  have hdisjoint := List.pairwise_iff_getElem.mp (List.nodup_flatMap.mp hf.nodup).2
  rcases Nat.lt_trichotomy h p with hhp | heq | hph
  · exact absurd hi' (hdisjoint h p hlt hlt' hhp hi)
  · exact heq
  · exact absurd hi (hdisjoint p h hlt' hlt hph hi')

/-- Of two nodes above a third one, one is above the other. -/
theorem contains_total (hf : f.Owning) (hp : f.Contains h i) (hq : f.Contains p i) :
    f.Contains h p ∨ f.Contains p h := by
  induction hp with
  | refl => exact .inr hq
  | tail hhj hji ih =>
    rcases hq.cases_tail with rfl | ⟨k, hpk, hki⟩
    · exact .inl (hhj.tail hji)
    · exact ih (hf.parent_unique hki hji ▸ hpk)

/-- A node that is below itself has a parent that is. -/
theorem above_of_child (hf : f.Owning) (hp : f.Parent h i) (hi : f.Above i i) : f.Above h h := by
  obtain ⟨k, hik, hki⟩ := TransGen.tail'_iff.mp hi
  obtain rfl := hf.parent_unique hki hp
  exact .head' hki hik

end Owning

/-! ### What a call does to the children -/

theorem Adopts.childrenOf_eq (hg : f.Adopts hs g) (h : Handle) : g.childrenOf h = f.childrenOf h := by
  have hmap : ∀ k : Forest, k.childrenOf h = (k.entries.map Entry.children)[h]?.getD [] := fun k => by
    rw [childrenOf, entry?, List.getElem?_map]
  rw [hmap, hmap, hg.children]

theorem parent_push {e : Entry} : (f.push e).Parent h i ↔ f.Parent h i ∨ h = f.count ∧ i ∈ e.children := by
  rw [parent_iff_entry, parent_iff_entry]
  rcases Nat.lt_trichotomy h f.count with hlt | rfl | hgt
  · have hold : Forest.entry? (f.push e) h = f.entry? h := List.getElem?_append_left hlt
    simp [hold, Nat.ne_of_lt hlt]
  · have hnew : Forest.entry? (f.push e) f.count = some e := List.getElem?_concat_length
    have hnone : f.entry? f.count = none := List.getElem?_eq_none (Nat.le_refl _)
    simp [hnew, hnone]
  · have hnone : f.entry? h = none := List.getElem?_eq_none (Nat.le_of_lt hgt)
    have hnone' : Forest.entry? (f.push e) h = none := List.getElem?_eq_none (List.length_append.trans_le hgt)
    simp [hnone, hnone', Nat.ne_of_gt hgt]

theorem parent_addChild {parent child : Handle} (hparent : parent < f.count) :
    (f.addChild parent child).Parent h i ↔ f.Parent h i ∨ h = parent ∧ i = child := by
  have hsome : f.entry? parent = some f.entries[parent] := List.getElem?_eq_getElem hparent
  rw [parent_iff_entry, parent_iff_entry, addChild, modify_entry]
  split
  · next heq =>
    subst heq
    simp [hsome]
  · next hne => simp [Ne.symm hne]

/-- The node that gets the children of a call, if it succeeds: a new one, or the one that is added to. -/
def heir (f : Forest) : Call → Handle
  | .build _ => f.count
  | .append parent _ => parent

/-- A call that is refused changes no children. One that succeeds adds its children to one node. -/
theorem Performs.parent_iff {r : Option Refusal} (hp : f.Performs c g r) :
    g.Parent h i ↔ f.Parent h i ∨ r = none ∧ h = f.heir c ∧ i ∈ c.children := by
  cases hp with
  | refused _ hg => simp [Parent, hg.childrenOf_eq]
  | built hg he =>
    rw [parent_push, Parent, hg.childrenOf_eq, hg.count_eq, he]
    simp [Parent, heir, Call.children]
  | appended hparent hg =>
    rw [parent_addChild (hg.count_eq.symm ▸ hparent), Parent, hg.childrenOf_eq]
    simp [Parent, heir, Call.children]

theorem Above.after (ha : f.Above h i) (calls : List Call) : (f.after calls).Above h i := by
  refine after_induction (P := fun f => f.Above h i) (fun f c ha hc => ?_) ha calls
  exact TransGen.mono (fun _ _ hp => (performs hc).parent_iff.mpr (.inl hp)) _ _ ha

/-! ### Nodes below themselves -/

theorem Owning.not_contains_count (hf : f.Owning) (hi : i < f.count) : ¬ f.Contains i f.count :=
  fun hcount => Nat.lt_irrefl _ (hf.lt_of_contains hi hcount)

/-- A call that succeeds without closing a cycle adds nodes to one that is not below them. -/
theorem open_of_not_closes (hf : f.Owning) (hc : f.Admits c) (hopen : ¬ f.Closes c)
    (hr : (f.perform c).2 = none) : ∀ k ∈ c.children, ¬ f.Contains k (f.heir c) := by
  intro k hk
  cases c with
  | build d => exact hf.not_contains_count (hc k hk)
  | append parent child =>
    obtain rfl := List.mem_singleton.mp hk
    exact fun hcontains => hopen ⟨hc, hr, hcontains⟩

/-- What is below a node after a call was so before, or it is under a child that was added to a node below. -/
theorem Performs.above_cases {r : Option Refusal} (hp : f.Performs c g r)
    (hopen : r = none → ∀ k ∈ c.children, ¬ f.Contains k (f.heir c)) (ha : g.Above h i) :
    f.Above h i ∨ r = none ∧ f.Contains h (f.heir c) ∧ ∃ k ∈ c.children, f.Contains k i := by
  induction ha with
  | single hi =>
    rcases hp.parent_iff.mp hi with hold | ⟨hr, rfl, hnew⟩
    · exact .inl (.single hold)
    · exact .inr ⟨hr, .refl, _, hnew, .refl⟩
  | tail _ hji ih =>
    rcases hp.parent_iff.mp hji with hold | ⟨hr, rfl, hnew⟩
    · exact ih.imp (·.tail hold) fun ⟨hr, hh, k, hk, hkj⟩ => ⟨hr, hh, k, hk, hkj.tail hold⟩
    · rcases ih with ha | ⟨-, -, k, hk, hkj⟩
      · exact .inr ⟨hr, ha.to_reflTransGen, _, hnew, .refl⟩
      · exact absurd hkj (hopen hr k hk)

theorem Performs.acyclic {r : Option Refusal} (hp : f.Performs c g r)
    (hopen : r = none → ∀ k ∈ c.children, ¬ f.Contains k (f.heir c)) (hf : f.Acyclic) : g.Acyclic := by
  intro h ha
  rcases hp.above_cases hopen ha with ha | ⟨hr, hh, k, hk, hkh⟩
  · exact hf h ha
  · exact hopen hr k hk (hkh.trans hh)

theorem acyclic_empty : Acyclic .empty := by
  intro h ha
  obtain ⟨k, hk, -⟩ := TransGen.head'_iff.mp ha
  cases hk

/-- A call that closes a cycle can be made, and puts the node that it adds to below itself. -/
theorem Closes.above (hc : f.Closes c) : f.Admits c ∧ ∃ h, (f.perform c).1.Above h h := by
  cases c with
  | build d => cases hc
  | append parent child =>
    obtain ⟨hadmits, hr, hcontains⟩ := hc
    have hp := performs hadmits
    have hkept : ∀ {j k}, f.Parent j k → (f.perform (.append parent child)).1.Parent j k := fun hjk =>
      hp.parent_iff.mpr (.inl hjk)
    have hnew : (f.perform (.append parent child)).1.Parent parent child :=
      hp.parent_iff.mpr (.inr ⟨hr, rfl, List.mem_singleton_self child⟩)
    exact ⟨hadmits, parent, .head' hnew (ReflTransGen.mono (fun _ _ => hkept) _ _ hcontains)⟩

theorem after_concat (f : Forest) (calls : List Call) (c : Call) :
    f.after (calls ++ [c]) = if (f.after calls).Admits c then ((f.after calls).perform c).1 else f.after calls := by
  rw [after_append, after]
  rfl

theorem acyclic_iff (calls : List Call) : (Forest.empty.after calls).Acyclic ↔
    ∀ before c rest, calls = before ++ c :: rest → ¬ (Forest.empty.after before).Closes c := by
  constructor
  · rintro hf before c rest rfl hc
    obtain ⟨hadmits, h, ha⟩ := hc.above
    refine hf h ?_
    rw [after_append, after, if_pos hadmits]
    exact ha.after rest
  · intro hopen
    -- what came before a call tells whether it closes a cycle, so the calls are taken from the last one back
    induction calls using List.reverseRecOn with
    | nil => exact acyclic_empty
    | append_singleton calls c ih =>
      have hf := ih fun before c' rest hcalls => hopen before c' (rest ++ [c]) (by rw [hcalls]; simp)
      have hc := hopen calls c [] rfl
      rw [after_concat]
      split
      · next hadmits => exact (performs hadmits).acyclic (open_of_not_closes (owning_after calls) hadmits hc) hf
      · exact hf

/-! ### Walks -/

/-- No node is in the subtrees of both. -/
def Apart (f : Forest) (h p : Handle) : Prop := ∀ i, f.Contains h i → ¬ f.Contains p i

theorem Owning.apart_childrenOf (hf : f.Owning) (ha : ¬ f.Above h h) : (f.childrenOf h).Pairwise f.Apart := by
  -- one of two children with a node in common is above the other, and its parent `h` is then above itself
  have hbelow : ∀ {j k}, f.Parent h j → f.Parent h k → j ≠ k → ¬ f.Contains j k := by
    intro j k hj hk hne hjk
    rcases hjk.cases_tail with heq | ⟨p, hjp, hpk⟩
    · exact hne heq.symm
    · obtain rfl := hf.parent_unique hpk hk
      exact ha (.head' hj hjp)
  refine (hf.nodup_childrenOf h).imp_of_mem fun hj hk hne i hji hki => ?_
  rcases hf.contains_total hji hki with hjk | hkj
  · exact hbelow hj hk hne hjk
  · exact hbelow hk hj hne.symm hkj

namespace Walks

theorem mem_iff (hw : f.Walks stack visited) : i ∈ visited ↔ ∃ s ∈ stack, f.Contains s i := by
  induction hw with
  | done => simp
  | @visit h stack visited _ ih =>
    have hhi : f.Contains h i ↔ i = h ∨ ∃ k ∈ f.childrenOf h, f.Contains k i := by
      rw [Contains, ReflTransGen.cases_head_iff, eq_comm]
      rfl
    simp only [List.mem_cons, List.mem_append, ih, or_and_right, exists_or, exists_eq_left, hhi, or_assoc]

/-- A walk that ends comes to no node that is below itself. -/
theorem not_above (hw : f.Walks stack visited) : ∀ s ∈ stack, ∀ i, f.Contains s i → ¬ f.Above i i := by
  induction hw with
  | done => simp
  | @visit h stack visited _ ih =>
    have hchild : ∀ k, f.Parent h k → ∀ i, f.Contains k i → ¬ f.Above i i := fun k hk =>
      ih k (List.mem_append_left _ hk)
    refine List.forall_mem_cons.mpr ⟨fun i hi ha => ?_, fun s hs => ih s (List.mem_append_right _ hs)⟩
    rcases ReflTransGen.cases_head_iff.mp hi with rfl | ⟨k, hk, hki⟩
    · obtain ⟨k, hk, hkh⟩ := TransGen.head'_iff.mp ha
      exact hchild k hk _ hkh ha
    · exact hchild k hk i hki ha

/-- A walk over subtrees that have nothing in common visits no node twice. -/
theorem nodup (hf : f.Owning) (hw : f.Walks stack visited) (hs : stack.Pairwise f.Apart) : visited.Nodup := by
  induction hw with
  | done => exact .nil
  | @visit h stack visited hrest ih =>
    obtain ⟨hh, hstack⟩ := List.pairwise_cons.mp hs
    have ha : ¬ f.Above h h := (Walks.visit hrest).not_above h List.mem_cons_self h .refl
    refine List.nodup_cons.mpr ⟨fun hmem => ?_, ih ?_⟩
    · obtain ⟨s, hs, hsh⟩ := hrest.mem_iff.mp hmem
      rcases List.mem_append.mp hs with hs | hs
      · exact ha (.head' hs hsh)
      · exact hh s hs h .refl hsh
    · refine List.pairwise_append.mpr ⟨hf.apart_childrenOf ha, hstack, fun k hk s hs i hki => ?_⟩
      exact hh s hs i (.head hk hki)

end Walks

/-! ### Trees -/

theorem exists_allStand {P : Handle → Prop} (hhs : ∀ h ∈ hs, ∃ t, f.Stands P h t) : ∃ ts, f.AllStand P hs ts := by
  induction hs with
  | nil => exact ⟨[], rfl⟩
  | cons h hs ih =>
    rw [List.forall_mem_cons] at hhs
    obtain ⟨t, ht⟩ := hhs.1
    obtain ⟨ts, hts⟩ := ih hhs.2
    exact ⟨t :: ts, h, hs, rfl, ht, hts⟩

/-- Below a node that is not below itself stands a tree. -/
theorem Owning.exists_stands (hf : f.Owning) (hh : h < f.count) (ha : ¬ f.Above h h) :
    ∃ t, f.Stands (fun _ => True) h t := by
  -- the nodes that are not below themselves are finitely many, so one cannot go down from them for ever
  let below : Handle → Handle → Prop := fun i j => f.Above j i ∧ ¬ f.Above i i
  have horder : IsStrictOrder Handle below :=
    { irrefl := fun i hi => hi.2 hi.1
      trans := fun i j k hij hjk => ⟨hjk.1.trans hij.1, hij.2⟩ }
  have hwf : {i | i < f.count}.WellFoundedOn below := (Set.finite_lt_nat f.count).wellFoundedOn
  refine hwf.induction (P := fun h => ¬ f.Above h h → ∃ t, f.Stands (fun _ => True) h t) hh ?_ ha
  intro h hh ih ha
  have he : f.entry? h = some f.entries[h] := List.getElem?_eq_getElem hh
  have hchildren : ∀ i ∈ f.childrenOf h, ∃ t, f.Stands (fun _ => True) i t := fun i hi => by
    have hi' : ¬ f.Above i i := fun hii => ha (hf.above_of_child hi hii)
    exact ih i (hf.child_lt hi) ⟨.single hi, hi'⟩ hi'
  obtain ⟨ts, hts⟩ := exists_allStand hchildren
  rw [childrenOf_of_entry he] at hts
  have hcore : f.core? h = some { f.entries[h] with attached := false } := by
    rw [core?, he]
    rfl
  exact ⟨.node _ _ _ ts, trivial, _, hcore, rfl, rfl, rfl, hts⟩

theorem Stands.children {P : Handle → Prop} {t : Tree} (ht : f.Stands P h t) :
    f.AllStand P (f.childrenOf h) t.children ∧ (f.entry? h).map Entry.bare = some (.leaf t.kind t.value t.line) := by
  cases t with
  | node kind value line ts =>
    obtain ⟨-, e, he, rfl, rfl, rfl, hts⟩ := ht
    obtain ⟨e', he', rfl⟩ := Option.map_eq_some_iff.mp he
    rw [childrenOf_of_entry he', he']
    exact ⟨hts, rfl⟩

/-- Over trees that stand, a walk ends. It visits their nodes in the order in which the trees are walked. -/
theorem AllStand.walks {P : Handle → Prop} {ts : List Tree} (hts : f.AllStand P stack ts) :
    ∃ visited, f.Walks stack visited ∧ visited.map (fun i => (f.entry? i).map Entry.bare) =
      (Tree.visit ts).map fun t => some (.leaf t.kind t.value t.line) := by
  induction ts using Tree.visit.induct generalizing stack with
  | case1 =>
    obtain rfl := hts
    exact ⟨[], .done, by rw [Tree.visit]; rfl⟩
  | case2 t ts ih =>
    obtain ⟨h, rest, rfl, ht, hts⟩ := hts
    obtain ⟨hchildren, hbare⟩ := ht.children
    obtain ⟨visited, hw, hmap⟩ := ih (hchildren.append hts)
    exact ⟨h :: visited, .visit hw, by rw [Tree.visit, List.map_cons, List.map_cons, hbare, hmap]⟩

theorem allStand_of_mapM {P : Handle → Prop} {find : Handle → Option Tree} {ts : List Tree}
    (hfind : ∀ h t, find h = some t → f.Stands P h t) (hts : hs.mapM find = some ts) : f.AllStand P hs ts := by
  induction hs generalizing ts with
  | nil =>
    cases hts
    rfl
  | cons h hs ih =>
    simp only [List.mapM_cons, Option.bind_eq_bind, Option.bind_eq_some_iff, Option.pure_def, Option.some.injEq] at hts
    obtain ⟨t, ht, ts, hts, rfl⟩ := hts
    exact ⟨h, hs, rfl, hfind h t ht, ih hts⟩

theorem stands_of_treeWithin {depth : Nat} {t : Tree} (ht : f.treeWithin depth h = some t) :
    f.Stands (fun _ => True) h t := by
  induction depth generalizing h t with
  | zero => cases ht
  | succ depth ih =>
    simp only [treeWithin, Option.bind_eq_bind, Option.bind_eq_some_iff, Option.pure_def, Option.some.injEq] at ht
    obtain ⟨e, he, ts, hts, rfl⟩ := ht
    have hcore : f.core? h = some { e with attached := false } := by
      rw [core?, he]
      rfl
    exact ⟨trivial, _, hcore, rfl, rfl, rfl, allStand_of_mapM (fun _ _ => ih) hts⟩

/-! ### After a sequence of calls -/

/-- From a node that is not below itself a walk ends. It visits the node and all below it, each once, and is the walk
    over the tree of the node. -/
theorem Owning.walk (hf : f.Owning) (hh : h < f.count) (ha : ¬ f.Above h h) :
    ∃ visited t, f.Walks [h] visited ∧ visited.Nodup ∧ (∀ i, i ∈ visited ↔ f.Contains h i) ∧ f.tree? h = some t ∧
      visited.map (fun i => (f.entry? i).map Entry.bare) = t.walk.map fun u => some (.leaf u.kind u.value u.line) := by
  obtain ⟨t, ht⟩ := hf.exists_stands hh ha
  have hts : f.AllStand (fun _ => True) [h] [t] := ⟨h, [], rfl, ht, rfl⟩
  obtain ⟨visited, hw, hmap⟩ := hts.walks
  have hnodup := hw.nodup hf (List.pairwise_singleton _ _)
  have hmem : ∀ i, i ∈ visited ↔ f.Contains h i := fun i => by rw [hw.mem_iff]; simp
  have hsize : t.size ≤ f.count := by
    have hsub : visited.Subperm (List.range f.count) :=
      hnodup.subperm fun i hi => List.mem_range.mpr (hf.lt_of_contains hh ((hmem i).mp hi))
    have hlength := congrArg List.length hmap
    rw [List.length_map, List.length_map, Tree.length_visit] at hlength
    simpa [hlength, Tree.sizes] using hsub.length_le
  exact ⟨visited, t, hw, hnodup, hmem, ht.treeWithin_eq hsize, hmap⟩

/-- There is no tree below a node that is below itself, and no walk from it ends. -/
theorem Above.endless (ha : f.Above h h) : f.tree? h = none ∧ ∀ visited, ¬ f.Walks [h] visited := by
  have hwalks : ∀ visited, ¬ f.Walks [h] visited := fun visited hw =>
    hw.not_above h (List.mem_singleton_self h) h .refl ha
  refine ⟨Option.eq_none_iff_forall_ne_some.mpr fun t ht => ?_, hwalks⟩
  have hts : f.AllStand (fun _ => True) [h] [t] := ⟨h, [], rfl, stands_of_treeWithin ht, rfl⟩
  obtain ⟨visited, hw, -⟩ := hts.walks
  exact hwalks visited hw

/-- Whatever calls are made, in whatever order, and whichever of them are refused: no node is below itself exactly if
    none of them added to a node the node itself or one above it. From a node that is not below itself a walk ends and
    visits the node and all below it, each once, as the walk over its tree does; from any other no walk ends. -/
theorem acyclic_after (calls : List Call) :
    let f := Forest.empty.after calls
    (f.Acyclic ↔ ∀ before c rest, calls = before ++ c :: rest → ¬ (Forest.empty.after before).Closes c) ∧
    ∀ h < f.count,
      (¬ f.Above h h → ∃ visited t, f.Walks [h] visited ∧ visited.Nodup ∧ (∀ i, i ∈ visited ↔ f.Contains h i) ∧
        f.tree? h = some t ∧ visited.map (fun i => (f.entry? i).map Entry.bare) =
          t.walk.map fun u => some (.leaf u.kind u.value u.line)) ∧
      (f.Above h h → f.tree? h = none ∧ ∀ visited, ¬ f.Walks [h] visited) :=
  ⟨acyclic_iff calls, fun _ hh => ⟨(owning_after calls).walk hh, Above.endless⟩⟩

/-- Beside a block that is below itself, a block with a name in it is walked as ever. -/
theorem acyclic_after_beside :
    let f := Forest.empty.after [.build (.leaf .identifier "x" 1), .build (.block [] 1), .append 1 0,
      .build (.block [] 2), .append 2 2]
    1 < f.count ∧ ¬ f.Above 1 1 ∧
      ∃ visited t, f.Walks [1] visited ∧ visited.Nodup ∧ (∀ i, i ∈ visited ↔ f.Contains 1 i) ∧ f.tree? 1 = some t ∧
        visited.map (fun i => (f.entry? i).map Entry.bare) =
          t.walk.map fun u => some (.leaf u.kind u.value u.line) := by
  intro f
  have hcount : 1 < f.count := by decide
  have hblock : f.childrenOf 1 = [0] := by decide
  have hname : f.childrenOf 0 = [] := by decide
  have habove : ¬ f.Above 1 1 := fun ha => by
    obtain ⟨k, hk, hk1⟩ := TransGen.head'_iff.mp ha
    rw [Parent, hblock, List.mem_singleton] at hk
    rcases ReflTransGen.cases_head_iff.mp (hk ▸ hk1) with h01 | ⟨j, hj, -⟩
    · cases h01
    · rw [Parent, hname] at hj
      cases hj
  exact ⟨hcount, habove, ((acyclic_after _).2 1 hcount).1 habove⟩

/-- A block that is added to itself is below itself, and no walk from it ends. -/
theorem block_above_itself :
    let f := Forest.empty.after [.build (.block [] 1), .append 0 0]
    f.Above 0 0 ∧ ∀ visited, ¬ f.Walks [0] visited := by
  intro f
  have hchildren : f.childrenOf 0 = [0] := by decide
  have habove : f.Above 0 0 := .single (by rw [Parent, hchildren]; exact List.mem_singleton_self 0)
  exact ⟨habove, habove.endless.2⟩

end Curly.Forest
