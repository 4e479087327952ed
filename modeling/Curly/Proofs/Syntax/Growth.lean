import Curly.Syntax.Growth

/-! Growing a tree is never refused, and the tree that is grown is that of the program. What is built and not yet
    attached is `Pending`; a container to which more is added is `Holding` what it has so far. Main statement:
    `grow_program`. -/

namespace Curly

namespace Forest

/-- A node as it is, attached or not. -/
def core? (f : Forest) (h : Handle) : Option Entry := (f.entry? h).map fun e => { e with attached := false }

/-- There is such a node, and it can be attached. -/
def Free (f : Forest) (h : Handle) : Prop := ∃ e, f.entry? h = some e ∧ e.attached = false

theorem Free.lt {f : Forest} {h : Handle} (hf : f.Free h) : h < f.count := by
  obtain ⟨e, he, -⟩ := hf
  exact lt_of_entry he

mutual
/-- A tree stands below a node. Its nodes are among those of `P`. -/
def Stands (f : Forest) (P : Handle → Prop) (h : Handle) : Tree → Prop
  | .node kind value line ts => P h ∧
      ∃ e, f.core? h = some e ∧ e.kind = kind ∧ e.value = value ∧ e.line = line ∧ AllStand f P e.children ts

def AllStand (f : Forest) (P : Handle → Prop) : List Handle → List Tree → Prop
  | hs, [] => hs = []
  | hs, t :: ts => ∃ h rest, hs = h :: rest ∧ Stands f P h t ∧ AllStand f P rest ts
end

section
variable {f g : Forest} {P Q : Handle → Prop}

mutual
/-- A tree is left standing by what does not change its nodes, save that they may be attached. -/
theorem Stands.frame (hPQ : ∀ i, P i → Q i) (hfg : ∀ i, P i → g.core? i = f.core? i) {h : Handle} :
    ∀ {t : Tree}, f.Stands P h t → g.Stands Q h t
  | .node .., ⟨hP, e, he, hk, hv, hl, hts⟩ =>
    ⟨hPQ h hP, e, (hfg h hP).trans he, hk, hv, hl, AllStand.frame hPQ hfg hts⟩

theorem AllStand.frame (hPQ : ∀ i, P i → Q i) (hfg : ∀ i, P i → g.core? i = f.core? i) {hs : List Handle} :
    ∀ {ts : List Tree}, f.AllStand P hs ts → g.AllStand Q hs ts
  | [], hts => hts
  | _ :: _, ⟨h, rest, heq, ht, hts⟩ => ⟨h, rest, heq, ht.frame hPQ hfg, hts.frame hPQ hfg⟩
end

variable {h : Handle} {hs ks : List Handle} {t : Tree} {ts us : List Tree}

theorem AllStand.append (hts : f.AllStand P hs ts) (hus : f.AllStand P ks us) : f.AllStand P (hs ++ ks) (ts ++ us) := by
  induction ts generalizing hs with
  | nil =>
    obtain rfl := hts
    exact hus
  | cons t ts ih =>
    obtain ⟨h, rest, rfl, ht, hts⟩ := hts
    exact ⟨h, rest ++ ks, rfl, ht, ih hts⟩

theorem AllStand.of_append (hlen : hs.length = ts.length) (hts : f.AllStand P (hs ++ ks) (ts ++ us)) :
    f.AllStand P hs ts ∧ f.AllStand P ks us := by
  induction ts generalizing hs with
  | nil =>
    obtain rfl := List.length_eq_zero_iff.mp hlen
    exact ⟨rfl, hts⟩
  | cons t ts ih =>
    cases hs with
    | nil => cases hlen
    | cons h rest =>
      obtain ⟨h', rest', heq, ht, hts⟩ := hts
      cases heq
      obtain ⟨hts, hus⟩ := ih (Nat.succ_inj.mp hlen) hts
      exact ⟨⟨h, rest, rfl, ht, hts⟩, hus⟩

theorem AllStand.mem (hts : f.AllStand P hs ts) (hh : h ∈ hs) : P h := by
  induction ts generalizing hs with
  | nil =>
    obtain rfl := hts
    cases hh
  | cons t ts ih =>
    obtain ⟨h', rest, rfl, ht, hts⟩ := hts
    cases hh with
    | head =>
      cases t
      exact ht.1
    | tail _ hh => exact ih hts hh

theorem AllStand.length_eq (hts : f.AllStand P hs ts) : hs.length = ts.length := by
  induction ts generalizing hs with
  | nil =>
    obtain rfl := hts
    rfl
  | cons t ts ih =>
    obtain ⟨h, rest, rfl, -, hts⟩ := hts
    rw [List.length_cons, List.length_cons, ih hts]

theorem Stands.line_eq (ht : f.Stands P h t) : f.lineOf h = t.line := by
  cases t with
  | node kind value line ts =>
    obtain ⟨-, e, he, -, -, rfl, -⟩ := ht
    obtain ⟨e', he', rfl⟩ := Option.map_eq_some_iff.mp he
    simp [lineOf, he', Tree.line]

mutual
/-- The tree that stands below a node is found there. -/
theorem Stands.treeWithin_eq {h : Handle} : ∀ {t : Tree} {depth : Nat}, f.Stands P h t → t.size ≤ depth →
    f.treeWithin depth h = some t
  | .node .., depth, ⟨_, e, he, hk, hv, hl, hts⟩, hd => by
    obtain ⟨e', he', rfl⟩ := Option.map_eq_some_iff.mp he
    rw [Tree.size, Nat.add_comm] at hd
    cases depth with
    | zero => omega
    | succ depth =>
      have hch := hts.treeWithin_eq (Nat.le_of_succ_le_succ hd)
      simp only at hk hv hl hch
      simp [treeWithin, he', hch, hk, hv, hl]

theorem AllStand.treeWithin_eq {hs : List Handle} : ∀ {ts : List Tree} {depth : Nat}, f.AllStand P hs ts →
    Tree.sizes ts ≤ depth → hs.mapM (f.treeWithin depth) = some ts
  | [], _, hts, _ => by
    obtain rfl := hts
    rfl
  | t :: ts, depth, ⟨h, rest, heq, ht, hts⟩, hd => by
    rw [Tree.sizes] at hd
    have ht' := ht.treeWithin_eq (Nat.le_trans (Nat.le_add_right _ _) hd)
    have hts' := hts.treeWithin_eq (Nat.le_trans (Nat.le_add_left _ _) hd)
    simp [heq, List.mapM_cons, ht', hts']
end

end

/-! ### Attaching and building -/

/-- Of `f` the nodes `hs` were attached, which gave `g`. -/
structure Attached (f : Forest) (hs : List Handle) (g : Forest) : Prop where
  count : g.count = f.count
  core : ∀ i, g.core? i = f.core? i
  kept : ∀ i, i ∉ hs → g.entry? i = f.entry? i

/-- Nodes that are free and all different can be attached. -/
theorem attach_free {f : Forest} {hs : List Handle} (hfree : ∀ h ∈ hs, f.Free h) (hnodup : hs.Nodup) :
    ∃ g, f.attach hs = (g, none) ∧ Attached f hs g := by
  induction hs generalizing f with
  | nil => exact ⟨f, rfl, rfl, fun _ => rfl, fun _ _ => rfl⟩
  | cons h rest ih =>
    obtain ⟨hnot, hnodup⟩ := List.nodup_cons.mp hnodup
    obtain ⟨e, he, hunattached⟩ := hfree h List.mem_cons_self
    let f' := f.modify h fun e => { e with attached := true }
    have hrest : ∀ k ∈ rest, f'.Free k := by
      intro k hk
      obtain ⟨e', he', hun'⟩ := hfree k (List.mem_cons_of_mem _ hk)
      have hne : h ≠ k := fun heq => hnot (heq ▸ hk)
      exact ⟨e', by rw [modify_entry, if_neg hne, he'], hun'⟩
    obtain ⟨g, hg, hatt⟩ := ih hrest hnodup
    have hstep : f.attach (h :: rest) = f'.attach rest := by simp [attach, isAttached, he, hunattached, f']
    refine ⟨g, hstep.trans hg, hatt.count.trans count_modify, fun i => (hatt.core i).trans ?_, fun i hi => ?_⟩
    · unfold core?
      rw [modify_entry]
      split
      · next heq =>
        obtain rfl := heq
        simp [he]
      · rfl
    · rw [List.mem_cons, not_or] at hi
      rw [hatt.kept i hi.2, modify_entry, if_neg (Ne.symm hi.1)]

/-- Over `f` a node with the children `hs` was built, which gave `g`. -/
structure Built (f : Forest) (hs : List Handle) (g : Forest) : Prop where
  count : g.count = f.count + 1
  core : ∀ i, i < f.count → g.core? i = f.core? i
  kept : ∀ i, i < f.count → i ∉ hs → g.entry? i = f.entry? i

theorem build_free {f : Forest} {d : Draft Handle} (hfree : ∀ h ∈ d.children, f.Free h) (hnodup : d.children.Nodup) :
    ∃ g, Growth.build d f = .ok (f.count, g) ∧ Built f d.children g ∧
      g.entry? f.count = some ⟨d.kind, d.value, d.placedLine f.lineOf, d.children, false⟩ := by
  obtain ⟨g, hg, hatt⟩ := attach_free hfree hnodup
  have hcount : g.entries.length = f.count := hatt.count
  let e : Entry := ⟨d.kind, d.value, d.placedLine f.lineOf, d.children, false⟩
  have hold : ∀ i, i < f.count → Forest.entry? ⟨g.entries ++ [e]⟩ i = g.entry? i := fun i hi =>
    List.getElem?_append_left (hcount ▸ hi)
  refine ⟨⟨g.entries ++ [e]⟩, ?_, ⟨?_, fun i hi => ?_, fun i hi hni => ?_⟩, ?_⟩
  · simp only [Growth.build, Forest.build, hg, hcount, e]
  · rw [Forest.count, List.length_append, hcount, List.length_singleton]
  · rw [core?, hold i hi]
    exact hatt.core i
  · rw [hold i hi, hatt.kept i hni]
  · show (g.entries ++ [e])[f.count]? = some e
    rw [← hcount, List.getElem?_concat_length]

end Forest

open Forest

namespace Growth
variable {α β : Type} {f : Forest}

/-- The construction is not refused, and what it comes to is as `Q` says. -/
def Gives (m : Growth α) (f : Forest) (Q : α → Forest → Prop) : Prop := ∃ a g, m f = .ok (a, g) ∧ Q a g

theorem Gives.mono {m : Growth α} {Q R : α → Forest → Prop} (h : Gives m f Q) (hQR : ∀ a g, Q a g → R a g) :
    Gives m f R := by
  obtain ⟨a, g, hm, hQ⟩ := h
  exact ⟨a, g, hm, hQR a g hQ⟩

theorem gives_pure {a : α} {Q : α → Forest → Prop} (h : Q a f) : Gives (pure a) f Q := ⟨a, f, rfl, h⟩

theorem gives_bind {m : Growth α} {k : α → Growth β} {Q : β → Forest → Prop}
    (h : Gives m f fun a g => Gives (k a) g Q) : Gives (m >>= k) f Q := by
  obtain ⟨a, g, hm, b, g', hk, hQ⟩ := h
  refine ⟨b, g', ?_, hQ⟩
  show (m f >>= fun p => k p.1 p.2) = _
  rw [hm]
  exact hk

theorem gives_map {m : Growth α} {k : α → β} {Q : β → Forest → Prop} (h : Gives m f fun a g => Q (k a) g) :
    Gives (k <$> m) f Q := by
  rw [← bind_pure_comp]
  exact gives_bind (h.mono fun _ _ hQ => gives_pure hQ)

end Growth

open Growth

/-! ### Trees that wait to be attached -/

/-- The nodes that `g` has and `f` has not. -/
def Since (f g : Forest) (i : Nat) : Prop := f.count ≤ i ∧ i < g.count

/-- After `f`, trees were grown, which gave `g`; their roots `hs` are free. Nothing that was in `f` was touched. -/
structure Pending (f : Forest) (ts : List Tree) (hs : List Handle) (g : Forest) : Prop where
  count : g.count = f.count + Tree.sizes ts
  kept : ∀ i, i < f.count → g.entry? i = f.entry? i
  free : ∀ h ∈ hs, g.Free h
  nodup : hs.Nodup
  stand : g.AllStand (Since f g) hs ts

namespace Pending
variable {f g g' : Forest} {ts us : List Tree} {hs ks : List Handle}

theorem nil (f : Forest) : Pending f [] [] f :=
  ⟨rfl, fun _ _ => rfl, (fun _ h => by cases h), List.nodup_nil, rfl⟩

theorem le (h : Pending f ts hs g) : f.count ≤ g.count := by
  rw [h.count]
  exact Nat.le_add_right _ _

theorem append (h : Pending f ts hs g) (h' : Pending g us ks g') : Pending f (ts ++ us) (hs ++ ks) g' := by
  have hle := h.le
  have hle' := h'.le
  have hkept : ∀ i, i < g.count → g'.core? i = g.core? i := fun i hi => by rw [core?, h'.kept i hi, ← core?]
  refine ⟨?_, fun i hi => ?_, fun k hk => ?_, ?_, ?_⟩
  · rw [h'.count, h.count, Tree.sizes_append, Nat.add_assoc]
  · rw [h'.kept i (Nat.lt_of_lt_of_le hi hle), h.kept i hi]
  · rcases List.mem_append.mp hk with hk | hk
    · obtain ⟨e, he, hun⟩ := h.free k hk
      exact ⟨e, (h'.kept k (h.free k hk).lt).trans he, hun⟩
    · exact h'.free k hk
  · refine List.nodup_append.mpr ⟨h.nodup, h'.nodup, fun a ha b hb hab => ?_⟩
    subst hab
    exact Nat.not_lt.mpr (h'.stand.mem hb).1 (h.free a ha).lt
  · have hbefore : g'.AllStand (Since f g') hs ts :=
      h.stand.frame (fun i hi => ⟨hi.1, Nat.lt_of_lt_of_le hi.2 hle'⟩) fun i hi => hkept i hi.2
    exact hbefore.append (h'.stand.frame (fun i hi => ⟨Nat.le_trans hle hi.1, hi.2⟩) fun _ _ => rfl)

/-- Building a node over the first of the trees that wait. -/
theorem build {line : Int} (d : Draft Handle) (ts us : List Tree) (ks : List Handle)
    (hlen : d.children.length = ts.length) (hline : d.placedLine g.lineOf = line)
    (h : Pending f (ts ++ us) (d.children ++ ks) g) :
    Gives (Growth.build d) g fun k g' => Pending f (us ++ [.node d.kind d.value line ts]) (ks ++ [k]) g' := by
  obtain ⟨hnd, hndk, hdisj⟩ := List.nodup_append.mp h.nodup
  obtain ⟨g', hg', hb, hnew⟩ := build_free (fun k hk => h.free k (List.mem_append_left _ hk)) hnd
  have hle := h.le
  have hlt : g.count < g'.count := hb.count ▸ Nat.lt_succ_self _
  obtain ⟨hts, hus⟩ := h.stand.of_append hlen
  have hsince : ∀ i, Since f g i → Since f g' i := fun i hi => ⟨hi.1, Nat.lt_trans hi.2 hlt⟩
  refine ⟨g.count, g', hg', ?_, fun i hi => ?_, fun k hk => ?_, ?_, ?_⟩
  · rw [hb.count, h.count]
    simp only [Tree.sizes_append, Tree.sizes, Tree.size]
    omega
  · rw [hb.kept i (Nat.lt_of_lt_of_le hi hle), h.kept i hi]
    exact fun hmem => Nat.not_lt.mpr (hts.mem hmem).1 hi
  · rcases List.mem_append.mp hk with hk | hk
    · obtain ⟨e, he, hun⟩ := h.free k (List.mem_append_right _ hk)
      refine ⟨e, ?_, hun⟩
      rw [hb.kept k (hus.mem hk).2 fun hmem => hdisj k hmem k hk rfl, he]
    · obtain rfl := List.mem_singleton.mp hk
      exact ⟨_, hnew, rfl⟩
  · refine List.nodup_append.mpr ⟨hndk, by simp, fun a ha b hb' hab => ?_⟩
    obtain rfl := List.mem_singleton.mp hb'
    exact Nat.ne_of_lt (hus.mem ha).2 hab
  · have hframe : ∀ i, Since f g i → g'.core? i = g.core? i := fun i hi => hb.core i hi.2
    refine (hus.frame hsince hframe).append ⟨_, _, rfl, ⟨⟨hle, hlt⟩, ?_⟩, rfl⟩
    exact ⟨_, by rw [core?, hnew]; rfl, rfl, rfl, hline, hts.frame hsince hframe⟩

theorem length_eq (hp : Pending f ts hs g) : hs.length = ts.length := hp.stand.length_eq

theorem lineOf_eq {h : Handle} {t : Tree} (hp : Pending f (t :: ts) (h :: hs) g) : g.lineOf h = t.line := by
  obtain ⟨_, _, heq, ht, -⟩ := hp.stand
  cases heq
  exact ht.line_eq

end Pending

/-- A node of a kind that does not follow its child stands where its draft says. -/
theorem placedLine_eq {d : Draft Handle} (hd : d.kind.followsChild = false) (lineOf : Handle → Int) :
    d.placedLine lineOf = d.line := by
  unfold Draft.placedLine
  split
  · simp [hd]
  · rfl

theorem followsChild_of_isContainer {kind : NodeKind} (hk : kind.isContainer) : kind.followsChild = false := by
  cases kind <;> first | rfl | cases hk

/-! ### Containers -/

/-- After `f` a container was built and trees were added to it, which gave `g`. -/
structure Holding (f : Forest) (kind : NodeKind) (value : String) (line : Int) (ts : List Tree) (h : Handle)
    (g : Forest) : Prop where
  count : g.count = f.count + (1 + Tree.sizes ts)
  kept : ∀ i, i < f.count → g.entry? i = f.entry? i
  since : Since f g h
  entry : ∃ hs, g.entry? h = some ⟨kind, value, line, hs, false⟩ ∧ g.AllStand (fun i => Since f g i ∧ i ≠ h) hs ts
  container : kind.isContainer

namespace Holding
variable {f g g' : Forest} {kind : NodeKind} {value : String} {line : Int} {ts : List Tree} {h c : Handle} {t : Tree}

/-- Building a container over what waits. -/
theorem build {d : Draft Handle} (hd : d.kind.isContainer) (h : Pending f ts d.children g) :
    Gives (Growth.build d) g fun k g' => Holding f d.kind d.value d.line ts k g' := by
  obtain ⟨g', hg', hb, hnew⟩ := build_free h.free h.nodup
  have hle := h.le
  have hlt : g.count < g'.count := hb.count ▸ Nat.lt_succ_self _
  rw [placedLine_eq (followsChild_of_isContainer hd)] at hnew
  refine ⟨g.count, g', hg', ?_, fun i hi => ?_, ⟨hle, hlt⟩, ⟨_, hnew, ?_⟩, hd⟩
  · rw [hb.count, h.count]
    omega
  · rw [hb.kept i (Nat.lt_of_lt_of_le hi hle), h.kept i hi]
    exact fun hmem => Nat.not_lt.mpr (h.stand.mem hmem).1 hi
  · exact h.stand.frame (fun i hi => ⟨⟨hi.1, Nat.lt_trans hi.2 hlt⟩, Nat.ne_of_lt hi.2⟩) fun i hi => hb.core i hi.2

/-- Adding a tree that waits. -/
theorem append (hh : Holding f kind value line ts h g) (hp : Pending g [t] [c] g') :
    Gives (Growth.append h c) g' fun _ g'' => Holding f kind value line (ts ++ [t]) h g'' := by
  obtain ⟨hs, he, hts⟩ := hh.entry
  have he' : g'.entry? h = some ⟨kind, value, line, hs, false⟩ := (hp.kept h hh.since.2).trans he
  obtain ⟨g₁, hg₁, hatt⟩ := attach_free hp.free hp.nodup
  have hcg := hp.stand.mem List.mem_cons_self
  have hne : h ≠ c := Nat.ne_of_lt (Nat.lt_of_lt_of_le hh.since.2 hcg.1)
  have hle := hp.le
  have hlow := Nat.le_trans hh.since.1 (Nat.le_of_lt hh.since.2)
  let g₂ := g₁.modify h fun e => { e with children := e.children ++ [c] }
  have hcount : g₂.count = g'.count := count_modify.trans hatt.count
  have hcore : ∀ i, i ≠ h → g₂.core? i = g'.core? i := fun i hi => by
    rw [core?, modify_entry, if_neg (Ne.symm hi)]
    exact hatt.core i
  have hold : ∀ i, i < g.count → g'.core? i = g.core? i := fun i hi => by rw [core?, hp.kept i hi, ← core?]
  refine ⟨(), g₂, ?_, ?_, fun i hi => ?_, ⟨hh.since.1, ?_⟩, ⟨hs ++ [c], ?_, ?_⟩, hh.container⟩
  · simp only [Growth.append, Forest.append, he', Option.any_some, hh.container, ↓reduceIte, hg₁, g₂]
  · rw [hcount, hp.count, hh.count]
    simp only [Tree.sizes_append]
    omega
  · have hig : i < g.count := Nat.lt_of_lt_of_le hi hlow
    have hih : h ≠ i := (Nat.ne_of_lt (Nat.lt_of_lt_of_le hi hh.since.1)).symm
    have hic : i ∉ [c] := fun hm => Nat.not_lt.mpr hcg.1 (List.mem_singleton.mp hm ▸ hig)
    rw [modify_entry, if_neg hih, hatt.kept i hic, hp.kept i hig, hh.kept i hi]
  · exact hcount ▸ Nat.lt_of_lt_of_le hh.since.2 hle
  · rw [modify_entry, if_pos rfl, hatt.kept h (by simpa using hne), he']
    rfl
  · have hbefore : g₂.AllStand (fun i => Since f g₂ i ∧ i ≠ h) hs ts :=
      hts.frame (fun i hi => ⟨⟨hi.1.1, hcount ▸ Nat.lt_of_lt_of_le hi.1.2 hle⟩, hi.2⟩) fun i hi => by
        rw [hcore i hi.2, hold i hi.1.2]
    have hafter : ∀ i, Since g g' i → i ≠ h := fun i hi => Nat.ne_of_gt (Nat.lt_of_lt_of_le hh.since.2 hi.1)
    exact hbefore.append <| hp.stand.frame
      (fun i hi => ⟨⟨Nat.le_trans hlow hi.1, hcount ▸ hi.2⟩, hafter i hi⟩) fun i hi => hcore i (hafter i hi)

/-- A container that is complete waits to be attached. -/
theorem pending (hh : Holding f kind value line ts h g) : Pending f [.node kind value line ts] [h] g := by
  obtain ⟨hs, he, hts⟩ := hh.entry
  refine ⟨by simp only [hh.count, Tree.sizes, Tree.size, Nat.add_zero], hh.kept, fun k hk => ?_, by simp, ?_⟩
  · obtain rfl := List.mem_singleton.mp hk
    exact ⟨_, he, rfl⟩
  · refine ⟨h, [], rfl, ⟨hh.since, _, by rw [core?, he]; rfl, rfl, rfl, rfl, ?_⟩, rfl⟩
    exact hts.frame (fun i hi => hi.1) fun _ _ => rfl

end Holding

/-! ### Expressions -/

theorem Expr.line_toTree (e : Expr) : e.toTree.line = e.line := by
  cases e <;> rfl

/-- Growing one node without children. -/
theorem gives_leaf (kind : NodeKind) (value : String) (line : Int) (f : Forest) :
    Gives (Growth.leaf kind value line) f fun h g => Pending f [.leaf kind value line] [h] g :=
  Pending.build (.leaf kind value line) [] [] [] rfl rfl (.nil f)

/-- A label stands on the line of what it labels. -/
theorem gives_label {f g : Forest} {t : Tree} {h : Handle} {us : List Tree} {ks : List Handle} (kind : NodeKind)
    (hk : kind.followsChild) (hp : Pending f (t :: us) (h :: ks) g) :
    Gives (Growth.label kind h) g fun k g' => Pending f (us ++ [.label kind t]) (ks ++ [k]) g' := by
  refine Pending.build (.label kind h 0) [t] us ks rfl ?_ hp
  simp [Draft.placedLine, Draft.label, hk, hp.lineOf_eq]

/-- An operation over two trees stands on the line of the first. -/
theorem gives_operation {f g : Forest} {kind : NodeKind} {t u : Tree} {h k : Handle} (operator : String)
    (hk : kind.followsChild) (hp : Pending f [t, u] [h, k] g) :
    Gives (Growth.build (.operation kind operator h k 0)) g fun l g' =>
      Pending f [.node kind operator t.line [t, u]] [l] g' := by
  refine Pending.build (.operation kind operator h k 0) [t, u] [] [] rfl ?_ hp
  simp [Draft.placedLine, Draft.operation, hk, hp.lineOf_eq]

theorem gives_expr (e : Expr) (f : Forest) : Gives e.grow f fun h g => Pending f [e.toTree] [h] g := by
  induction e generalizing f with
  | number text l | identifier name l | string text l | error l => exact gives_leaf _ _ l f
  | postIncrement name l | postDecrement name l =>
    exact gives_bind <| (gives_leaf .identifier name l f).mono fun h g hg => gives_label _ rfl hg
  | binary operator left right ihl ihr | comparison operator left right ihl ihr =>
    refine gives_bind <| (ihl f).mono fun h g hg => gives_bind <| (ihr g).mono fun k g' hg' => ?_
    rw [Expr.toTree, ← left.line_toTree]
    exact gives_operation operator rfl (hg.append hg')

theorem gives_exprOption (e : Option Expr) (f : Forest) :
    Gives (Expr.growOption e) f fun h g => Pending f (e.map Expr.toTree).toList h.toList g := by
  cases e with
  | none => exact gives_pure (.nil f)
  | some e => exact gives_map (gives_expr e f)

/-- Growing the arguments of a call. -/
theorem gives_exprInto {f g : Forest} {kind : NodeKind} {value : String} {line : Int} {ts : List Tree} {h : Handle}
    (es : List Expr) (hh : Holding f kind value line ts h g) :
    Gives (Expr.growInto h es) g fun _ g' =>
      Holding f kind value line (ts ++ es.map fun e => .label .argument e.toTree) h g' := by
  induction es generalizing ts g with
  | nil => exact gives_pure (by simpa using hh)
  | cons e es ih =>
    refine gives_bind <| (gives_expr e g).mono fun k g₁ hk => ?_
    refine gives_bind <| (gives_label .argument rfl hk).mono fun k g₂ hk => ?_
    refine gives_bind <| (hh.append hk).mono fun _ g₃ hh => ?_
    simpa using ih hh

/-! ### Statements -/

theorem gives_words (ws : List Word) (f : Forest) :
    Gives (Word.growAll ws) f fun hs g => Pending f (ws.map (Word.toTree .modifier)) hs g := by
  induction ws generalizing f with
  | nil => exact gives_pure (.nil f)
  | cons w ws ih =>
    refine gives_bind <| (gives_leaf .modifier w.text w.line f).mono fun h g hg => ?_
    exact gives_bind <| (ih g).mono fun hs g' hg' => gives_pure (hg.append hg')

/-- The label of a body or branch, which may be absent. -/
theorem gives_label? {f g : Forest} {s : Option Stmt} {h : Option Handle} {us : List Tree} {ks : List Handle}
    (kind : NodeKind) (hk : kind.followsChild) (hlen : h.isSome = s.isSome)
    (hp : Pending f ((s.map Stmt.toTree).toList ++ us) (h.toList ++ ks) g) :
    Gives (Growth.label? kind h) g fun k g' => Pending f (us ++ Stmt.toBranch kind s) (ks ++ k.toList) g' ∧
      k.isSome = s.isSome := by
  cases h with
  | none =>
    cases s with
    | none => exact gives_pure ⟨by simpa [Stmt.toBranch] using hp, rfl⟩
    | some s => cases hlen
  | some h =>
    cases s with
    | none => cases hlen
    | some s => exact gives_map ((gives_label _ hk hp).mono fun k g' hg => ⟨hg, rfl⟩)

/-- A statement over what waits, which stands on a line of its own. -/
theorem gives_over {f g : Forest} {ts : List Tree} {d : Draft Handle} (hd : d.kind.followsChild = false)
    (hlen : d.children.length = ts.length) (hp : Pending f ts d.children g) :
    Gives (Growth.build d) g fun k g' => Pending f [.node d.kind d.value d.line ts] [k] g' :=
  Pending.build d ts [] [] hlen (placedLine_eq hd _) (by simpa using hp)

mutual
theorem gives_stmt (s : Stmt) (f : Forest) : Gives s.grow f fun h g => Pending f [s.toTree] [h] g := by
  cases s with
  | classDecl name modifiers body l =>
    refine gives_bind <| (gives_words modifiers f).mono fun hs g hg => ?_
    rw [← List.append_nil hs] at hg
    refine gives_bind <| (Holding.build (d := .classDecl name hs [] l) rfl hg).mono fun h g hh => ?_
    exact gives_bind <| (gives_stmtInto body hh).mono fun _ g hh => gives_pure hh.pending
  | methodDecl name returnType modifiers body l =>
    refine gives_bind <| (gives_leaf .returnType returnType.text returnType.line f).mono fun r g hr => ?_
    refine gives_bind <| (gives_words modifiers g).mono fun hs g hg => ?_
    have hp := hr.append hg
    rw [← List.append_nil ([r] ++ hs)] at hp
    refine gives_bind <| (Holding.build (d := .methodDecl name r hs [] l) rfl hp).mono fun h g hh => ?_
    exact gives_bind <| (gives_stmtInto body hh).mono fun _ g hh => gives_pure hh.pending
  | declaration typeName name initial l =>
    refine gives_bind <| (gives_exprOption initial f).mono fun h g hg => ?_
    exact gives_over (d := .declaration typeName name h l) rfl hg.length_eq hg
  | whileLoop condition body l =>
    refine gives_bind <| (gives_expr condition f).mono fun c g hc => ?_
    refine gives_bind <| (gives_stmtOption body g).mono fun b g ⟨hb, hlen⟩ => ?_
    refine gives_bind <| (gives_label .condition rfl (hc.append hb)).mono fun c g hc => ?_
    refine gives_bind <| (gives_label? .body rfl hlen hc).mono fun b g ⟨hb, _⟩ => ?_
    exact gives_over (d := .whileLoop c b l) rfl hb.length_eq hb
  | ifElse condition thenBranch elseBranch l =>
    refine gives_bind <| (gives_expr condition f).mono fun c g hc => ?_
    refine gives_bind <| (gives_stmtOption thenBranch g).mono fun a g ⟨ha, hlenA⟩ => ?_
    refine gives_bind <| (gives_stmtOption elseBranch g).mono fun b g ⟨hb, hlenB⟩ => ?_
    have hp := hc.append (ha.append hb)
    rw [List.singleton_append, List.singleton_append] at hp
    refine gives_bind <| (gives_label .condition rfl hp).mono fun c g hc => ?_
    rw [List.append_assoc, List.append_assoc] at hc
    refine gives_bind <| (gives_label? .thenBranch rfl hlenA hc).mono fun a g ⟨ha, _⟩ => ?_
    rw [List.append_assoc, List.append_assoc] at ha
    refine gives_bind <| (gives_label? .elseBranch rfl hlenB ha).mono fun b g ⟨hb, _⟩ => ?_
    exact gives_over (d := .ifElse c a b l) rfl hb.length_eq hb
  | block body l =>
    refine gives_bind <| (Holding.build (d := .block [] l) rfl (.nil f)).mono fun h g hh => ?_
    exact gives_bind <| (gives_stmtInto body hh).mono fun _ g hh => gives_pure hh.pending
  | methodCall name arguments l =>
    refine gives_bind <| (Holding.build (d := .methodCall name [] l) rfl (.nil f)).mono fun h g hh => ?_
    exact gives_bind <| (gives_exprInto arguments hh).mono fun _ g hh => gives_pure hh.pending
  | assignment name value l =>
    refine gives_bind <| (gives_expr value f).mono fun h g hg => ?_
    exact gives_over (d := .assignment name h l) rfl rfl hg
  | increment name l | decrement name l => exact gives_leaf _ _ l f

theorem gives_stmtInto {f g : Forest} {kind : NodeKind} {value : String} {line : Int} {ts : List Tree} {h : Handle}
    (body : List Stmt) (hh : Holding f kind value line ts h g) :
    Gives (Stmt.growInto h body) g fun _ g' => Holding f kind value line (ts ++ Stmt.toTrees body) h g' := by
  cases body with
  | nil => exact gives_pure (by simpa [Stmt.toTrees] using hh)
  | cons s rest =>
    refine gives_bind <| (gives_stmt s g).mono fun k g₁ hk => ?_
    refine gives_bind <| (hh.append hk).mono fun _ g₂ hh => ?_
    simpa [Stmt.toTrees] using gives_stmtInto rest hh

theorem gives_stmtOption (s : Option Stmt) (f : Forest) :
    Gives (Stmt.growOption s) f fun h g => Pending f (s.map Stmt.toTree).toList h.toList g ∧ h.isSome = s.isSome := by
  cases s with
  | none => exact gives_pure ⟨.nil f, rfl⟩
  | some s => exact gives_map ((gives_stmt s f).mono fun h g hg => ⟨hg, rfl⟩)
end

/-- Growing a program is not refused, and below the node that is grown stands the tree of the program. -/
theorem grow_program (p : Program) : ∃ h f, Program.grow p .empty = .ok (h, f) ∧ f.tree? h = some p.toTree := by
  have hgives : Gives (Program.grow p) .empty fun h f => Pending .empty [p.toTree] [h] f := by
    refine gives_bind <| (Holding.build (d := .program []) rfl (.nil .empty)).mono fun h g hh => ?_
    exact gives_bind <| (gives_stmtInto p hh).mono fun _ g hh => gives_pure hh.pending
  obtain ⟨h, f, hf, hp⟩ := hgives
  obtain ⟨_, _, heq, ht, -⟩ := hp.stand
  cases heq
  refine ⟨h, f, hf, ht.treeWithin_eq ?_⟩
  have hcount : f.entries.length = 0 + (p.toTree.size + 0) := hp.count
  omega

end Curly
