import Curly.Proofs.Tree.Outline
import Curly.Tree.Traversal
import Mathlib.Logic.Function.Iterate

/-! A walk over a tree comes to its nodes in the order of their paths, to each of them once, and so does a printer. Main
    statement: `walk_inOrder`. -/

namespace Curly.Tree

/-! ### Walks -/

/-- The trees that wait on a stack are visited one after the other, each in preorder. -/
theorem visit_eq (stack : List Tree) : visit stack = preorders stack := by
  induction stack using visit.induct with
  | case1 =>
    rw [visit]
    rfl
  | case2 t stack ih =>
    rw [visit, ih, preorders_append]
    cases t
    rfl

theorem walk_eq (t : Tree) : t.walk = t.preorder := by
  rw [walk, visit_eq, preorders, preorders, List.append_nil]

/-! ### Paths -/

mutual
/-- The nodes with their paths are those that paths lead to. -/
theorem mem_nodes : ∀ {t u : Tree} {path : Path}, (path, u) ∈ t.nodes ↔ t.at? path = some u
  | node kind value line cs, u, [] => by
    rw [nodes, List.mem_cons, mem_nodesFrom]
    simp [at?, eq_comm]
  | node kind value line cs, u, i :: path => by
    rw [nodes, List.mem_cons, mem_nodesFrom]
    simp [at?, children]

theorem mem_nodesFrom : ∀ {ts : List Tree} {u : Tree} {i : Nat} {path : Path}, (path, u) ∈ nodesFrom i ts ↔
    ∃ j rest, path = (i + j) :: rest ∧ (ts[j]?.bind fun t => t.at? rest) = some u
  | [], u, i, path => by simp [nodesFrom]
  | t :: ts, u, i, path => by
    rw [nodesFrom, List.mem_append, mem_nodesFrom, List.mem_map]
    constructor
    · rintro (⟨⟨rest, v⟩, hmem, heq⟩ | ⟨j, rest, rfl, hu⟩)
      · cases heq
        exact ⟨0, rest, rfl, mem_nodes.mp hmem⟩
      · exact ⟨j + 1, rest, by rw [Nat.add_right_comm, Nat.add_assoc], hu⟩
    · rintro ⟨j, rest, rfl, hu⟩
      cases j with
      | zero => exact .inl ⟨(rest, u), mem_nodes.mpr hu, rfl⟩
      | succ j => exact .inr ⟨j, rest, by rw [Nat.add_right_comm, Nat.add_assoc], hu⟩
end

mutual
/-- The path of a node comes before those of its children, and those below a child before those below the next. -/
theorem sorted_nodes : ∀ t : Tree, (t.nodes.map Prod.fst).Pairwise (· < ·)
  | node kind value line cs => by
    rw [nodes, List.map_cons, List.pairwise_cons]
    refine ⟨fun path hpath => ?_, sorted_nodesFrom 0 cs⟩
    obtain ⟨⟨path, u⟩, hmem, rfl⟩ := List.mem_map.mp hpath
    obtain ⟨j, rest, rfl, -⟩ := mem_nodesFrom.mp hmem
    exact .nil

theorem sorted_nodesFrom : ∀ (i : Nat) (ts : List Tree), ((nodesFrom i ts).map Prod.fst).Pairwise (· < ·)
  | i, [] => .nil
  | i, t :: ts => by
    rw [nodesFrom, List.map_append, List.map_map, List.pairwise_append]
    refine ⟨?_, sorted_nodesFrom (i + 1) ts, fun path hpath other hother => ?_⟩
    · have hbelow : (t.nodes.map Prod.fst).Pairwise fun path other => i :: path < i :: other :=
        (sorted_nodes t).imp List.Lex.cons
      simpa [List.pairwise_map] using hbelow
    · obtain ⟨⟨rest, u⟩, -, rfl⟩ := List.mem_map.mp hpath
      obtain ⟨⟨other, v⟩, hmem, rfl⟩ := List.mem_map.mp hother
      obtain ⟨j, rest', rfl, -⟩ := mem_nodesFrom.mp hmem
      exact .rel (by omega)
end

mutual
theorem map_snd_nodes : ∀ t : Tree, t.nodes.map Prod.snd = t.preorder
  | node kind value line cs => congrArg (node kind value line cs :: ·) (map_snd_nodesFrom 0 cs)

theorem map_snd_nodesFrom : ∀ (i : Nat) (ts : List Tree), (nodesFrom i ts).map Prod.snd = preorders ts
  | i, [] => rfl
  | i, t :: ts => by
    rw [nodesFrom, List.map_append, List.map_map, map_snd_nodesFrom (i + 1) ts, preorders, ← map_snd_nodes t]
    rfl
end

/-! ### Rounds -/

/-- A node with those below it, under their paths in the whole tree. -/
def nodesBelow (x : Path × Tree) : List (Path × Tree) := x.2.nodes.map fun y => (x.1 ++ y.1, y.2)

theorem nodesBelow_root (t : Tree) : nodesBelow ([], t) = t.nodes := List.map_id _

theorem map_nodesFrom (path : Path) (i : Nat) (ts : List Tree) :
    (nodesFrom i ts).map (fun y => (path ++ y.1, y.2)) =
      ((ts.zipIdx i).map fun c => (path ++ [c.2], c.1)).flatMap nodesBelow := by
  induction ts generalizing i with
  | nil => rfl
  | cons t ts ih =>
    rw [nodesFrom, List.map_append, ih, List.map_map, List.zipIdx_cons, List.map_cons, List.flatMap_cons, nodesBelow]
    simp [Function.comp_def]

/-- Behind a node come its children, each with what is below it. -/
theorem nodesBelow_eq (x : Path × Tree) : nodesBelow x = x :: (childrenAt x).flatMap nodesBelow := by
  obtain ⟨path, kind, value, line, cs⟩ := x
  rw [nodesBelow, nodes, List.map_cons, map_nodesFrom, List.append_nil]
  rfl

namespace Walker

/-- The nodes that are still to be visited, in their order. -/
def ahead (w : Walker) : List (Path × Tree) := w.stack.reverse.flatMap nodesBelow

theorem next_concat (visited stack : List (Path × Tree)) (x : Path × Tree) :
    next ⟨visited, stack ++ [x]⟩ = ⟨visited ++ [x], stack ++ (childrenAt x).reverse⟩ := by
  simp [next]

theorem ahead_concat (visited stack : List (Path × Tree)) (x : Path × Tree) : ahead ⟨visited, stack ++ [x]⟩ =
    x :: ((childrenAt x).flatMap nodesBelow ++ stack.reverse.flatMap nodesBelow) := by
  rw [ahead, List.reverse_concat, List.flatMap_cons, nodesBelow_eq, List.cons_append]

/-- A round visits the first of the nodes that are still to be visited, and the others stay as they are. -/
theorem next_eq (w : Walker) : w.next.visited = w.visited ++ w.ahead.take 1 ∧ w.next.ahead = w.ahead.drop 1 := by
  obtain ⟨visited, stack⟩ := w
  rcases List.eq_nil_or_concat' stack with rfl | ⟨stack, x, rfl⟩
  · exact ⟨(List.append_nil _).symm, rfl⟩
  · rw [next_concat, ahead_concat]
    refine ⟨rfl, ?_⟩
    rw [ahead, List.reverse_append, List.reverse_reverse, List.flatMap_append]
    rfl

/-- So every round goes on by one node, until none is left. -/
theorem iterate_next (n : Nat) (w : Walker) :
    (next^[n] w).visited = w.visited ++ w.ahead.take n ∧ (next^[n] w).ahead = w.ahead.drop n := by
  induction n with
  | zero => exact ⟨(List.append_nil _).symm, rfl⟩
  | succ n ih =>
    obtain ⟨hvisited, hahead⟩ := next_eq (next^[n] w)
    rw [Function.iterate_succ_apply', hvisited, hahead, ih.1, ih.2, List.append_assoc, List.drop_drop, ← List.take_add]
    exact ⟨rfl, rfl⟩

theorem stack_eq_nil_iff (w : Walker) : w.stack = [] ↔ w.ahead = [] := by
  obtain ⟨visited, stack⟩ := w
  rcases List.eq_nil_or_concat' stack with rfl | ⟨stack, x, rfl⟩
  · exact iff_of_true rfl rfl
  · rw [ahead_concat]
    exact iff_of_false (List.concat_ne_nil _ _) (List.cons_ne_nil _ _)

theorem ahead_start (t : Tree) : (start t).ahead = t.nodes :=
  (List.append_nil _).trans (nodesBelow_root t)

end Walker

/-! ### Lines -/

/-- The line that a node has in an outline. It is indented as deep as the path is long. -/
def entryAt (x : Path × Tree) : String := outlineEntry x.1.length x.2

mutual
theorem outlineEntries_eq : ∀ (depth : Nat) (t : Tree),
    outlineEntries depth t = t.nodes.map fun x => outlineEntry (depth + x.1.length) x.2
  | depth, node kind value line cs =>
    congrArg (outlineEntry depth (node kind value line cs) :: ·) (outlineEntriesOf_eq depth 0 cs)

theorem outlineEntriesOf_eq : ∀ (depth i : Nat) (ts : List Tree),
    outlineEntriesOf (depth + 1) ts = (nodesFrom i ts).map fun x => outlineEntry (depth + x.1.length) x.2
  | depth, i, [] => rfl
  | depth, i, t :: ts => by
    rw [outlineEntriesOf, outlineEntries_eq (depth + 1) t, outlineEntriesOf_eq depth (i + 1) ts, nodesFrom, List.map_append,
      List.map_map]
    simp [Function.comp_def, Nat.add_assoc, Nat.add_comm 1]
end

/-- The lines of an outline are those of the nodes. -/
theorem outlineEntries_zero (t : Tree) : outlineEntries 0 t = t.nodes.map entryAt := by
  rw [outlineEntries_eq]
  simp only [Nat.zero_add]
  rfl

/-! ### Printers -/

namespace Printer

mutual
/-- A printer writes the lines of a tree behind those that are there, and is as deep as before. -/
theorem visit_eq : ∀ (p : Printer) (t : Tree), p.visit t = ⟨p.lines ++ outlineEntries p.depth t, p.depth⟩
  | p, node kind value line cs => by
    rw [visit, visitAll_eq, outlineEntries, List.append_assoc]
    rfl

theorem visitAll_eq : ∀ (p : Printer) (ts : List Tree), p.visitAll ts = ⟨p.lines ++ outlineEntriesOf p.depth ts, p.depth⟩
  | p, [] => by rw [visitAll, outlineEntriesOf, List.append_nil]
  | p, t :: ts => by rw [visitAll, visitAll_eq, visit_eq, outlineEntriesOf, List.append_assoc]
end

theorem render_eq (p : Printer) (t : Tree) : p.render t = (⟨outlineEntries 0 t, 0⟩, t.outline) := by
  rw [render, visit_eq]
  rfl

end Printer

/-- A walk visits a node every round, and when none is left, it is over. The nodes come in preorder, and every one comes
    once: there is one for each path that leads to a node, and the paths are in order, in which a path comes before its
    continuations and what is below a child before what is below the next. A printer writes a line for every node in the
    same order, with two blanks for each node above; whatever it wrote before, this is the outline, and at the end it is at
    the top again. -/
theorem walk_inOrder (t : Tree) :
    (∀ n, (Walker.next^[n] (.start t)).visited = t.nodes.take n ∧
      ((Walker.next^[n] (.start t)).stack = [] ↔ t.nodes.length ≤ n)) ∧
    t.nodes.map Prod.snd = t.walk ∧ t.walk = t.preorder ∧
    (∀ path u, (path, u) ∈ t.nodes ↔ t.at? path = some u) ∧ (t.nodes.map Prod.fst).Pairwise (· < ·) ∧
    (∀ p : Printer, (p.render t).1.lines = t.nodes.map entryAt ∧ (p.render t).1.depth = 0 ∧
      (p.render t).2 = t.outline) ∧
    ∀ x ∈ t.nodes, ∃ rest, (entryAt x).toList = List.replicate (2 * x.1.length) ' ' ++ '├' :: rest := by
  refine ⟨fun n => ?_, (map_snd_nodes t).trans (walk_eq t).symm, walk_eq t, fun _ _ => mem_nodes, sorted_nodes t,
    fun p => ?_, fun x _ => ⟨_, toList_outlineEntry _ _⟩⟩
  · obtain ⟨hvisited, hahead⟩ := Walker.iterate_next n (.start t)
    rw [Walker.stack_eq_nil_iff, hvisited, hahead, Walker.ahead_start, List.drop_eq_nil_iff]
    exact ⟨rfl, Iff.rfl⟩
  · rw [Printer.render_eq, outlineEntries_zero]
    exact ⟨rfl, rfl, rfl⟩

end Curly.Tree
