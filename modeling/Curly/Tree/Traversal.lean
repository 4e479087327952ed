import Curly.Tree.Outline

/-! Going through a tree, in three ways: by the paths of its nodes, round by round with the nodes that wait on a stack, and
    with a printer that keeps count of how deep it is. -/

namespace Curly

/-- The way from the root of a tree to a node: at every level the number of the child to go to. Nodes that are alike in
    all else are told apart by it, and its length is the number of nodes above. -/
abbrev Path := List Nat

namespace Tree

/-! ### Paths -/

/-- The node that a path leads to. -/
def at? (t : Tree) : Path → Option Tree
  | [] => some t
  | i :: path => t.children[i]?.bind fun c => c.at? path

mutual
/-- The nodes of a tree with their paths, every node before its children and these in their order. -/
def nodes : Tree → List (Path × Tree)
  | t@(node _ _ _ cs) => ([], t) :: nodesFrom 0 cs

/-- The same for children in a row, the first of which is number `i`. -/
def nodesFrom (i : Nat) : List Tree → List (Path × Tree)
  | [] => []
  | t :: ts => (nodes t).map (fun x => (i :: x.1, x.2)) ++ nodesFrom (i + 1) ts
end

/-- The children of the node at a path, with their paths. -/
def childrenAt (x : Path × Tree) : List (Path × Tree) := x.2.children.zipIdx.map fun c => (x.1 ++ [c.2], c.1)

/-! ### Walking round by round -/

/-- A walk under way: the nodes that were visited, and those that wait on the stack, of which the last one is the top. Nodes
    come with their paths, so that it can be told which ones they are. -/
structure Walker where
  visited : List (Path × Tree)
  stack : List (Path × Tree)
deriving Repr

namespace Walker

def start (t : Tree) : Walker := ⟨[], [([], t)]⟩

/-- One round: the node on top is taken off the stack and visited, and its children are put there, the last one first. When
    nothing waits, the walk is over. -/
def next (w : Walker) : Walker :=
  match w.stack.getLast? with
  | none => w
  | some x => ⟨w.visited ++ [x], w.stack.dropLast ++ (childrenAt x).reverse⟩

end Walker

/-! ### Printing -/

/-- A printer: the lines that it has written, and the number of nodes that it is below. It can be used again and again. -/
structure Printer where
  lines : List String
  depth : Nat
deriving Repr

namespace Printer

mutual
/-- Writes the line of a node, and those of its children one level deeper. -/
def visit (p : Printer) : Tree → Printer
  | t@(node _ _ _ cs) =>
    let q := visitAll ⟨p.lines ++ [outlineEntry p.depth t], p.depth + 1⟩ cs
    { q with depth := q.depth - 1 }

def visitAll (p : Printer) : List Tree → Printer
  | [] => p
  | t :: ts => (p.visit t).visitAll ts
end

/-- The text of a whole tree. Whatever the printer has written before, it begins anew. -/
def render (p : Printer) (t : Tree) : Printer × String :=
  let q := { p with lines := [], depth := 0 }.visit t
  (q, "\n".intercalate q.lines)

end Printer
end Tree
end Curly
