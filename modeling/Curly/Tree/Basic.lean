import Curly.Text.Quoted
import Curly.Tree.Kind

/-! Syntax trees in their uniform shape: every node has a kind, a text, a line and children. -/

namespace Curly

/-- A node of a syntax tree. Kinds without a text of their own have the empty one; line 0 means no line. -/
inductive Tree where
  | node (kind : NodeKind) (value : String) (line : Int) (children : List Tree)
deriving Repr

namespace Tree

def kind : Tree → NodeKind
  | node k _ _ _ => k

def value : Tree → String
  | node _ v _ _ => v

def line : Tree → Int
  | node _ _ l _ => l

def children : Tree → List Tree
  | node _ _ _ cs => cs

/-- A node that labels the role of another one, and stands on its line. -/
def label (kind : NodeKind) (inner : Tree) : Tree := node kind "" inner.line [inner]

/-- A node without children. -/
def leaf (kind : NodeKind) (value : String) (line : Int) : Tree := node kind value line []

/-- The short form of a node: its kind, and its text unless that is empty. -/
def text (t : Tree) : String :=
  if t.value = "" then t.kind.name else t.kind.name ++ "[" ++ t.value ++ "]"

/-- The full form of a node. -/
def detail (t : Tree) : String :=
  t.kind.longName ++ "(value=" ++ Text.quote t.value ++ ", line=" ++ toString t.line ++ ")"

mutual
/-- The number of nodes. -/
def size : Tree → Nat
  | node _ _ _ cs => 1 + sizes cs

def sizes : List Tree → Nat
  | [] => 0
  | t :: ts => size t + sizes ts
end

mutual
/-- The nodes of a tree, every node before its children and these in their order. -/
def preorder : Tree → List Tree
  | t@(node _ _ _ cs) => t :: preorders cs

def preorders : List Tree → List Tree
  | [] => []
  | t :: ts => preorder t ++ preorders ts
end

mutual
/-- The tree without its lines. -/
def unlined : Tree → Tree
  | node k v _ cs => node k v 0 (unlineds cs)

def unlineds : List Tree → List Tree
  | [] => []
  | t :: ts => unlined t :: unlineds ts
end

mutual
/-- The tree without texts and lines: the kinds of the nodes and which nodes are below which. -/
def shape : Tree → Tree
  | node k _ _ cs => node k "" 0 (shapes cs)

def shapes : List Tree → List Tree
  | [] => []
  | t :: ts => shape t :: shapes ts
end

theorem sizes_append (ts us : List Tree) : sizes (ts ++ us) = sizes ts + sizes us := by
  induction ts with
  | nil => simp [sizes]
  | cons t ts ih => simp [sizes, ih, Nat.add_assoc]

theorem preorders_eq (ts : List Tree) : preorders ts = ts.flatMap preorder := by
  induction ts with
  | nil => rfl
  | cons t ts ih => rw [preorders, ih, List.flatMap_cons]

theorem preorders_append (ts us : List Tree) : preorders (ts ++ us) = preorders ts ++ preorders us := by
  rw [preorders_eq, preorders_eq, preorders_eq, List.flatMap_append]

theorem shapes_eq (ts : List Tree) : shapes ts = ts.map shape := by
  induction ts with
  | nil => rfl
  | cons t ts ih => rw [shapes, ih, List.map_cons]

theorem size_eq (t : Tree) : size t = 1 + sizes t.children := by
  cases t
  rfl

/-- Visits the nodes that wait on a stack, the top first. A visited node puts its children on the stack. -/
def visit : List Tree → List Tree
  | [] => []
  | t :: stack => t :: visit (t.children ++ stack)
termination_by stack => sizes stack
decreasing_by
  rw [sizes_append, sizes, size_eq]
  omega

theorem length_visit (stack : List Tree) : (visit stack).length = sizes stack := by
  induction stack using visit.induct with
  | case1 => rw [visit]; rfl
  | case2 t stack ih =>
    rw [visit, List.length_cons, ih, sizes_append, sizes, size_eq]
    omega

/-- The nodes of a tree in the order of a walk. -/
def walk (t : Tree) : List Tree := visit [t]

end Tree
end Curly
