import Curly.Tree.Call
import Mathlib.Logic.Relation

/-! Which nodes of a forest are below which, and the walk over those below a node. A node may be below itself: an append
    looks only at whether its child is attached, and the topmost node is not. -/

namespace Curly.Forest

/-- The children of a node, in their order. -/
def childrenOf (f : Forest) (h : Handle) : List Handle := ((f.entry? h).map Entry.children).getD []

def Parent (f : Forest) (h i : Handle) : Prop := i ∈ f.childrenOf h

/-- The second node is a descendant of the first. -/
def Above (f : Forest) : Handle → Handle → Prop := Relation.TransGen f.Parent

/-- The second node is the first or a descendant of it. -/
def Contains (f : Forest) : Handle → Handle → Prop := Relation.ReflTransGen f.Parent

/-- No node is below itself. -/
def Acyclic (f : Forest) : Prop := ∀ h, ¬ f.Above h h

/-- A walk over the nodes that wait on a stack, the top first, and the nodes that it visits. A visited node puts its
    children on the stack; the walk is over when nothing waits. -/
inductive Walks (f : Forest) : List Handle → List Handle → Prop where
  | done : f.Walks [] []
  | visit {h : Handle} {stack visited : List Handle} (rest : f.Walks (f.childrenOf h ++ stack) visited) :
    f.Walks (h :: stack) (h :: visited)

/-- The call succeeds, and adds to a node the node itself or one above it. -/
def Closes (f : Forest) : Call → Prop
  | .build _ => False
  | .append parent child =>
    f.Admits (.append parent child) ∧ (f.append parent child).2 = none ∧ f.Contains child parent

end Curly.Forest
