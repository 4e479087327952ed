import Curly.Tree.Basic
import Curly.Tree.Draft

/-! Forests: nodes that are built one by one and put together. A node can be attached to a parent once. Children are
    attached one after the other; when one of them is refused, those before it stay attached, although no node was
    built over them. -/

namespace Curly

/-- A node of a forest is known by its number. -/
abbrev Handle := Nat

/-- A node with the numbers of its children. It is free until it is attached. -/
structure Entry where
  kind : NodeKind
  value : String
  line : Int
  children : List Handle
  attached : Bool
deriving DecidableEq, Repr

/-- The node on its own, without its children. -/
def Entry.bare (e : Entry) : Tree := .leaf e.kind e.value e.line

/-- The nodes in the order in which they were built. -/
structure Forest where
  entries : List Entry
deriving DecidableEq, Repr

/-- Why an operation was refused. -/
inductive Refusal where
  /-- The node has a parent already, or was to have one. -/
  | attached (node : Handle)
  /-- No children can be added to the node. -/
  | notContainer (node : Handle)
deriving DecidableEq, Repr

namespace Forest

def empty : Forest := ⟨[]⟩

/-- The number of nodes. -/
def count (f : Forest) : Nat := f.entries.length

def entry? (f : Forest) (h : Handle) : Option Entry := f.entries[h]?

def isAttached (f : Forest) (h : Handle) : Bool := (f.entry? h).any (·.attached)

def lineOf (f : Forest) (h : Handle) : Int := ((f.entry? h).map Entry.line).getD 0

theorem lt_of_entry {f : Forest} {h : Handle} {e : Entry} (he : f.entry? h = some e) : h < f.count :=
  (List.getElem?_eq_some_iff.mp he).1

theorem lt_of_any {f : Forest} {h : Handle} {p : Entry → Bool} (hp : (f.entry? h).any p = true) : h < f.count := by
  cases he : f.entry? h with
  | none =>
    rw [he] at hp
    cases hp
  | some e => exact lt_of_entry he

/-- Changes one node. -/
def modify (f : Forest) (h : Handle) (change : Entry → Entry) : Forest := ⟨f.entries.modify h change⟩

theorem modify_entry {f : Forest} {h i : Handle} {change : Entry → Entry} :
    Forest.entry? (f.modify h change) i = if h = i then (f.entry? i).map change else f.entry? i := by
  unfold entry? modify
  rw [List.getElem?_modify]
  split <;> simp

theorem count_modify {f : Forest} {h : Handle} {change : Entry → Entry} : (f.modify h change).count = f.count := by
  simp [count, modify]

/-- Attaches nodes one after the other, up to the first that is refused. -/
def attach (f : Forest) : List Handle → Forest × Option Refusal
  | [] => (f, none)
  | h :: rest =>
    if f.isAttached h then (f, some (.attached h))
    else (f.modify h fun e => { e with attached := true }).attach rest

/-- Builds the node that a draft describes, if all its children can be attached. -/
def build (f : Forest) (d : Draft Handle) : Forest × Except Refusal Handle :=
  match f.attach d.children with
  | (g, some refusal) => (g, .error refusal)
  | (g, none) =>
    (⟨g.entries ++ [⟨d.kind, d.value, d.placedLine f.lineOf, d.children, false⟩]⟩, .ok g.entries.length)

/-- Adds a child at the end of a container. -/
def append (f : Forest) (parent child : Handle) : Forest × Option Refusal :=
  if (f.entry? parent).any (·.kind.isContainer) then
    match f.attach [child] with
    | (g, some refusal) => (g, some refusal)
    | (g, none) => (g.modify parent fun e => { e with children := e.children ++ [child] }, none)
  else (f, some (.notContainer parent))

/-- Moves a node to another line. -/
def setLine (f : Forest) (h : Handle) (line : Int) : Forest := f.modify h fun e => { e with line := line }

/-- A child by its index; a negative one counts from the end. -/
def child? (f : Forest) (h : Handle) (index : Int) : Option Handle :=
  (f.entry? h).bind fun e =>
    let index := if index < 0 then index + e.children.length else index
    if index < 0 then none else e.children[index.toNat]?

mutual
/-- Adds a whole tree, of which the root stays free. -/
def plant (f : Forest) : Tree → Forest × Handle
  | .node kind value line children =>
    let (g, handles) := f.plantAll children
    (⟨g.entries ++ [⟨kind, value, line, handles, false⟩]⟩, g.entries.length)

/-- Adds trees whose roots are attached. -/
def plantAll (f : Forest) : List Tree → Forest × List Handle
  | [] => (f, [])
  | t :: ts =>
    let (g, h) := f.plant t
    let (g, handles) := (g.modify h fun e => { e with attached := true }).plantAll ts
    (g, h :: handles)
end

/-- The tree below a node, unless it is deeper than `depth`. -/
def treeWithin (f : Forest) : Nat → Handle → Option Tree
  | 0, _ => none
  | depth + 1, h => do
    let e ← f.entry? h
    let children ← e.children.mapM (f.treeWithin depth)
    return .node e.kind e.value e.line children

/-- The tree below a node. There is none if the node is below itself. -/
def tree? (f : Forest) (h : Handle) : Option Tree := f.treeWithin f.entries.length h

/-- What is wrong, in words. -/
def describe (f : Forest) : Refusal → String
  | .attached h =>
    ((f.entry? h).map fun e => e.bare.detail).getD "" ++ " is already attached to another node"
  | .notContainer h =>
    "'" ++ ((f.entry? h).map fun e => e.kind.longName).getD "" ++ "' object has no attribute 'append'"

end Forest
end Curly
