import Curly.Tree.Basic

/-! Outlines: a tree as text, a line for every node, indented by two spaces for every node above it. -/

namespace Curly.Tree

/-- The line of a node under `depth` others. A text that is empty and a line that is not positive are left out. -/
def outlineEntry (depth : Nat) (t : Tree) : String :=
  let value := if t.value = "" then "" else " [" ++ t.value ++ "]"
  let line := if 0 < t.line then " (@" ++ toString t.line ++ ")" else ""
  String.join (List.replicate depth "  ") ++ "├─ " ++ t.kind.name ++ value ++ line

mutual
/-- The lines of a tree under `depth` nodes. -/
def outlineEntries (depth : Nat) : Tree → List String
  | t@(node _ _ _ cs) => outlineEntry depth t :: outlineEntriesOf (depth + 1) cs

def outlineEntriesOf (depth : Nat) : List Tree → List String
  | [] => []
  | t :: ts => outlineEntries depth t ++ outlineEntriesOf depth ts
end

/-- The outline of a tree. -/
def outline (t : Tree) : String := "\n".intercalate (outlineEntries 0 t)

end Curly.Tree
