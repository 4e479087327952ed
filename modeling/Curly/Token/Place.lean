import Curly.Location

/-! Places in a text that is being read. A place knows the characters to come and how far it has moved; only a
    line feed begins a new line. -/

namespace Curly

/-- A place in a text: the characters from there on, the line and column, and the number of characters passed. -/
structure Place where
  rest : List Char
  line : Nat
  column : Nat
  offset : Nat
deriving DecidableEq, Repr

namespace Place

/-- The beginning of a text. -/
def start (text : List Char) : Place := ⟨text, 1, 1, 0⟩

/-- The place after the next character; the end of the text stays where it is. -/
def next (p : Place) : Place :=
  match p.rest with
  | [] => p
  | c :: rest =>
    if c = '\n' then ⟨rest, p.line + 1, 1, p.offset + 1⟩
    else ⟨rest, p.line, p.column + 1, p.offset + 1⟩

/-- The place after the next `n` characters. -/
def advance (p : Place) : Nat → Place
  | 0 => p
  | n + 1 => p.next.advance n

def location (p : Place) (file : String) : Location := ⟨file, p.line, p.column, p.offset⟩

theorem rest_next (p : Place) : p.next.rest = p.rest.drop 1 := by
  unfold next
  split
  · simp [*]
  · split <;> simp [*]

@[simp] theorem rest_advance (p : Place) (n : Nat) : (p.advance n).rest = p.rest.drop n := by
  induction n generalizing p with
  | zero => rfl
  | succ n ih => rw [advance, ih, rest_next, List.drop_drop, Nat.add_comm]

end Place
end Curly
