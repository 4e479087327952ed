/-! Line ends. A carriage return ends a line alone or together with a line feed after it; either way one line
    feed takes their place. -/

namespace Curly.Text

/-- A text in which line feeds are the only line ends. -/
def unifyNewlines : List Char → List Char
  | [] => []
  | '\r' :: '\n' :: rest => '\n' :: unifyNewlines rest
  | '\r' :: rest => '\n' :: unifyNewlines rest
  | c :: rest => c :: unifyNewlines rest

/-- A text with a carriage return in front of every line feed. -/
def addReturns : List Char → List Char
  | [] => []
  | c :: rest => if c = '\n' then '\r' :: '\n' :: addReturns rest else c :: addReturns rest

section
variable {c : Char} (text more : List Char)

@[simp] theorem addReturns_newline : addReturns ('\n' :: text) = '\r' :: '\n' :: addReturns text := rfl

theorem addReturns_cons (hc : c ≠ '\n') : addReturns (c :: text) = c :: addReturns text := by
  rw [addReturns, if_neg hc]

theorem addReturns_append : addReturns (text ++ more) = addReturns text ++ addReturns more := by
  induction text with
  | nil => rfl
  | cons c text ih =>
    rw [List.cons_append, addReturns, addReturns, ih]
    split <;> rfl

theorem addReturns_of_not_mem {text : List Char} (h : '\n' ∉ text) : addReturns text = text := by
  induction text with
  | nil => rfl
  | cons c text ih =>
    rw [List.mem_cons, not_or] at h
    rw [addReturns_cons _ (Ne.symm h.1), ih h.2]

end

end Curly.Text
