import Curly.Tree.Forest

/-! Sequences of calls that build nodes and put them together. A call can be refused; what it changed before that stays
    changed, and further calls may follow. -/

namespace Curly

/-- A call that builds a node, of whatever kind, or that adds a child at the end of a container. -/
inductive Call where
  | build (draft : Draft Handle)
  | append (parent child : Handle)
deriving DecidableEq, Repr

/-- The nodes that a call is to attach, in their order. -/
def Call.children : Call → List Handle
  | build d => d.children
  | append _ child => [child]

namespace Forest

/-- The nodes that a call cites are there, and the one that it adds to is a container. -/
def Admits (f : Forest) : Call → Prop
  | .build d => ∀ h ∈ d.children, h < f.count
  | .append parent child => child < f.count ∧ (f.entry? parent).any (·.kind.isContainer)

instance (f : Forest) : DecidablePred f.Admits
  | .build d => inferInstanceAs (Decidable (∀ h ∈ d.children, h < f.count))
  | .append parent child =>
    inferInstanceAs (Decidable (child < f.count ∧ (f.entry? parent).any (·.kind.isContainer)))

/-- Makes a call. -/
def perform (f : Forest) : Call → Forest × Option Refusal
  | .build d => match f.build d with
    | (g, .ok _) => (g, none)
    | (g, .error refusal) => (g, some refusal)
  | .append parent child => f.append parent child

/-- The forest after calls that are made one after the other. One that cites what is not there cannot be made. -/
def after (f : Forest) : List Call → Forest
  | [] => f
  | c :: calls => if f.Admits c then (f.perform c).1.after calls else f.after calls

/-- All places of children, node by node. -/
def places (f : Forest) : List Handle := f.entries.flatMap Entry.children

/-- What holds at first and is kept by every call that can be made, holds after all of them. -/
theorem after_induction {P : Forest → Prop} (step : ∀ f c, P f → f.Admits c → P (f.perform c).1) {f : Forest}
    (start : P f) (calls : List Call) : P (f.after calls) := by
  induction calls generalizing f with
  | nil => exact start
  | cons c calls ih =>
    rw [after]
    split
    · next hc => exact ih (step f c start hc)
    · exact ih start

theorem after_append (f : Forest) (calls more : List Call) : f.after (calls ++ more) = (f.after calls).after more := by
  induction calls generalizing f with
  | nil => rfl
  | cons c calls ih =>
    rw [List.cons_append, after, after]
    split
    · exact ih _
    · exact ih _

end Forest
end Curly
