import Curly.Proofs.Parser.Gathering
import Curly.Syntax.Inventory

/-! Where the items of a tree come from. Whatever a parser comes to, the leaves of it are items that were read on the way,
    each at most once and in their order, also where something is wrong. Main statement: `taken_program`. -/

namespace Curly

/-! ### Reading -/

/-- From the first cursor on, tokens were read up to the second, and no end of the input. The items are among them. -/
def Taken (c : Cursor) (items : List Item) (d : Cursor) : Prop :=
  ∃ ts, c.ahead = ts ++ d.ahead ∧ (∀ t ∈ ts, t.kind ≠ .eof) ∧ items.Sublist (ts.filterMap Token.item?)

section
variable {c d e : Cursor} {items more : List Item}

theorem Taken.trans (h : Taken c items d) (h' : Taken d more e) : Taken c (items ++ more) e := by
  obtain ⟨ts, hc, hts, hi⟩ := h
  obtain ⟨us, hd, hus, hi'⟩ := h'
  refine ⟨ts ++ us, by rw [hc, hd, List.append_assoc], List.forall_mem_append.mpr ⟨hts, hus⟩, ?_⟩
  rw [List.filterMap_append]
  exact hi.append hi'

theorem Taken.isOpen (h : Taken c items d) (hc : c.Open) : d.Open := by
  obtain ⟨ts, hts, hne, -⟩ := h
  have hstop : c.stop = d.stop := by
    rw [Cursor.stop, hts, List.dropWhile_append_of_pos (by simpa using hne), Cursor.stop]
  rwa [Cursor.Open, ← hstop]

/-- Where no end of the input was passed, tokens were read. -/
theorem Onward.taken (h : Onward c d) : Taken c [] d := by
  obtain ⟨ts, hts⟩ := h.suffix
  refine ⟨ts, hts.symm, fun t ht hk => ?_, List.nil_sublist _⟩
  have hdrop : ts.dropWhile (·.kind != .eof) ≠ [] := by
    intro hnil
    simpa [hk] using List.dropWhile_eq_nil_iff.mp hnil t ht
  have hstop : d.stop = ts.dropWhile (·.kind != .eof) ++ d.ahead := by
    rw [h.stop, Cursor.stop, ← hts, List.dropWhile_append, if_neg (by simpa using hdrop)]
  have hle := d.length_stop_le
  have hpos := List.length_pos_iff.mpr hdrop
  rw [hstop, List.length_append] at hle
  omega

/-- Reading the current token. -/
theorem taken_next {t : Token} {rest : List Token} (h : c.ahead = t :: rest) : Taken c t.item?.toList c.next := by
  unfold Cursor.next
  rw [h]
  by_cases ht : t.kind = .eof
  · simp only [ht, ↓reduceIte]
    exact ⟨[], rfl, (fun _ hu => by cases hu), by simp [Token.item?, ht]⟩
  · simp only [ht, ↓reduceIte]
    refine ⟨[t], h, by simpa using ht, ?_⟩
    cases hi : t.item? <;> simp [hi]

end

namespace Parser
variable {α : Type} {s : Setting} {c : Cursor}

/-! ### What is gathered -/

theorem additive_taken : Additive fun c items d _ => Taken c items d where
  trans := Taken.trans
  plain {_ p s c d a log} hp hc h := by
    have hsafe := hp.safe s c hc
    rw [h] at hsafe
    exact hsafe.onward.taken

/-- The token that is read may be the item of a leaf. -/
theorem gathers_advance_bind {f : Token → Parser α} {items : α → List Item} {t : Token} {rest : List Token}
    (h : c.ahead = t :: rest)
    (hf : Gathers (fun c items d _ => Taken c items d) s c.next t.item?.toList (f t) items) :
    Gathers (fun c items d _ => Taken c items d) s c [] (advance >>= f) items := by
  have hp : ∃ log, advance s c = .done t c.next log := by
    unfold advance Cursor.next
    rw [h]
    by_cases ht : t.kind = .eof <;> simp [ht]
  obtain ⟨log, hp⟩ := hp
  exact fun hc => additive_taken.after hp ((taken_next h).isOpen hc) (taken_next h) hf hc

theorem gathers_factor_items {condition : Parser Expr}
    (h : ∀ c, Gathers (fun c items d _ => Taken c items d) s c [] condition (Expr.gather Tree.item?)) (c : Cursor) :
    Gathers (fun c items d _ => Taken c items d) s c [] (factor condition) (Expr.gather Tree.item?) := by
  have G := additive_taken
  unfold factor
  refine G.peek_bind fun t rest ht => ?_
  split
  · next hk => exact gathers_advance_bind ht (gathers_pure (by simp only [Token.item?, hk]; rfl))
  · next hk =>
    have hname : [⟨.identifier, t.lexeme, t.line⟩] = t.item?.toList := by simp [Token.item?, hk]
    exact gathers_advance_bind ht <| G.plain_bind (reading_plain.accept _) fun _ _ => gathers_ite (gathers_pure hname) <|
      G.plain_bind (reading_plain.accept _) fun _ _ => gathers_ite (gathers_pure hname) (gathers_pure hname)
  · next hk => exact gathers_advance_bind ht (gathers_pure (by simp only [Token.item?, hk]; rfl))
  · exact G.plain_bind reading_plain.advance fun _ d => G.bind (h d) fun _ _ =>
      G.plain_bind (plain_expect _ _) fun _ _ => gathers_pure rfl
  · intro hc
    have hreport : report (.invalidExpression t) s c = .done () c [.found (.invalidExpression t)] := rfl
    exact G.after hreport hc (Onward.refl c).taken
      (G.plain_bind reading_plain.advance fun _ _ => gathers_pure rfl) hc

theorem gathering_taken : Gathering Tree.item? fun c items d _ => Taken c items d where
  toAdditive := additive_taken
  operands kind value line children hk := by
    cases kind <;> first | rfl | exact absurd (by decide) hk
  factor := gathers_factor_items

/-- The leaves of a program are items that were read, whatever is wrong with it. -/
theorem taken_program (hc : c.Open) {p : Program} {d : Cursor} {log : List Event} (h : program s c = .done p d log) :
    Taken c p.toTree.items d :=
  (gathering_taken.program c hc c [] (Onward.refl c).taken p d log h).2

end Parser

end Curly
