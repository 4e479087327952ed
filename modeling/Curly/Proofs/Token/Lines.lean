import Curly.Token.Scan

/-! The tokens of a text come in the order of their lines. Main statement: `sorted_tokens`. -/

namespace Curly

namespace Place

theorem line_le_next (p : Place) : p.line ≤ p.next.line := by
  unfold next
  split
  · exact Nat.le_refl _
  · split
    · exact Nat.le_succ _
    · exact Nat.le_refl _

theorem line_le_advance (p : Place) (n : Nat) : p.line ≤ (p.advance n).line := by
  induction n generalizing p with
  | zero => exact Nat.le_refl _
  | succ n ih => exact Nat.le_trans p.line_le_next (ih p.next)

end Place

/-- No token stands on an earlier line than one before it. -/
def Token.Sorted (tokens : List Token) : Prop := tokens.Pairwise fun t u => t.line ≤ u.line

/-- From a place on, tokens are read in order, and none on an earlier line than that of the place. -/
theorem lines_run (file : String) (p : Place) :
    (∀ t ∈ (Scan.run file p).tokens, (p.line : Int) ≤ t.line) ∧ Token.Sorted (Scan.run file p).tokens := by
  induction hn : p.rest.length using Nat.strongRecOn generalizing p with
  | ind n ih =>
    have hskip : p.line ≤ p.skipTrivia.line := p.line_le_advance _
    rw [Scan.run]
    split
    · refine ⟨fun t ht => ?_, List.pairwise_singleton _ _⟩
      obtain rfl := List.mem_singleton.mp ht
      exact Int.ofNat_le.mpr hskip
    · next r h =>
      have hlt := Nat.lt_of_lt_of_le (Place.length_rest_read? h) p.length_rest_skipTrivia
      obtain ⟨hrest, hsorted⟩ := ih _ (hn ▸ hlt) r.after rfl
      have htoken : r.token.line = p.skipTrivia.line ∧ p.skipTrivia.line ≤ r.after.line := by
        unfold Place.read? at h
        split at h
        · cases h
        · cases h
          exact ⟨rfl, Place.line_le_advance _ _⟩
      have hbehind : ∀ t ∈ (Scan.run file r.after).tokens, r.token.line ≤ t.line := fun t ht =>
        htoken.1 ▸ Int.le_trans (Int.ofNat_le.mpr htoken.2) (hrest t ht)
      have hfirst : (p.line : Int) ≤ r.token.line := htoken.1 ▸ Int.ofNat_le.mpr hskip
      refine ⟨List.forall_mem_cons.mpr ⟨hfirst, fun t ht => Int.le_trans hfirst (hbehind t ht)⟩, ?_⟩
      exact List.pairwise_cons.mpr ⟨hbehind, hsorted⟩

theorem sorted_tokens (s : Source) : Token.Sorted s.tokens := (lines_run s.file _).2

end Curly
