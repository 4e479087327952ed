import Curly.Parser.Resume
import Mathlib.Order.Bounds.Basic
import Mathlib.Order.Monotone.Basic

/-! How far the search for a place to resume goes. It passes tokens up to the first at which it must stop, and a semicolon
    there as well, unless it is the last token of all. Main statement: `resumeIndex_exact`. -/

namespace Curly

/-- A search that may go up to the index `limit` stops at the index `i` if it has come there: the token there is the last
    one, or an end of the input, or one at which parsing may resume, or the index is the limit. -/
def Halts (tokens : List Token) (limit i : Nat) : Prop :=
  i + 1 = tokens.length ∨ (∃ t ∈ tokens[i]?, t.kind = .eof ∨ t.kind.isBoundary) ∨ i = limit

/-- The index behind a semicolon that is not the last token, or else the index itself. -/
def pastSemicolon (tokens : List Token) (i : Nat) : Nat :=
  if i + 1 < tokens.length ∧ ∃ t ∈ tokens[i]?, t.kind = .semicolon then i + 1 else i

theorem pastSemicolon_le (tokens : List Token) (i : Nat) : pastSemicolon tokens i ≤ i + 1 := by
  unfold pastSemicolon
  split <;> omega

theorem pastSemicolon_lt {tokens : List Token} {i : Nat} (h : i < tokens.length) :
    pastSemicolon tokens i < tokens.length := by
  unfold pastSemicolon
  split <;> omega

section
variable {t : Token} {rest tokens : List Token} {limit i p : Nat}

/-! ### Skipping tokens -/

theorem halts_zero : Halts (t :: rest) limit 0 ↔ rest = [] ∨ (t.kind = .eof ∨ t.kind.isBoundary) ∨ 0 = limit := by
  simp [Halts]

theorem halts_succ : Halts (t :: rest) (limit + 1) (i + 1) ↔ Halts rest limit i := by
  simp [Halts]

theorem pastSemicolon_zero : pastSemicolon (t :: rest) 0 = if rest ≠ [] ∧ t.kind = .semicolon then 1 else 0 := by
  simp [pastSemicolon, List.length_pos_iff]

theorem pastSemicolon_succ : pastSemicolon (t :: rest) (i + 1) = pastSemicolon rest i + 1 := by
  simp only [pastSemicolon, List.length_cons, Nat.add_lt_add_iff_right, List.getElem?_cons_succ]
  split <;> rfl

theorem skippable_of_halts (h : Halts (t :: rest) limit 0) : skippable limit (t :: rest) = pastSemicolon (t :: rest) 0 := by
  rw [halts_zero] at h
  rw [pastSemicolon_zero]
  cases rest with
  | nil => simp [skippable]
  | cons next rest =>
    unfold skippable
    by_cases heof : t.kind = .eof
    · simp [heof]
    by_cases hboundary : t.kind.isBoundary
    · simp [heof, hboundary]
    · obtain rfl : 0 = limit := by simpa [heof, hboundary] using h
      have hsemicolon : t.kind ≠ .semicolon := fun hk => hboundary (by rw [hk]; rfl)
      simp [heof, hboundary, hsemicolon]

theorem skippable_of_not_halts (h : ¬Halts (t :: rest) (limit + 1) 0) :
    skippable (limit + 1) (t :: rest) = skippable limit rest + 1 := by
  rw [halts_zero] at h
  cases rest with
  | nil => simp at h
  | cons next rest =>
    obtain ⟨heof, hboundary⟩ : t.kind ≠ .eof ∧ t.kind.isBoundary = false := by simpa using h
    rw [skippable, if_neg heof, if_neg (by simp [hboundary]), Nat.add_comm]

theorem skippable_of_length_le (h : tokens.length ≤ 1) : skippable limit tokens = 0 := by
  rcases tokens with _ | ⟨t, _ | ⟨next, rest⟩⟩
  · rw [skippable]
  · rw [skippable]
  · simp at h

/-- What is skipped goes up to the first token at which the search stops, and past it if it is a semicolon. -/
theorem exists_halts (tokens : List Token) (limit : Nat) (h : tokens ≠ []) :
    ∃ i, IsLeast {i | Halts tokens limit i} i ∧ skippable limit tokens = pastSemicolon tokens i := by
  induction tokens generalizing limit with
  | nil => exact absurd rfl h
  | cons t rest ih =>
    by_cases hzero : Halts (t :: rest) limit 0
    · exact ⟨0, ⟨hzero, fun _ _ => Nat.zero_le _⟩, skippable_of_halts hzero⟩
    · have hrest : rest ≠ [] := fun hnil => hzero (halts_zero.mpr (.inl hnil))
      cases limit with
      | zero => exact absurd (halts_zero.mpr (.inr (.inr rfl))) hzero
      | succ limit =>
        obtain ⟨i, ⟨hi, hleast⟩, hskippable⟩ := ih limit hrest
        refine ⟨i + 1, ⟨halts_succ.mpr hi, fun j hj => ?_⟩, ?_⟩
        · cases j with
          | zero => exact absurd hj hzero
          | succ j => exact Nat.succ_le_succ (hleast (halts_succ.mp hj))
        · rw [skippable_of_not_halts hzero, hskippable, pastSemicolon_succ]

theorem skippable_le_succ (limit : Nat) (tokens : List Token) : skippable limit tokens ≤ skippable (limit + 1) tokens := by
  fun_induction skippable limit tokens with
  | case1 | case2 | case3 | case6 => exact Nat.zero_le _
  | case4 | case5 => simp_all [skippable]
  | case7 t next rest heof hboundary limit ih =>
    rw [skippable, if_neg heof, if_neg hboundary]
    omega

/-- Either the search stops at the first token, or it goes on from the next one as it would have begun there, but for the
    limit, which is nearer by one. -/
theorem skippable_cons_le (t : Token) (rest : List Token) (limit : Nat) :
    skippable limit (t :: rest) ≤ skippable limit rest + 1 := by
  by_cases hzero : Halts (t :: rest) limit 0
  · rw [skippable_of_halts hzero]
    exact Nat.le_trans (pastSemicolon_le _ 0) (Nat.le_add_left 1 _)
  · cases limit with
    | zero => exact absurd (halts_zero.mpr (.inr (.inr rfl))) hzero
    | succ limit =>
      rw [skippable_of_not_halts hzero]
      exact Nat.succ_le_succ (skippable_le_succ limit rest)

/-! ### The whole list -/

theorem halts_drop (hp : p < tokens.length) : Halts (tokens.drop p) limit i ↔ Halts tokens (p + limit) (p + i) := by
  unfold Halts
  rw [List.getElem?_drop, List.length_drop, Nat.add_left_cancel_iff]
  have hlength : i + 1 = tokens.length - p ↔ p + i + 1 = tokens.length := by omega
  rw [hlength]

theorem pastSemicolon_drop : p + pastSemicolon (tokens.drop p) i = pastSemicolon tokens (p + i) := by
  have hlength : i + 1 < tokens.length - p ↔ p + i + 1 < tokens.length := by omega
  simp only [pastSemicolon, List.getElem?_drop, List.length_drop, hlength]
  split <;> rfl

theorem le_resumeIndex (tokens : List Token) (p : Nat) : p ≤ resumeIndex tokens p := Nat.le_add_right p _

/-- From the last token on, and from behind it, nothing is skipped. -/
theorem resumeIndex_of_length_le (hp : tokens.length ≤ p + 1) : resumeIndex tokens p = p := by
  have hlength : (tokens.drop p).length ≤ 1 := by rw [List.length_drop]; omega
  rw [resumeIndex, skippable_of_length_le hlength, Nat.add_zero]

theorem exists_halts_from (hp : p < tokens.length) :
    ∃ k, IsLeast {i | p ≤ i ∧ Halts tokens (p + resumeLimit) i} k ∧ resumeIndex tokens p = pastSemicolon tokens k := by
  obtain ⟨i, ⟨hi, hleast⟩, hskippable⟩ := exists_halts (tokens.drop p) resumeLimit (by simpa using hp)
  refine ⟨p + i, ⟨⟨Nat.le_add_right p i, (halts_drop hp).mp hi⟩, ?_⟩, ?_⟩
  · rintro j ⟨hpj, hj⟩
    obtain ⟨j, rfl⟩ := Nat.exists_eq_add_of_le hpj
    exact Nat.add_le_add_left (hleast ((halts_drop hp).mpr hj)) p
  · rw [resumeIndex, hskippable, pastSemicolon_drop]

/-- The search goes neither past its limit nor past the last token. -/
theorem resumeIndex_le (tokens : List Token) (p : Nat) : resumeIndex tokens p ≤ p + resumeLimit + 1 ∧
    (p < tokens.length → resumeIndex tokens p < tokens.length) := by
  by_cases hp : p < tokens.length
  · obtain ⟨k, ⟨-, hleast⟩, hresume⟩ := exists_halts_from hp
    have hlimit : k ≤ p + resumeLimit := hleast ⟨Nat.le_add_right _ _, .inr (.inr rfl)⟩
    have hlast : k ≤ tokens.length - 1 := hleast ⟨by omega, .inl (by omega)⟩
    have hpast := pastSemicolon_le tokens k
    rw [hresume]
    exact ⟨by omega, fun _ => pastSemicolon_lt (by omega)⟩
  · rw [resumeIndex_of_length_le (by omega)]
    exact ⟨by omega, fun h => absurd h hp⟩

/-- From the next token on parsing resumes no earlier. -/
theorem resumeIndex_le_succ (tokens : List Token) (p : Nat) : resumeIndex tokens p ≤ resumeIndex tokens (p + 1) := by
  unfold resumeIndex
  cases hdrop : tokens.drop p with
  | nil =>
    rw [skippable]
    omega
  | cons t rest =>
    have hrest : tokens.drop (p + 1) = rest := by rw [← List.drop_drop, hdrop, List.drop_one, List.tail_cons]
    have hskippable := skippable_cons_le t rest resumeLimit
    rw [hrest]
    omega

end

/-- From an index `p` on, parsing resumes at the first index `k` where the search stops, or behind a semicolon there that is
    not the last token; if `p` is the last index or behind it, then `k` is `p` itself. So parsing resumes not before `p`,
    not more than the limit and one token behind it, and in the list if `p` is in it; and no earlier from a later index.
    The parser goes on with the tokens from there. -/
theorem resumeIndex_exact (tokens : List Token) :
    (∀ p, ∃ k, (if tokens.length ≤ p + 1 then k = p else IsLeast {i | p ≤ i ∧ Halts tokens (p + resumeLimit) i} k) ∧
      resumeIndex tokens p = pastSemicolon tokens k) ∧
    (∀ p, p ≤ resumeIndex tokens p ∧ resumeIndex tokens p ≤ p + resumeLimit + 1 ∧
      (p < tokens.length → resumeIndex tokens p < tokens.length)) ∧
    Monotone (resumeIndex tokens) ∧
    ∀ p s begun, (Parser.resume s ⟨tokens.drop p, begun⟩).cursor = ⟨tokens.drop (resumeIndex tokens p), begun⟩ := by
  refine ⟨fun p => ?_, fun p => ⟨le_resumeIndex tokens p, resumeIndex_le tokens p⟩,
    monotone_nat_of_le_succ (resumeIndex_le_succ tokens), fun p s begun => ?_⟩
  · by_cases hp : tokens.length ≤ p + 1
    · refine ⟨p, by rw [if_pos hp], ?_⟩
      rw [resumeIndex_of_length_le hp, pastSemicolon, if_neg (fun h => Nat.not_lt.mpr hp h.1)]
    · obtain ⟨k, hleast, hresume⟩ := exists_halts_from (show p < tokens.length by omega)
      exact ⟨k, by rwa [if_neg hp], hresume⟩
  · show (⟨(tokens.drop p).drop _, begun⟩ : Cursor) = _
    rw [List.drop_drop]
    rfl

/-- A semicolon at the limit is skipped, in front of the end of the input. -/
theorem resumeIndex_exact_limit :
    let token (kind : TokenKind) : Token := ⟨kind, "", "", ⟨"x", 1, 1, 0⟩⟩
    let tokens := List.replicate resumeLimit (token .plus) ++ [token .semicolon, token .eof]
    0 < tokens.length ∧ resumeIndex tokens 0 < tokens.length ∧ resumeIndex tokens 0 = 0 + resumeLimit + 1 := by
  intro token tokens
  have hp : 0 < tokens.length := by decide
  exact ⟨hp, ((resumeIndex_exact tokens).2.1 0).2.2 hp, by decide⟩

end Curly
