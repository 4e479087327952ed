import Curly.Syntax.Inventory
import Curly.Token.Scan

/-! How the tokens of a text are spelled. A number is a run of digits, an identifier is a name, and a token of any other
    kind that is neither a string literal nor a mistake has one of the fixed spellings. Main statement: `spelled_tokens`. -/

namespace Curly

/-- The fixed spellings with their kinds: keywords, operators and punctuation. -/
def TokenKind.spellings : List (String × TokenKind) :=
  keywords ++ (pairOperators.map fun x => (String.ofList [x.1.1, x.1.2], x.2)) ++
    charOperators.map fun x => (String.ofList [x.1], x.2)

theorem not_mem_of_isName {name : String} (h : isName name) : '.' ∉ name.toList := by
  unfold isName at h
  split at h
  · cases h
  · next c rest hc =>
    simp only [Bool.and_eq_true, List.all_eq_true] at h
    rw [hc, List.mem_cons, not_or]
    constructor
    · rintro rfl
      exact absurd h.1.1 (by decide)
    · intro hmem
      exact absurd (h.1.2 _ hmem) (by decide)

namespace Token

/-- A token is spelled as its kind asks. Of string literals, mistakes and ends of the input nothing is asked. -/
def Spelled (t : Token) : Prop :=
  t.kind = .number ∧ isNumber t.lexeme ∨ t.kind = .identifier ∧ isName t.lexeme ∨
    (t.lexeme, t.kind) ∈ TokenKind.spellings ∨ t.kind ∈ [.stringLiteral, .error, .eof]

variable {t : Token}

theorem Spelled.isNumber (h : t.Spelled) (hk : t.kind = .number) : isNumber t.lexeme := by
  have hno : ∀ x ∈ TokenKind.spellings, x.2 ≠ .number := by decide
  rcases h with ⟨-, h⟩ | ⟨hk', -⟩ | h | h
  · exact h
  · simp [hk] at hk'
  · exact absurd hk (hno _ h)
  · simp [hk] at h

theorem Spelled.isName (h : t.Spelled) (hk : t.kind = .identifier) : isName t.lexeme := by
  have hno : ∀ x ∈ TokenKind.spellings, x.2 ≠ .identifier := by decide
  rcases h with ⟨hk', -⟩ | ⟨-, h⟩ | h | h
  · simp [hk] at hk'
  · exact h
  · exact absurd hk (hno _ h)
  · simp [hk] at h

/-- What all fixed spellings of a class `K` of kinds have in common, the tokens of this class have. -/
theorem Spelled.of_class (h : t.Spelled) {K : TokenKind → Bool} {P : String → Bool}
    (hwild : [TokenKind.number, .identifier, .stringLiteral, .error, .eof].any K = false)
    (hall : TokenKind.spellings.all fun x => !K x.2 || P x.1) (ha : K t.kind) : P t.lexeme := by
  simp only [List.any_cons, List.any_nil, Bool.or_eq_false_iff] at hwild
  rcases h with ⟨hk, -⟩ | ⟨hk, -⟩ | h | h
  · simp [hk, hwild] at ha
  · simp [hk, hwild] at ha
  · simpa [ha] using List.all_eq_true.mp hall _ h
  · simp only [List.mem_cons, List.not_mem_nil, or_false] at h
    rcases h with hk | hk | hk
    all_goals simp [hk, hwild] at ha

theorem Spelled.divisible (h : t.Spelled) : t.Divisible := by
  refine ⟨fun hk => ?_, fun hk => not_mem_of_isName (h.isName hk), fun hk => ?_⟩
  · have := h.of_class (P := fun w => !w.toList.contains ' ') (by decide) (by decide) hk
    simpa using this
  · have := h.of_class (K := (· == .dot)) (P := (· == ".")) (by decide) (by decide) (by simp [hk])
    simpa using this

end Token

/-! ### Reading -/

section
variable {c : Char} {rest : List Char} {t : Token}

theorem spelled_word (hc : Lexeme.isWordStart c) (hrest : ∀ d ∈ rest, Lexeme.isWordPart d)
    (hl : t.lexeme = String.ofList (c :: rest)) (hk : t.kind = TokenKind.ofWord (String.ofList (c :: rest))) :
    t.Spelled := by
  rw [← hl, TokenKind.ofWord] at hk
  cases hlookup : TokenKind.keywords.lookup t.lexeme with
  | none =>
    rw [hlookup, Option.getD_none] at hk
    refine .inr (.inl ⟨hk, ?_⟩)
    rw [isName, hlookup, hl, String.toList_ofList]
    simpa [hc] using hrest
  | some kind =>
    rw [hlookup, Option.getD_some] at hk
    refine .inr (.inr (.inl ?_))
    rw [hk, TokenKind.spellings, List.append_assoc]
    exact List.mem_append_left _ (TokenKind.mem_of_lookup hlookup)

theorem spelled_symbol (hl : t.lexeme = String.ofList (Lexeme.readSymbol c rest).text)
    (hk : t.kind = (Lexeme.readSymbol c rest).kind) : t.Spelled := by
  unfold Lexeme.readSymbol at hl hk
  split at hl
  · next pair h =>
    rcases Option.bind_eq_some_iff.mp h with ⟨d, -, h'⟩
    rcases Option.map_eq_some_iff.mp h' with ⟨kind, hkind, rfl⟩
    rw [h] at hk
    refine .inr (.inr (.inl ?_))
    rw [hl, hk, TokenKind.spellings]
    refine List.mem_append_left _ (List.mem_append_right _ ?_)
    exact List.mem_map_of_mem (f := fun x => (String.ofList [x.1.1, x.1.2], x.2)) (TokenKind.mem_of_lookup hkind)
  · next h =>
    rw [h] at hk
    cases hkind : TokenKind.ofChar? c with
    | none => exact .inr (.inr (.inr (by simp [hk, hkind, Lexeme.plain])))
    | some kind =>
      refine .inr (.inr (.inl ?_))
      rw [hl, hk, hkind, TokenKind.spellings]
      refine List.mem_append_right _ ?_
      exact List.mem_map_of_mem (f := fun x => (String.ofList [x.1], x.2)) (TokenKind.mem_of_lookup hkind)

/-- Whatever is read at the head of a text is spelled as its kind asks. -/
theorem spelled_read (hl : t.lexeme = String.ofList (Lexeme.read c rest).text)
    (hk : t.kind = (Lexeme.read c rest).kind) : t.Spelled := by
  unfold Lexeme.read at hl hk
  split at hl
  · next hc =>
    rw [if_pos hc] at hk
    refine .inl ⟨hk, ?_⟩
    rw [hl]
    simp [isNumber, Lexeme.plain, hc]
  · next hdigit =>
    rw [if_neg hdigit] at hk
    split at hl
    · next hc =>
      rw [if_pos hc] at hk
      exact spelled_word hc (List.all_eq_true.mp List.all_takeWhile) hl hk
    · next hstart =>
      rw [if_neg hstart] at hk
      split at hl
      · next hquote =>
        rw [if_pos hquote] at hk
        exact .inr (.inr (.inr (by simp [hk])))
      · next hquote =>
        rw [if_neg hquote] at hk
        exact spelled_symbol hl hk

end

theorem spelled_run (file : String) (p : Place) : ∀ t ∈ (Scan.run file p).tokens, t.Spelled := by
  induction hn : p.rest.length using Nat.strongRecOn generalizing p with
  | ind n ih =>
    rw [Scan.run]
    split
    · intro t ht
      obtain rfl := List.mem_singleton.mp ht
      exact .inr (.inr (.inr (by simp)))
    · next r h =>
      have hlt := Nat.lt_of_lt_of_le (Place.length_rest_read? h) p.length_rest_skipTrivia
      refine List.forall_mem_cons.mpr ⟨?_, ih _ (hn ▸ hlt) _ rfl⟩
      unfold Place.read? at h
      split at h
      · cases h
      · cases h
        exact spelled_read rfl rfl

/-- Every token of a text is spelled as its kind asks. -/
theorem spelled_tokens (s : Source) : ∀ t ∈ s.tokens, t.Spelled := spelled_run s.file _

end Curly
