import Curly.Token.Gap
import Curly.Token.Scan

/-! Nothing of a text is lost when it is cut into tokens: every token stands in the text, in order, and what stands
    between them are blanks and comments. Main statement: `tokens_lossless`. -/

namespace Curly

/-! ### Trivia -/

namespace Trivia

theorem not_infix_cons {c : Char} {body : List Char} (hb : ¬['*', '/'] <:+: body)
    (hc : c = '*' → body.head? ≠ some '/') : ¬['*', '/'] <:+: c :: body := by
  rw [List.infix_cons_iff, not_or]
  refine ⟨fun hp => ?_, hb⟩
  obtain ⟨hc', hp⟩ := List.cons_prefix_cons.mp hp
  cases body with
  | nil => simp at hp
  | cons d body =>
    obtain ⟨rfl, -⟩ := List.cons_prefix_cons.mp hp
    exact hc hc'.symm rfl

/-- What the trivia at the head of a text are, when reading begins in a given mode. -/
def Covered (final : Bool) : Mode → List Char → Prop
  | .outside, g => Gap final g
  | .lineComment, g => ∃ body rest, g = body ++ rest ∧ '\n' ∉ body ∧ (rest.head? = some '\n' ∨ final ∧ rest = []) ∧
      Gap final rest
  | .blockComment, g => (∃ body rest, g = body ++ '*' :: '/' :: rest ∧ ¬['*', '/'] <:+: body ∧ Gap final rest) ∨
      final ∧ ¬['*', '/'] <:+: g

/-- The trivia at the head of a text, and what follows them. -/
theorem covered (mode : Mode) (text : List Char) :
    ∃ g rest, text = g ++ rest ∧ g.length = lengthFrom mode text ∧ Covered rest.isEmpty mode g := by
  fun_induction lengthFrom mode text with
  | case1 mode =>
    refine ⟨[], [], rfl, rfl, ?_⟩
    cases mode with
    | outside => exact .nil
    | lineComment => exact ⟨[], [], rfl, List.not_mem_nil, .inr ⟨rfl, rfl⟩, .nil⟩
    | blockComment => exact .inr ⟨rfl, by simp⟩
  | case2 rest ih =>
    obtain ⟨g, after, rfl, hlen, body, rest, rfl, hb, hr, hg⟩ := ih
    exact ⟨_, after, rfl, by rw [← hlen, Nat.add_comm]; rfl, .lineComment hb hr hg⟩
  | case3 rest ih =>
    obtain ⟨g, after, rfl, hlen, ⟨body, rest, rfl, hb, hg⟩ | ⟨hf, hb⟩⟩ := ih
    · exact ⟨_, after, rfl, by rw [← hlen, Nat.add_comm]; rfl, .blockComment hb hg⟩
    · exact ⟨_, after, rfl, by rw [← hlen, Nat.add_comm]; rfl, .unclosed hf hb⟩
  | case4 c rest _ _ hc ih =>
    obtain ⟨g, after, rfl, hlen, hg⟩ := ih
    exact ⟨c :: g, after, rfl, by rw [← hlen, Nat.add_comm]; rfl, .blank hc hg⟩
  | case5 c rest => exact ⟨[], c :: rest, rfl, rfl, .nil⟩
  | case6 c rest ih =>
    obtain ⟨g, after, rfl, hlen, hg⟩ := ih
    refine ⟨c :: g, after, rfl, by rw [← hlen, Nat.add_comm]; rfl, ?_⟩
    by_cases hc : c = '\n'
    · subst hc
      exact ⟨[], '\n' :: g, rfl, List.not_mem_nil, .inl rfl, .blank rfl hg⟩
    · rw [if_neg hc] at hg
      obtain ⟨body, rest, rfl, hb, hr, hg⟩ := hg
      exact ⟨c :: body, rest, rfl, by simp [Ne.symm hc, hb], hr, hg⟩
  | case7 rest ih =>
    obtain ⟨g, after, rfl, hlen, hg⟩ := ih
    exact ⟨_, after, rfl, by rw [← hlen, Nat.add_comm]; rfl, .inl ⟨[], g, rfl, by simp, hg⟩⟩
  | case8 c rest hnot ih =>
    obtain ⟨g, after, rfl, hlen, hg⟩ := ih
    refine ⟨c :: g, after, rfl, by rw [← hlen, Nat.add_comm]; rfl, ?_⟩
    have hhead : c = '*' → g.head? ≠ some '/' := by
      intro hc hg
      obtain ⟨g, rfl⟩ := List.head?_eq_some_iff.mp hg
      exact hnot _ hc rfl
    rcases hg with ⟨body, rest, rfl, hb, hg⟩ | ⟨hf, hb⟩
    · refine .inl ⟨c :: body, rest, rfl, not_infix_cons hb fun hc h => hhead hc ?_, hg⟩
      rw [List.head?_append, h, Option.some_or]
    · exact .inr ⟨hf, not_infix_cons hb hhead⟩

end Trivia

/-! ### Lexemes -/

namespace Lexeme

theorem prefix_stringRest (text : List Char) : (stringRest text).1 <+: text := by
  fun_induction stringRest text with
  | case1 => exact List.nil_prefix
  | case2 rest => exact ⟨rest, rfl⟩
  | case3 => exact List.prefix_refl _
  | case4 c rest _ _ heq ih =>
    rw [heq] at ih
    exact (List.prefix_cons_inj _).mpr ((List.prefix_cons_inj _).mpr ih)
  | case5 c rest _ _ _ _ _ heq ih =>
    rw [heq] at ih
    exact (List.prefix_cons_inj _).mpr ih

theorem prefix_readSymbol (c : Char) (rest : List Char) : (readSymbol c rest).text <+: c :: rest := by
  unfold readSymbol
  split
  · next h =>
    obtain ⟨d, hd, hpair⟩ := Option.bind_eq_some_iff.mp h
    obtain ⟨kind, -, rfl⟩ := Option.map_eq_some_iff.mp hpair
    obtain ⟨rest, rfl⟩ := List.head?_eq_some_iff.mp hd
    exact ⟨rest, rfl⟩
  · exact ⟨rest, rfl⟩

/-- A lexeme stands at the head of the text. -/
theorem prefix_read (c : Char) (rest : List Char) : (read c rest).text <+: c :: rest := by
  unfold read
  split
  · exact (List.prefix_cons_inj _).mpr (List.takeWhile_prefix _)
  · split
    · exact (List.prefix_cons_inj _).mpr (List.takeWhile_prefix _)
    · split
      · exact (List.prefix_cons_inj _).mpr (prefix_stringRest rest)
      · exact prefix_readSymbol c rest

/-- No piece of a text reads as an end of the input. -/
theorem kind_read_ne_eof (c : Char) (rest : List Char) : (read c rest).kind ≠ .eof := by
  have hkeyword : ∀ x ∈ TokenKind.keywords, x.2 ≠ .eof := by decide
  have hpair : ∀ x ∈ TokenKind.pairOperators, x.2 ≠ .eof := by decide
  have hchar : ∀ x ∈ TokenKind.charOperators, x.2 ≠ .eof := by decide
  unfold read
  split
  · simp [plain]
  · split
    · show TokenKind.ofWord _ ≠ .eof
      unfold TokenKind.ofWord
      cases h : TokenKind.keywords.lookup _ with
      | none => simp
      | some kind => exact hkeyword _ (TokenKind.mem_of_lookup h)
    · split
      · simp
      · unfold readSymbol
        split
        · next h =>
          rcases Option.bind_eq_some_iff.mp h with ⟨d, -, h'⟩
          rcases Option.map_eq_some_iff.mp h' with ⟨kind, hk, rfl⟩
          exact hpair _ (TokenKind.mem_of_lookup hk)
        · show (TokenKind.ofChar? c).getD .error ≠ .eof
          cases h : TokenKind.ofChar? c with
          | none => simp
          | some kind => exact hchar _ (TokenKind.mem_of_lookup h)

end Lexeme

/-! ### Places -/

namespace Place

theorem offset_next (p : Place) : p.next.offset = p.offset + min 1 p.rest.length := by
  unfold next
  split
  · simp [*]
  · split <;> simp [*]

theorem offset_advance (p : Place) (n : Nat) : (p.advance n).offset = p.offset + min n p.rest.length := by
  induction n generalizing p with
  | zero => simp [advance]
  | succ n ih =>
    rw [advance, ih, offset_next, rest_next, List.length_drop]
    omega

/-- The place stands in the text. -/
structure On (text : List Char) (p : Place) : Prop where
  rest : p.rest = text.drop p.offset
  le : p.offset ≤ text.length

theorem On.advance {text : List Char} {p : Place} (h : p.On text) (n : Nat) : (p.advance n).On text := by
  have hlen : p.rest.length = text.length - p.offset := by rw [h.rest, List.length_drop]
  have hle := h.le
  have hoff := p.offset_advance n
  refine ⟨?_, by omega⟩
  rw [rest_advance, h.rest, List.drop_drop, hoff]
  by_cases hn : n ≤ p.rest.length
  · rw [Nat.min_eq_left hn]
  · rw [List.drop_eq_nil_of_le (by omega), List.drop_eq_nil_of_le (by omega)]

theorem On.take_succ {text : List Char} {p : Place} (h : p.On text) {c : Char} {rest : List Char}
    (hrest : p.rest = c :: rest) : text.take (p.offset + 1) = text.take p.offset ++ [c] := by
  rw [List.take_add, ← h.rest, hrest]
  rfl

/-- What was passed between a place and a later one. -/
theorem On.slice_eq {text before after : List Char} {p : Place} (h : p.On text) (hrest : p.rest = before ++ after) :
    slice text p.offset (p.offset + before.length) = before := by
  rw [slice, ← h.rest, hrest, Nat.add_sub_cancel_left, List.take_left]

end Place

/-! ### Scanning -/

/-- The tokens cover the text from an index on, up to an end of the input where the text ends. -/
inductive Covers (text : List Char) : Nat → List Token → Prop where
  | stop {i : Nat} {t : Token} (hk : t.kind = .eof) (hl : t.lexeme = "") (ho : t.location.offset = text.length)
    (hi : i ≤ text.length) (hgap : Gap true (text.drop i)) : Covers text i [t]
  | token {i : Nat} {t : Token} {rest : List Token} (hk : t.kind ≠ .eof) (hl : t.lexeme ≠ "")
    (ho : t.location.offset = t.start) (hi : i ≤ t.start) (hgap : Gap false (slice text i t.start))
    (hslice : slice text t.start t.stop = t.lexeme.toList) (h : Covers text t.stop rest) : Covers text i (t :: rest)

theorem covers_finish {file : String} {text : List Char} {i : Nat} {p : Place} (hp : p.On text) (hi : i ≤ text.length)
    (hgap : Gap true (text.drop i)) (hend : p.rest = []) : Covers text i (Scan.finish file p).tokens := by
  have hlen := hp.le
  have hdrop := hp.rest.symm.trans hend
  rw [List.drop_eq_nil_iff] at hdrop
  refine .stop rfl rfl ?_ hi hgap
  exact congrArg Nat.cast (Nat.le_antisymm hlen hdrop)

/-- A token that was read stands where it was read, and the place after it follows. -/
theorem covers_cons {file : String} {text : List Char} {i : Nat} {p : Place} {r : Reading} {s : Scan} (hp : p.On text)
    (hi : i ≤ p.offset) (hgap : Gap false (slice text i p.offset)) (hr : p.read? file = some r)
    (h : Covers text r.after.offset s.tokens) : Covers text i (Scan.cons r s).tokens := by
  unfold Place.read? at hr
  split at hr
  · cases hr
  · next c rest hrest =>
    cases hr
    obtain ⟨after, hafter⟩ := Lexeme.prefix_read c rest
    have hne : (Lexeme.read c rest).text ≠ [] := List.ne_nil_of_length_pos (Lexeme.length_text_read c rest)
    have hstop : (p.advance (Lexeme.read c rest).text.length).offset = p.offset + (Lexeme.read c rest).text.length := by
      rw [Place.offset_advance, hrest, ← hafter, List.length_append]
      omega
    simp only [hstop] at h
    refine .token (Lexeme.kind_read_ne_eof c rest) ?_ rfl hi hgap ?_ ?_
    · simpa using hne
    · have := hp.slice_eq (hrest.trans hafter.symm)
      simpa [Token.stop, Token.start, Place.location] using this
    · simpa [Token.stop, Token.start, Place.location] using h

theorem covers_run {file : String} {text : List Char} {p : Place} (hp : p.On text) :
    Covers text p.offset (Scan.run file p).tokens := by
  induction hn : p.rest.length using Nat.strongRecOn generalizing p with
  | ind n ih =>
    obtain ⟨g, rest, hrest, hlen, hgap⟩ := Trivia.covered .outside p.rest
    have hq : p.skipTrivia.On text := hp.advance _
    have hqrest : p.skipTrivia.rest = rest := by
      rw [Place.skipTrivia, Place.rest_advance, Trivia.length, ← hlen, hrest, List.drop_left]
    have hoff : p.skipTrivia.offset = p.offset + g.length := by
      rw [Place.skipTrivia, Place.offset_advance, Trivia.length, ← hlen, hrest, List.length_append]
      omega
    have hslice : slice text p.offset p.skipTrivia.offset = g := hoff ▸ hp.slice_eq hrest
    rw [Scan.run]
    split
    · next h =>
      have hend : rest = [] := by
        unfold Place.read? at h
        split at h
        · next hempty => exact hqrest.symm.trans hempty
        · cases h
      rw [hend, List.append_nil] at hrest
      rw [hend] at hqrest hgap
      exact covers_finish hq hp.le (hp.rest ▸ hrest ▸ hgap) hqrest
    · next r h =>
      have hlt := Nat.lt_of_lt_of_le (Place.length_rest_read? h) p.length_rest_skipTrivia
      have hr : r.after.On text := by
        unfold Place.read? at h
        split at h
        · cases h
        · cases h
          exact hq.advance _
      have hfull : rest.isEmpty = false := by
        cases rest with
        | nil => simp [Place.read?, hqrest] at h
        | cons => rfl
      rw [hfull] at hgap
      exact covers_cons hq (hoff ▸ Nat.le_add_right _ _) (hslice ▸ hgap) h (ih _ (hn ▸ hlt) hr rfl)

/-! ### What it means to be covered -/

namespace Covers
variable {text : List Char} {i : Nat} {tokens : List Token}

theorem le_start (h : Covers text i tokens) : ∀ t ∈ tokens, i ≤ t.start := by
  induction h with
  | stop hk hl ho hi hgap =>
    intro u hu
    obtain rfl := List.mem_singleton.mp hu
    rw [Token.start, ho]
    exact hi
  | token hk hl ho hi hgap hslice h ih =>
    intro u hu
    rcases List.mem_cons.mp hu with rfl | hu
    · exact hi
    · exact Nat.le_trans hi (Nat.le_trans (Nat.le_add_right _ _) (ih u hu))

theorem offset_eq (h : Covers text i tokens) : ∀ t ∈ tokens, t.location.offset = t.start := by
  induction h with
  | stop hk hl ho hi hgap =>
    intro u hu
    obtain rfl := List.mem_singleton.mp hu
    rw [Token.start, ho]
    rfl
  | token hk hl ho hi hgap hslice h ih =>
    intro u hu
    rcases List.mem_cons.mp hu with rfl | hu
    · exact ho
    · exact ih u hu

theorem pairwise (h : Covers text i tokens) :
    tokens.Pairwise fun t u => t.location.offset < u.location.offset ∧ t.stop ≤ u.start := by
  induction h with
  | stop => exact List.pairwise_singleton _ _
  | @token i t rest hk hl ho hi hgap hslice h ih =>
    refine List.pairwise_cons.mpr ⟨fun u hu => ?_, ih⟩
    have hle := h.le_start u hu
    have hpos : t.start < t.stop := by
      have : t.lexeme.length ≠ 0 := fun h0 => hl (String.length_eq_zero_iff.mp h0)
      rw [Token.stop]
      omega
    refine ⟨?_, hle⟩
    rw [ho, h.offset_eq u hu]
    exact Int.ofNat_lt.mpr (Nat.lt_of_lt_of_le hpos hle)

theorem gaps_eq (h : Covers text i tokens) : ∃ inner last, Token.gaps text i tokens = inner ++ [last] ∧
    (∀ g ∈ inner, Gap false g) ∧ Gap true last := by
  induction h with
  | @stop i t hk hl ho hi hgap =>
    refine ⟨[], slice text i t.start, rfl, fun _ hg => (List.not_mem_nil hg).elim, ?_⟩
    have hall : slice text i t.start = text.drop i := by
      rw [slice, Token.start, ho]
      exact List.take_of_length_le (by simp)
    rw [hall]
    exact hgap
  | @token i t rest hk hl ho hi hgap hslice h ih =>
    obtain ⟨inner, last, heq, hinner, hlast⟩ := ih
    refine ⟨slice text i t.start :: inner, last, by rw [Token.gaps, heq, List.cons_append], ?_, hlast⟩
    exact List.forall_mem_cons.mpr ⟨hgap, hinner⟩

theorem rebuild_eq (h : Covers text i tokens) : Token.rebuild text i tokens = text.drop i := by
  induction h with
  | @stop i t hk hl ho hi hgap =>
    have hlen : text.length - i = (text.drop i).length := by rw [List.length_drop]
    simp only [Token.rebuild, slice, Token.start, ho, Int.toNat_natCast, hlen, List.take_length, hl]
    simp
  | @token i t rest hk hl ho hi hgap hslice h ih =>
    have hstart : text.drop t.start = t.lexeme.toList ++ text.drop t.stop := by
      rw [← hslice, slice, Token.stop, Nat.add_sub_cancel_left, ← List.drop_drop, List.take_append_drop]
    rw [Token.rebuild, ih, List.append_assoc, ← hstart, slice, ← Nat.add_sub_cancel' hi, ← List.drop_drop,
      Nat.add_sub_cancel' hi, List.take_append_drop]

theorem body_eq (h : Covers text i tokens) : ∃ (body : List Token) (stop : Token), tokens = body ++ [stop] ∧
    (stop.kind = .eof ∧ stop.lexeme = "" ∧ stop.location.offset = text.length) ∧
    ∀ t ∈ body, t.kind ≠ .eof ∧ t.lexeme ≠ "" ∧ t.location.offset = t.start ∧
      slice text t.start t.stop = t.lexeme.toList := by
  induction h with
  | @stop i t hk hl ho hi hgap => exact ⟨[], t, rfl, ⟨hk, hl, ho⟩, fun _ ht => (List.not_mem_nil ht).elim⟩
  | @token i t rest hk hl ho hi hgap hslice h ih =>
    obtain ⟨body, stop, rfl, hstop, hbody⟩ := ih
    exact ⟨t :: body, stop, rfl, hstop, List.forall_mem_cons.mpr ⟨⟨hk, hl, ho, hslice⟩, hbody⟩⟩

end Covers

/-- Scanning loses nothing. The last token is an end of the input, empty and behind the last character, and no other is.
    Every other token is a piece of the text and stands where it says; tokens come in order and do not overlap; what
    stands between them are blanks and comments, which are closed except in front of the last token; and gaps and tokens
    in turn are the text. -/
theorem tokens_lossless (s : Source) :
    (∃ (body : List Token) (stop : Token), s.tokens = body ++ [stop] ∧
      (stop.kind = .eof ∧ stop.lexeme = "" ∧ stop.location.offset = s.text.length) ∧
      ∀ t ∈ body, t.kind ≠ .eof ∧ t.lexeme ≠ "" ∧ t.location.offset = t.start ∧
        slice s.text.toList t.start t.stop = t.lexeme.toList) ∧
    (s.tokens.Pairwise fun t u => t.location.offset < u.location.offset ∧ t.stop ≤ u.start) ∧
    (∃ inner last, Token.gaps s.text.toList 0 s.tokens = inner ++ [last] ∧ (∀ g ∈ inner, Gap false g) ∧ Gap true last) ∧
    Token.rebuild s.text.toList 0 s.tokens = s.text.toList := by
  have h : Covers s.text.toList 0 s.tokens := covers_run (p := .start s.text.toList) ⟨rfl, Nat.zero_le _⟩
  exact ⟨h.body_eq, h.pairwise, h.gaps_eq, h.rebuild_eq⟩

/-- A block comment that is not closed ends the text: its opening does not close it. -/
example : (Source.mk "x" "a /*/").tokens.map (fun t => (t.lexeme, t.location.offset)) = [("a", 0), ("", 5)] := by cbv

end Curly
