import Curly.Token.Layout
import Curly.Token.Scan

/-! A text that is laid out from words is cut into these words. Main statement: `tokens_of_layout`. -/

namespace Curly

/-! ### Trivia -/

namespace Trivia

theorem lengthFrom_outside_cons {c : Char} {rest : List Char}
    (hc : c = '/' → rest.head? ≠ some '/' ∧ rest.head? ≠ some '*') :
    lengthFrom .outside (c :: rest) = if isBlank c then 1 + lengthFrom .outside rest else 0 := by
  rw [lengthFrom]
  · rintro r rfl rfl
    exact (hc rfl).1 rfl
  · rintro r rfl rfl
    exact (hc rfl).2 rfl

theorem lengthFrom_lineComment {body rest : List Char} (hb : '\n' ∉ body) :
    lengthFrom .lineComment (body ++ rest) = body.length + lengthFrom .lineComment rest := by
  induction body with
  | nil => simp
  | cons c body ih =>
    have hc : c ≠ '\n' := by
      rintro rfl
      exact hb List.mem_cons_self
    rw [List.cons_append, lengthFrom, if_neg hc, ih fun h => hb (List.mem_cons_of_mem _ h), List.length_cons]
    omega

/-- A block comment goes on as long as it is not closed. -/
theorem lengthFrom_blockComment {body rest : List Char} (hb : ¬['*', '/'] <:+: body)
    (hr : body.getLast? = some '*' → rest.head? ≠ some '/') :
    lengthFrom .blockComment (body ++ rest) = body.length + lengthFrom .blockComment rest := by
  induction body with
  | nil => simp
  | cons c body ih =>
    rw [List.infix_cons_iff, not_or] at hb
    have hopen : ∀ r, c = '*' → body ++ rest = '/' :: r → False := by
      rintro r rfl heq
      cases body with
      | nil => exact hr rfl (by rw [← List.nil_append rest, heq]; rfl)
      | cons d body =>
        cases heq
        exact hb.1 ⟨body, rfl⟩
    have hlast : body.getLast? = some '*' → rest.head? ≠ some '/' := by
      intro h
      refine hr ?_
      rw [List.getLast?_cons, h, Option.getD_some]
    rw [List.cons_append, lengthFrom, ih hb.2 hlast, List.length_cons]
    · omega
    · exact hopen

end Trivia

/-- Gaps are skipped as a whole. -/
theorem Gap.lengthFrom {final : Bool} {gap text : List Char} (h : Gap final gap) (hf : final → text = [])
    (ht : Trivia.length text = 0) : Trivia.length (gap ++ text) = gap.length := by
  unfold Trivia.length at ht ⊢
  induction h with
  | nil => exact ht
  | @blank c rest hc _ ih =>
    have hslash : c ≠ '/' := by
      rintro rfl
      cases hc
    rw [List.cons_append, Trivia.lengthFrom_outside_cons fun h => absurd h hslash, if_pos hc, ih, List.length_cons]
    omega
  | @lineComment body rest hb hr _ ih =>
    rw [List.cons_append, List.cons_append, List.append_assoc, Trivia.lengthFrom, Trivia.lengthFrom_lineComment hb]
    rcases hr with hr | ⟨hfinal, rfl⟩
    · rcases List.head?_eq_some_iff.mp hr with ⟨rest, rfl⟩
      have hnext : Trivia.lengthFrom .lineComment ('\n' :: rest ++ text) =
          Trivia.lengthFrom .outside ('\n' :: rest ++ text) := by
        rw [List.cons_append, Trivia.lengthFrom_outside_cons fun h => absurd h (by decide), Trivia.lengthFrom]
        rfl
      rw [hnext, ih]
      simp only [List.length_cons, List.length_append]
      omega
    · rw [hf hfinal]
      simp only [Trivia.lengthFrom, List.append_nil, List.length_cons]
      omega
  | @blockComment body rest hb _ ih =>
    rw [List.cons_append, List.cons_append, List.append_assoc, Trivia.lengthFrom,
      Trivia.lengthFrom_blockComment hb (by simp), List.cons_append, List.cons_append, Trivia.lengthFrom, ih]
    simp only [List.length_cons, List.length_append]
    omega
  | @unclosed body hfinal hb =>
    rw [hf hfinal, List.append_nil, Trivia.lengthFrom]
    have hlen : Trivia.lengthFrom .blockComment (body ++ []) = body.length + Trivia.lengthFrom .blockComment [] :=
      Trivia.lengthFrom_blockComment hb (by simp)
    rw [List.append_nil] at hlen
    rw [hlen]
    simp only [Trivia.lengthFrom, List.length_cons]
    omega

/-! ### Lexemes -/

namespace Lexeme

theorem stringRest_escape (value rest : List Char) :
    stringRest (escape value ++ '"' :: rest) = (escape value ++ ['"'], value) := by
  induction value with
  | nil => rfl
  | cons c value ih =>
    have hcons : escape (c :: value) = (if c = '"' ∨ c = '\\' then ['\\', c] else [c]) ++ escape value := rfl
    rw [hcons]
    by_cases hc : c = '"' ∨ c = '\\'
    · rw [if_pos hc]
      simp [stringRest, ih]
    · rw [if_neg hc]
      rw [not_or] at hc
      simp [stringRest, ih, hc]

theorem isDigit_of_isWordStart {c : Char} (h : isWordStart c) : c.isDigit = false := by
  rw [Bool.eq_false_iff]
  intro hdigit
  have hd : c.val ≤ '9'.val := of_decide_eq_true (Bool.and_eq_true_iff.mp hdigit).2
  rcases Bool.or_eq_true_iff.mp h with halpha | hunderscore
  · rcases Bool.or_eq_true_iff.mp halpha with hupper | hlower
    · have hle : 'A'.val ≤ c.val := (of_decide_eq_true hupper).1
      exact absurd (UInt32.le_trans hle hd) (by decide)
    · have hle : 'a'.val ≤ c.val := of_decide_eq_true (Bool.and_eq_true_iff.mp hlower).1
      exact absurd (UInt32.le_trans hle hd) (by decide)
  · obtain rfl := beq_iff_eq.mp hunderscore
    exact absurd hd (by decide)

theorem takeWhile_append {p : Char → Bool} {rest text : List Char} (h : ∀ c ∈ rest, p c)
    (ht : ∀ d ∈ text.head?, p d = false) : (rest ++ text).takeWhile p = rest := by
  rw [List.takeWhile_append_of_pos h]
  cases text with
  | nil => simp
  | cons d text => simp [ht d rfl]

/-- The first character of an operator of two characters begins nothing else. -/
theorem ofPair?_first {c d : Char} {kind : TokenKind} (h : TokenKind.ofPair? c d = some kind) :
    c.isDigit = false ∧ isWordStart c = false ∧ c ≠ '"' ∧ Trivia.isBlank c = false ∧ c ≠ '/' := by
  have hall : ∀ x ∈ TokenKind.pairOperators, x.1.1.isDigit = false ∧ isWordStart x.1.1 = false ∧ x.1.1 ≠ '"' ∧
      Trivia.isBlank x.1.1 = false ∧ x.1.1 ≠ '/' := by decide
  exact hall _ (TokenKind.mem_of_lookup h)

theorem ofChar?_first {c : Char} {kind : TokenKind} (h : TokenKind.ofChar? c = some kind) :
    c.isDigit = false ∧ isWordStart c = false ∧ c ≠ '"' ∧ Trivia.isBlank c = false := by
  have hall : ∀ x ∈ TokenKind.charOperators, x.1.isDigit = false ∧ isWordStart x.1 = false ∧ x.1 ≠ '"' ∧
      Trivia.isBlank x.1 = false := by decide
  exact hall _ (TokenKind.mem_of_lookup h)

theorem isBlank_eq_false {c : Char} (h : c.isDigit ∨ isWordStart c) : Trivia.isBlank c = false := by
  rw [Bool.eq_false_iff]
  intro hb
  simp only [Trivia.isBlank, Bool.or_eq_true, beq_iff_eq] at hb
  rcases hb with ((((rfl | rfl) | rfl) | rfl) | rfl) | rfl
  all_goals revert h; decide

theorem Proper.kind_ne_error {l : Lexeme} (h : l.Proper) : l.kind ≠ .error := by
  have hkeyword : ∀ x ∈ TokenKind.keywords, x.2 ≠ .error := by decide
  have hpair : ∀ x ∈ TokenKind.pairOperators, x.2 ≠ .error := by decide
  have hchar : ∀ x ∈ TokenKind.charOperators, x.2 ≠ .error := by decide
  cases h with
  | number | string => simp [plain]
  | @word c rest =>
    show TokenKind.ofWord _ ≠ .error
    unfold TokenKind.ofWord
    cases hk : TokenKind.keywords.lookup (String.ofList (c :: rest)) with
    | none => simp
    | some kind => exact hkeyword _ (TokenKind.mem_of_lookup hk)
  | pair h => exact hpair _ (TokenKind.mem_of_lookup h)
  | char h => exact hchar _ (TokenKind.mem_of_lookup h)

/-- A lexeme is read as a whole in front of what it does not go on with. -/
theorem Proper.read_append {l : Lexeme} (h : l.Proper) {c : Char} {rest text : List Char} (hl : l.text = c :: rest)
    (hj : ∀ d ∈ text.head?, joins l.text d = false) : read c (rest ++ text) = l := by
  cases h with
  | number hc h =>
    cases hl
    simp only [plain, joins, hc, ↓reduceIte] at hj
    rw [read, if_pos hc, takeWhile_append h hj]
  | word hc h =>
    cases hl
    have hdigit := isDigit_of_isWordStart hc
    simp only [plain, joins, hc, hdigit, ↓reduceIte, Bool.false_eq_true] at hj
    rw [read, if_neg (by simp [hdigit]), if_pos hc, takeWhile_append h hj]
  | string value =>
    cases hl
    rw [read, if_neg (by decide), if_neg (by decide), if_pos rfl, List.append_assoc, List.singleton_append,
      stringRest_escape]
  | pair h =>
    cases hl
    rcases ofPair?_first h with ⟨hdigit, hword, hquote, -, -⟩
    rw [read, if_neg (by simp [hdigit]), if_neg (by simp [hword]), if_neg hquote]
    simp [readSymbol, h]
  | char h =>
    cases hl
    rcases ofChar?_first h with ⟨hdigit, hword, hquote, -⟩
    simp only [plain, joins, hdigit, hword, hquote, ↓reduceIte, Bool.false_eq_true, List.isEmpty_nil, Bool.true_and,
      Bool.or_eq_false_iff] at hj
    rw [read, if_neg (by simp [hdigit]), if_neg (by simp [hword]), if_neg hquote, List.nil_append]
    unfold readSymbol
    cases text with
    | nil => simp [h]
    | cons d text =>
      have hnone : TokenKind.ofPair? c d = none := by simpa using (hj d rfl).1
      simp [h, hnone]

/-- A lexeme is no part of the trivia in front of it. -/
theorem Proper.trivia {l : Lexeme} (h : l.Proper) {text : List Char} (hj : ∀ d ∈ text.head?, joins l.text d = false) :
    Trivia.length (l.text ++ text) = 0 := by
  have hfirst : ∃ c rest, l.text = c :: rest ∧ Trivia.isBlank c = false ∧ (c = '/' → rest = []) := by
    cases h with
    | number hc =>
      refine ⟨_, _, rfl, isBlank_eq_false (.inl hc), ?_⟩
      rintro rfl
      cases hc
    | word hc =>
      refine ⟨_, _, rfl, isBlank_eq_false (.inr hc), ?_⟩
      rintro rfl
      cases hc
    | string value => exact ⟨_, _, rfl, rfl, fun h => absurd h (by decide)⟩
    | pair h => exact ⟨_, _, rfl, (ofPair?_first h).2.2.2.1, fun h' => absurd h' (ofPair?_first h).2.2.2.2⟩
    | char h => exact ⟨_, _, rfl, (ofChar?_first h).2.2.2, fun _ => rfl⟩
  rcases hfirst with ⟨c, rest, hl, hblank, hslash⟩
  rw [Trivia.length, hl, List.cons_append, Trivia.lengthFrom_outside_cons, if_neg (by simp [hblank])]
  rintro rfl
  rw [hl, hslash rfl] at hj
  rw [hslash rfl, List.nil_append]
  constructor
  all_goals
    intro h
    exact absurd (hj _ h) (by decide)

theorem Proper.ofWord {l : Lexeme} (h : l.Proper) {word : String} (hl : l.text = word.toList) : ofWord word = l := by
  unfold Lexeme.ofWord
  cases hw : word.toList with
  | nil =>
    rw [hw] at hl
    cases h <;> cases hl
  | cons c rest =>
    have hread : read c (rest ++ []) = l := h.read_append (hl.trans hw) (fun d hd => by cases hd)
    rwa [List.append_nil] at hread

end Lexeme

/-! ### Scanning -/

theorem read?_of_proper {file : String} {p : Place} {l : Lexeme} {text : List Char} (h : l.Proper)
    (hj : ∀ d ∈ text.head?, joins l.text d = false) (hp : p.rest = l.text ++ text) :
    ∃ r, p.read? file = some r ∧ r.token.lexemeOf = l ∧ r.warning = none ∧ r.after.rest = text := by
  unfold Place.read?
  cases hl : l.text with
  | nil => cases h <;> cases hl
  | cons c rest =>
    have hread := h.read_append hl hj
    rw [hl, List.cons_append] at hp
    rw [hp]
    refine ⟨_, rfl, ?_, ?_, ?_⟩
    · rw [hread]
      simp [Token.lexemeOf]
    · rw [hread, if_neg h.kind_ne_error]
    · rw [hread, Place.rest_advance, hp, ← List.cons_append, ← hl, List.drop_left]

theorem run_of_layout {file : String} {words : List String} {text : List Char} (h : Layout words text)
    (hw : ∀ w ∈ words, ∃ l : Lexeme, l.Proper ∧ l.text = w.toList) {p : Place} (hp : p.rest = text) :
    ∃ ts stop, (Scan.run file p).tokens = ts ++ [stop] ∧ stop.kind = .eof ∧
      ts.map Token.lexemeOf = words.map Lexeme.ofWord ∧ (Scan.run file p).warnings = [] := by
  induction h generalizing p with
  | @done gap hg =>
    have hlen : Trivia.length (gap ++ []) = gap.length := hg.lengthFrom (fun _ => rfl) rfl
    rw [List.append_nil] at hlen
    have hrest : p.skipTrivia.rest = [] := by
      rw [Place.skipTrivia, Place.rest_advance, hp, hlen, List.drop_length]
    have hread : p.skipTrivia.read? file = none := by
      unfold Place.read?
      rw [hrest]
    rw [Scan.run]
    split
    · exact ⟨[], _, rfl, rfl, rfl, rfl⟩
    · next r hr =>
      rw [hread] at hr
      cases hr
  | @word gap text word words hg hj _ ih =>
    rcases List.forall_mem_cons.mp hw with ⟨⟨l, hl, hword⟩, hwords⟩
    rw [← hword] at hj hp
    have hrest : p.skipTrivia.rest = l.text ++ text := by
      rw [Place.skipTrivia, Place.rest_advance, hp, hg.lengthFrom (fun h => by cases h) (hl.trivia hj), List.drop_left]
    rcases read?_of_proper hl hj hrest with ⟨r, hread, htoken, hwarning, hafter⟩
    rcases ih hwords hafter with ⟨ts, stop, hts, hstop, hmap, hwarnings⟩
    rw [Scan.run]
    split
    · next hnone =>
      rw [hread] at hnone
      cases hnone
    · next r' hr =>
      cases hread.symm.trans hr
      refine ⟨r.token :: ts, stop, ?_, hstop, ?_, ?_⟩
      · rw [Scan.cons, hts, List.cons_append]
      · rw [List.map_cons, List.map_cons, htoken, hmap, hl.ofWord hword]
      · rw [Scan.cons, hwarning, hwarnings]
        rfl

/-- The tokens of a text that is laid out from words are these words, and an end of the input. Nothing is warned of. -/
theorem tokens_of_layout {s : Source} {words : List String} (h : Layout words s.text.toList)
    (hw : ∀ w ∈ words, ∃ l : Lexeme, l.Proper ∧ l.text = w.toList) :
    ∃ ts stop, s.tokens = ts ++ [stop] ∧ stop.kind = .eof ∧ ts.map Token.lexemeOf = words.map Lexeme.ofWord ∧
      s.scan.warnings = [] :=
  run_of_layout h hw (p := .start s.text.toList) rfl

end Curly
