import Curly.Proofs.Token.Layout
import Curly.Proofs.Token.Lossless
import Curly.Token.Joined
import Mathlib.Data.List.TakeWhile

/-! What is read of a text does not depend on what stands further on. A lexeme is read the same way whatever follows it,
    provided that a blank comes next; only a string literal that is not closed takes all that follows. Main statements:
    `Lexeme.read_append`, `Lexeme.read_text`, `Scan.run_moved`. -/

namespace Curly

/-- No character comes next, or a blank. -/
def BlankNext (text : List Char) : Prop := ∀ d ∈ text.head?, Trivia.isBlank d

theorem blankNext_nil : BlankNext [] := fun _ h => by cases h

theorem blankNext_cons {c : Char} {text : List Char} (hc : Trivia.isBlank c) : BlankNext (c :: text) := by
  rintro _ ⟨⟩
  exact hc

/-! ### Lexemes -/

namespace Lexeme

/-! What is read depends on the class of the first character. -/

section
variable {c : Char} (rest : List Char)

theorem read_digit (hc : c.isDigit) : read c rest = plain .number (c :: rest.takeWhile Char.isDigit) := by
  rw [read, if_pos hc]

theorem read_word (hc : isWordStart c) : read c rest =
    plain (TokenKind.ofWord (String.ofList (c :: rest.takeWhile isWordPart))) (c :: rest.takeWhile isWordPart) := by
  rw [read, if_neg (by simp [isDigit_of_isWordStart hc]), if_pos hc]

theorem read_quote : read '"' rest = ⟨.stringLiteral, '"' :: (stringRest rest).1, (stringRest rest).2⟩ := by
  rw [read, if_neg (by decide), if_neg (by decide), if_pos rfl]

theorem read_symbol (hdigit : c.isDigit = false) (hword : isWordStart c = false) (hquote : c ≠ '"') :
    read c rest = readSymbol c rest := by
  rw [read, if_neg (by simp [hdigit]), if_neg (by simp [hword]), if_neg hquote]

end

theorem first_cases (c : Char) : c.isDigit ∨ isWordStart c ∨ c = '"' ∨
    c.isDigit = false ∧ isWordStart c = false ∧ c ≠ '"' := by
  cases c.isDigit with
  | true => exact .inl rfl
  | false =>
    cases isWordStart c with
    | true => exact .inr (.inl rfl)
    | false =>
      by_cases hquote : c = '"'
      · exact .inr (.inr (.inl hquote))
      · exact .inr (.inr (.inr ⟨rfl, rfl, hquote⟩))

/-- Blanks belong to no lexeme but a string literal. -/
theorem isBlank_other {d : Char} (h : Trivia.isBlank d) : d.isDigit = false ∧ isWordPart d = false ∧
    d ≠ '/' ∧ d ≠ '*' ∧ ∀ c, TokenKind.ofPair? c d = none := by
  have hpair : ∀ x ∈ TokenKind.pairOperators, Trivia.isBlank x.1.2 = false := by decide
  have hnone : ∀ c, TokenKind.ofPair? c d = none := by
    intro c
    rw [Option.eq_none_iff_forall_ne_some]
    intro kind hk
    simpa [h] using hpair _ (TokenKind.mem_of_lookup hk)
  simp only [Trivia.isBlank, Bool.or_eq_true, beq_iff_eq] at h
  refine ⟨?_, ?_, ?_, ?_, hnone⟩
  all_goals
    rcases h with ((((rfl | rfl) | rfl) | rfl) | rfl) | rfl
    all_goals decide

theorem takeWhile_append_of_next {p : Char → Bool} {text more : List Char} (hmore : ∀ d ∈ more.head?, p d = false) :
    (text ++ more).takeWhile p = text.takeWhile p := by
  rw [List.takeWhile_append]
  split
  · next hall =>
    have hnil : more.takeWhile p = [] := by
      cases more with
      | nil => rfl
      | cons d more => rw [List.takeWhile_cons_of_neg (by simp [hmore d rfl])]
    rw [hnil, List.append_nil]
    exact ((List.takeWhile_prefix p).eq_of_length hall).symm
  · rfl

theorem stringRest_cons {c : Char} (hquote : c ≠ '"') (hescape : c ≠ '\\') (rest : List Char) :
    stringRest (c :: rest) = (c :: (stringRest rest).1, c :: (stringRest rest).2) := by
  rw [stringRest]
  · exact hquote
  · exact fun h _ => hescape h
  · exact fun _ _ h _ => hescape h

theorem closes_cons {c : Char} (hquote : c ≠ '"') (hescape : c ≠ '\\') (rest : List Char) :
    closes (c :: rest) = closes rest := by
  rw [closes]
  · exact hquote
  · exact fun h _ => hescape h
  · exact fun _ _ h _ => hescape h

/-- The text of a string literal, up to its closing quote or the end of the input. -/
theorem literal_induction {P : List Char → Prop} (stop : P []) (quote : ∀ rest, P ('"' :: rest)) (lone : P ['\\'])
    (escape : ∀ c rest, P rest → P ('\\' :: c :: rest))
    (other : ∀ c rest, c ≠ '"' → c ≠ '\\' → P rest → P (c :: rest)) (text : List Char) : P text := by
  fun_induction closes text with
  | case1 => exact stop
  | case2 rest => exact quote rest
  | case3 => exact lone
  | case4 c rest ih => exact escape c rest ih
  | case5 c rest hquote hlone hescape ih =>
    refine other c rest hquote ?_ ih
    rintro rfl
    cases rest with
    | nil => exact hlone rfl rfl
    | cons d rest => exact hescape d rest rfl rfl

/-- A string literal that is closed ends at its closing quote. -/
theorem stringRest_append {text : List Char} (h : closes text) (more : List Char) :
    stringRest (text ++ more) = stringRest text := by
  induction text using literal_induction with
  | stop | lone => cases h
  | quote => rfl
  | escape c rest ih =>
    rw [closes] at h
    rw [List.cons_append, List.cons_append, stringRest, stringRest, ih h]
  | other c rest hquote hescape ih =>
    rw [closes_cons hquote hescape] at h
    rw [List.cons_append, stringRest_cons hquote hescape, stringRest_cons hquote hescape, ih h]

/-- A string literal that is not closed takes all that follows. -/
theorem stringRest_of_not_closes {text : List Char} (h : closes text = false) : (stringRest text).1 = text := by
  induction text using literal_induction with
  | stop | lone => rfl
  | quote => cases h
  | escape c rest ih =>
    rw [closes] at h
    simp only [stringRest, ih h]
  | other c rest hquote hescape ih =>
    rw [closes_cons hquote hescape] at h
    rw [stringRest_cons hquote hescape, ih h]

/-- What a string literal is, its own text tells. -/
theorem stringRest_text (text : List Char) :
    stringRest (stringRest text).1 = stringRest text ∧ closes (stringRest text).1 = closes text := by
  induction text using literal_induction with
  | stop | quote | lone => exact ⟨rfl, rfl⟩
  | escape c rest ih => simp only [stringRest, closes, ih, and_self]
  | other c rest hquote hescape ih =>
    simp only [stringRest_cons hquote hescape, closes_cons hquote hescape, ih, and_self]

theorem readSymbol_append {more : List Char} (hmore : BlankNext more) (c : Char) (rest : List Char) :
    readSymbol c (rest ++ more) = readSymbol c rest := by
  unfold readSymbol
  cases rest with
  | cons d rest => rfl
  | nil =>
    cases more with
    | nil => rfl
    | cons d more => simp [(isBlank_other (hmore d rfl)).2.2.2.2 c]

/-- A lexeme is read the same way in front of blanks, unless it is a string literal that is not closed. -/
theorem read_append {c : Char} {rest more : List Char} (hmore : BlankNext more)
    (hclosed : c = '"' → closes rest = false → more = []) : read c (rest ++ more) = read c rest := by
  rcases first_cases c with hdigit | hword | rfl | ⟨hdigit, hword, hquote⟩
  · have hstop : ∀ d ∈ more.head?, d.isDigit = false := fun d hd => (isBlank_other (hmore d hd)).1
    rw [read_digit _ hdigit, read_digit _ hdigit, takeWhile_append_of_next hstop]
  · have hstop : ∀ d ∈ more.head?, isWordPart d = false := fun d hd => (isBlank_other (hmore d hd)).2.1
    rw [read_word _ hword, read_word _ hword, takeWhile_append_of_next hstop]
  · cases hcloses : closes rest with
    | true => rw [read_quote, read_quote, stringRest_append hcloses]
    | false => rw [hclosed rfl hcloses, List.append_nil]
  · rw [read_symbol _ hdigit hword hquote, read_symbol _ hdigit hword hquote, readSymbol_append hmore]

theorem readSymbol_text {c : Char} {rest tail : List Char} (h : (readSymbol c rest).text = c :: tail) :
    readSymbol c tail = readSymbol c rest := by
  cases rest with
  | nil =>
    obtain rfl : [] = tail := (List.cons.inj h).2
    rfl
  | cons d rest =>
    cases hpair : TokenKind.ofPair? c d with
    | none =>
      have hsymbol : readSymbol c (d :: rest) = readSymbol c [] := by simp [readSymbol, hpair]
      rw [hsymbol] at h ⊢
      obtain rfl : [] = tail := (List.cons.inj h).2
      rfl
    | some kind =>
      have hsymbol : ∀ more, readSymbol c (d :: more) = plain kind [c, d] := fun more => by simp [readSymbol, hpair]
      rw [hsymbol] at h
      obtain rfl : [d] = tail := (List.cons.inj h).2
      rw [hsymbol, hsymbol]

/-- What a lexeme is, its own text tells. -/
theorem read_text {c : Char} {rest tail : List Char} (h : (read c rest).text = c :: tail) :
    read c tail = read c rest := by
  rcases first_cases c with hdigit | hword | rfl | ⟨hdigit, hword, hquote⟩
  · rw [read_digit _ hdigit] at h ⊢
    obtain rfl := (List.cons.inj h).2
    rw [read_digit _ hdigit, List.takeWhile_idem]
  · rw [read_word _ hword] at h ⊢
    obtain rfl := (List.cons.inj h).2
    rw [read_word _ hword, List.takeWhile_idem]
  · rw [read_quote] at h ⊢
    obtain rfl := (List.cons.inj h).2
    rw [read_quote, (stringRest_text rest).1]
  · rw [read_symbol _ hdigit hword hquote] at h ⊢
    rw [read_symbol _ hdigit hword hquote, readSymbol_text h]

/-- The text of a lexeme begins where it was read. -/
theorem exists_text_read (c : Char) (rest : List Char) : ∃ tail after, (read c rest).text = c :: tail ∧
    rest = tail ++ after := by
  obtain ⟨after, hafter⟩ := prefix_read c rest
  cases htext : (read c rest).text with
  | nil => simpa [htext] using length_text_read c rest
  | cons d tail =>
    rw [htext] at hafter
    obtain ⟨rfl, rfl⟩ := List.cons.inj hafter
    exact ⟨tail, after, rfl, rfl⟩

end Lexeme

/-! ### Trivia -/

namespace Trivia

/-- Neither a blank nor a comment stands at the head of the text. -/
theorem length_cons_eq_zero {c : Char} {rest : List Char} : length (c :: rest) = 0 ↔
    isBlank c = false ∧ (c = '/' → rest.head? ≠ some '/' ∧ rest.head? ≠ some '*') := by
  unfold length
  by_cases hc : c = '/' → rest.head? ≠ some '/' ∧ rest.head? ≠ some '*'
  · rw [lengthFrom_outside_cons hc, and_iff_left hc]
    cases isBlank c <;> simp
  · simp only [hc, and_false, iff_false]
    rw [Classical.not_imp] at hc
    obtain ⟨rfl, hrest⟩ := hc
    rw [← not_or, Classical.not_not] at hrest
    rcases hrest with hrest | hrest
    all_goals
      obtain ⟨rest, rfl⟩ := List.head?_eq_some_iff.mp hrest
      rw [lengthFrom]
      omega

/-- Behind the trivia at the head of a text stand no more. -/
theorem lengthFrom_drop (mode : Mode) (text : List Char) : length (text.drop (lengthFrom mode text)) = 0 := by
  fun_induction lengthFrom mode text with
  | case1 => rfl
  | case2 rest ih | case3 rest ih | case7 rest ih => rwa [Nat.add_comm]
  | case4 c rest _ _ _ ih | case6 c rest ih | case8 c rest _ ih => rwa [Nat.add_comm]
  | case5 c rest hline hblock hc =>
    rw [List.drop_zero, length_cons_eq_zero]
    refine ⟨by simpa using hc, fun hslash => ⟨fun h => ?_, fun h => ?_⟩⟩
    · obtain ⟨rest, rfl⟩ := List.head?_eq_some_iff.mp h
      exact hline _ hslash rfl
    · obtain ⟨rest, rfl⟩ := List.head?_eq_some_iff.mp h
      exact hblock _ hslash rfl

/-- A text is the trivia at its head and what follows them, where no more begin. -/
theorem exists_gap (text : List Char) : ∃ gap rest, text = gap ++ rest ∧ length text = gap.length ∧ length rest = 0 ∧
    Gap rest.isEmpty gap := by
  obtain ⟨gap, rest, htext, hlength, hgap⟩ := covered .outside text
  have hrest : length (text.drop (lengthFrom .outside text)) = 0 := lengthFrom_drop .outside text
  rw [← hlength, htext, List.drop_left] at hrest
  exact ⟨gap, rest, htext, hlength.symm, hrest, hgap⟩

/-- What begins no trivia, begins none in front of blanks. -/
theorem length_cons_append {c : Char} {rest more : List Char} (h : length (c :: rest) = 0) (hmore : BlankNext more) :
    length (c :: (rest ++ more)) = 0 := by
  rw [length_cons_eq_zero] at h ⊢
  refine ⟨h.1, fun hc => ?_⟩
  cases rest with
  | cons d rest => exact h.2 hc
  | nil =>
    refine ⟨fun hd => ?_, fun hd => ?_⟩
    · exact (Lexeme.isBlank_other (hmore _ hd)).2.2.1 rfl
    · exact (Lexeme.isBlank_other (hmore _ hd)).2.2.2.1 rfl

/-- Trivia that end before the text does are the same in front of blanks. -/
theorem length_append {text more : List Char} (h : length text < text.length) (hmore : BlankNext more) :
    length (text ++ more) = length text := by
  obtain ⟨gap, rest, rfl, hlength, hrest, hgap⟩ := exists_gap text
  cases rest with
  | nil =>
    rw [List.append_nil] at h hlength
    omega
  | cons c rest =>
    have hzero : length (c :: rest ++ more) = 0 := length_cons_append hrest hmore
    rw [List.append_assoc, hgap.lengthFrom (fun h => by cases h) hzero, hlength]

end Trivia

theorem Gap.append {final : Bool} {gap more : List Char} (h : Gap false gap) (hmore : Gap final more) :
    Gap final (gap ++ more) := by
  induction h with
  | nil => exact hmore
  | blank hc _ ih => exact .blank hc ih
  | @lineComment body rest hb hr _ ih =>
    have hnext : (rest ++ more).head? = some '\n' := by
      obtain ⟨rest, rfl⟩ := List.head?_eq_some_iff.mp (hr.resolve_right fun h => by cases h.1)
      rfl
    simpa using Gap.lineComment hb (.inl hnext) ih
  | blockComment hb _ ih => simpa using Gap.blockComment hb ih
  | unclosed hf => cases hf

/-- At the end of a text, all that a line feed does not close is a block comment. -/
theorem Gap.closed_or_unclosed {gap : List Char} (h : Gap true gap) :
    Gap false (gap ++ ['\n']) ∨ Gap.Unclosed gap := by
  induction h with
  | nil => exact .inl (.blank rfl .nil)
  | @blank c rest hc _ ih =>
    rcases ih with h | ⟨before, body, rfl, hbefore, hb⟩
    · exact .inl (.blank hc h)
    · exact .inr ⟨c :: before, body, rfl, .blank hc hbefore, hb⟩
  | @lineComment body rest hb hr _ ih =>
    rcases hr with hr | ⟨-, rfl⟩
    · rcases ih with h | ⟨before, body', rfl, hbefore, hb'⟩
      · have hnext : (rest ++ ['\n']).head? = some '\n' := by rw [List.head?_append, hr, Option.some_or]
        exact .inl (by simpa using Gap.lineComment hb (.inl hnext) h)
      · have hnext : before.head? = some '\n' := by
          cases before with
          | nil => cases hr
          | cons => exact hr
        exact .inr ⟨'/' :: '/' :: (body ++ before), body', by simp, .lineComment hb (.inl hnext) hbefore, hb'⟩
    · have hnext : Gap false ['\n'] := .blank rfl .nil
      exact .inl (by simpa using Gap.lineComment hb (.inl rfl) hnext)
  | @blockComment body rest hb _ ih =>
    rcases ih with h | ⟨before, body', rfl, hbefore, hb'⟩
    · exact .inl (by simpa using Gap.blockComment hb h)
    · exact .inr ⟨'/' :: '*' :: (body ++ '*' :: '/' :: before), body', by simp, .blockComment hb hbefore, hb'⟩
  | unclosed _ hb => exact .inr ⟨[], _, rfl, .nil, hb⟩

/-! ### Places -/

namespace Place
variable (p : Place) {text : List Char}

/-- Where characters of the same text come next, a place has lines and characters in front of it. -/
def moved (lines chars : Nat) : Place := { p with line := p.line + lines, offset := p.offset + chars }

/-- The same place in a text that goes on. -/
def followedBy (text : List Char) : Place := { p with rest := p.rest ++ text }

theorem advance_add (m n : Nat) : p.advance (m + n) = (p.advance m).advance n := by
  induction m generalizing p with
  | zero => rw [Nat.zero_add, advance]
  | succ m ih => rw [Nat.succ_add, advance, advance, ih]

theorem next_moved (lines chars : Nat) : (p.moved lines chars).next = p.next.moved lines chars := by
  obtain ⟨rest, line, column, offset⟩ := p
  cases rest with
  | nil => rfl
  | cons c rest =>
    by_cases hc : c = '\n'
    · simp [next, moved, hc, Nat.add_right_comm]
    · simp [next, moved, hc, Nat.add_right_comm]

theorem advance_moved (lines chars n : Nat) : (p.moved lines chars).advance n = (p.advance n).moved lines chars := by
  induction n generalizing p with
  | zero => rfl
  | succ n ih => rw [advance, next_moved, ih, advance]

theorem skipTrivia_moved (lines chars : Nat) : (p.moved lines chars).skipTrivia = p.skipTrivia.moved lines chars :=
  p.advance_moved lines chars _

theorem advance_followedBy {n : Nat} (h : n ≤ p.rest.length) :
    (p.followedBy text).advance n = (p.advance n).followedBy text := by
  induction n generalizing p with
  | zero => rfl
  | succ n ih =>
    obtain ⟨c, rest, hrest⟩ := List.exists_cons_of_length_pos (Nat.lt_of_lt_of_le n.succ_pos h)
    have hnext : (p.followedBy text).next = p.next.followedBy text := by
      simp only [next, followedBy, hrest, List.cons_append]
      split <;> rfl
    rw [advance, hnext, ih, advance]
    rw [rest_next, List.length_drop]
    omega

/-- Only line feeds begin new lines. -/
theorem line_advance (n : Nat) : (p.advance n).line = p.line + (p.rest.take n).count '\n' := by
  induction n generalizing p with
  | zero => simp [advance]
  | succ n ih =>
    rw [advance, ih]
    obtain ⟨rest, line, column, offset⟩ := p
    cases rest with
    | nil => simp [next]
    | cons c rest =>
      by_cases hc : c = '\n'
      · simp [next, hc, Nat.add_right_comm, Nat.add_assoc]
      · simp [next, hc]

end Place

/-! ### Scanning -/

/-- What is read where the text goes on. -/
def Reading.at (file : String) (p : Place) (c : Char) (rest : List Char) : Reading where
  token :=
    ⟨(Lexeme.read c rest).kind, String.ofList (Lexeme.read c rest).text, String.ofList (Lexeme.read c rest).value,
      p.location file⟩
  warning := if (Lexeme.read c rest).kind = .error then some (.invalidCharacter c (p.location file)) else none
  after := p.advance (Lexeme.read c rest).text.length

theorem Place.read?_nil {file : String} {p : Place} (h : p.rest = []) : p.read? file = none := by
  rw [Place.read?, h]

theorem Place.read?_cons {file : String} {p : Place} {c : Char} {rest : List Char} (h : p.rest = c :: rest) :
    p.read? file = some (.at file p c rest) := by
  rw [Place.read?, h]
  rfl

namespace Scan
variable {file : String} {p : Place}

theorem run_stop (h : p.skipTrivia.rest = []) : run file p = finish file p.skipTrivia := by
  have hread : p.skipTrivia.read? file = none := Place.read?_nil h
  rw [run]
  split
  · rfl
  · next r hr => cases hread.symm.trans hr

theorem run_token {c : Char} {rest : List Char} (h : p.skipTrivia.rest = c :: rest) :
    run file p = cons (.at file p.skipTrivia c rest) (run file (Reading.at file p.skipTrivia c rest).after) := by
  have hread : p.skipTrivia.read? file = some (.at file p.skipTrivia c rest) := Place.read?_cons h
  rw [run]
  split
  · next hnone => cases hread.symm.trans hnone
  · next r hr =>
    cases hread.symm.trans hr
    rfl

theorem filter_cons {c : Char} {rest : List Char} {s : Scan} :
    (cons (.at file p c rest) s).tokens.filter (·.kind != .eof) =
      (Reading.at file p c rest).token :: s.tokens.filter (·.kind != .eof) := by
  have hk : (Lexeme.read c rest).kind ≠ .eof := Lexeme.kind_read_ne_eof c rest
  simp [cons, Reading.at, hk]

/-- At each place either the text ends behind blanks and comments, or a token is read and what follows it is scanned. -/
theorem induction {P : Place → Prop} (stop : ∀ p, p.skipTrivia.rest = [] → P p)
    (token : ∀ p c rest, p.skipTrivia.rest = c :: rest →
      P (p.skipTrivia.advance (Lexeme.read c rest).text.length) → P p) (p : Place) : P p := by
  induction hn : p.rest.length using Nat.strongRecOn generalizing p with
  | ind n ih =>
    cases h : p.skipTrivia.rest with
    | nil => exact stop p h
    | cons c rest =>
      refine token p c rest h (ih _ ?_ _ rfl)
      have hle := p.length_rest_skipTrivia
      have hpos := Lexeme.length_text_read c rest
      rw [h, List.length_cons] at hle
      rw [Place.rest_advance, h, List.length_drop, List.length_cons]
      omega

/-- Every token but the end of the input is read at a place further on where no trivia stand. -/
theorem exists_advance (file : String) (p : Place) : ∀ t ∈ (run file p).tokens, t.kind ≠ .eof → ∃ n c rest,
    (p.advance n).rest = c :: rest ∧ Trivia.length (c :: rest) = 0 ∧
      t = (Reading.at file (p.advance n) c rest).token := by
  induction p using Scan.induction with
  | stop p h =>
    rw [run_stop h]
    intro t ht hk
    obtain rfl := List.mem_singleton.mp ht
    exact absurd rfl hk
  | token p c rest h ih =>
    rw [run_token h]
    intro t ht hk
    rcases List.mem_cons.mp ht with rfl | ht
    · refine ⟨Trivia.length p.rest, c, rest, h, ?_, rfl⟩
      rw [← h, Place.skipTrivia, Place.rest_advance]
      exact Trivia.lengthFrom_drop .outside _
    · obtain ⟨n, d, more, hrest, htrivia, rfl⟩ := ih t ht hk
      rw [Place.skipTrivia, ← Place.advance_add, ← Place.advance_add] at hrest ⊢
      exact ⟨_, d, more, hrest, htrivia, rfl⟩

theorem exists_reading (s : Source) : ∀ t ∈ s.tokens, t.kind ≠ .eof → ∃ p c rest,
    s.text.toList.drop p.offset = c :: rest ∧ Trivia.length (c :: rest) = 0 ∧
      t = (Reading.at s.file p c rest).token := by
  intro t ht hk
  obtain ⟨n, c, rest, hrest, htrivia, rfl⟩ := exists_advance s.file _ t ht hk
  have hon : ((Place.start s.text.toList).advance n).On s.text.toList := Place.On.advance ⟨rfl, Nat.zero_le _⟩ n
  exact ⟨_, c, rest, hon.rest.symm.trans hrest, htrivia, rfl⟩

/-- What was scanned, with lines and characters in front of it. -/
def moved (lines chars : Nat) (s : Scan) : Scan :=
  ⟨s.tokens.map (Token.moved lines chars), s.warnings.map (Diagnostic.moved lines chars), s.stop.moved lines chars⟩

theorem finish_moved (file : String) (lines chars : Nat) (p : Place) :
    finish file (p.moved lines chars) = (finish file p).moved lines chars := rfl

theorem cons_moved {lines chars : Nat} {c : Char} {rest : List Char} {s : Scan} :
    cons (.at file (p.moved lines chars) c rest) (s.moved lines chars) =
      (cons (.at file p c rest) s).moved lines chars := by
  by_cases hk : (Lexeme.read c rest).kind = .error
  · simp only [cons, moved, Reading.at, hk, ↓reduceIte]
    rfl
  · simp only [cons, moved, Reading.at, hk, ↓reduceIte]
    rfl

/-- Lines and characters in front of a place move all that is scanned from there on. -/
theorem run_moved (file : String) (lines chars : Nat) (p : Place) :
    run file (p.moved lines chars) = (run file p).moved lines chars := by
  induction p using Scan.induction with
  | stop p h =>
    have h' : (p.moved lines chars).skipTrivia.rest = [] := by rw [Place.skipTrivia_moved]; exact h
    rw [run_stop h, run_stop h', Place.skipTrivia_moved, finish_moved]
  | token p c rest h ih =>
    have h' : (p.moved lines chars).skipTrivia.rest = c :: rest := by rw [Place.skipTrivia_moved]; exact h
    have hafter : (Reading.at file (p.skipTrivia.moved lines chars) c rest).after =
        (Reading.at file p.skipTrivia c rest).after.moved lines chars := Place.advance_moved _ _ _ _
    have hrun : run file ((Reading.at file p.skipTrivia c rest).after.moved lines chars) =
        (run file (Reading.at file p.skipTrivia c rest).after).moved lines chars := ih
    rw [run_token h, run_token h', Place.skipTrivia_moved, hafter, hrun, cons_moved]

end Scan

end Curly
