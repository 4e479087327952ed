import Curly.Proofs.Token.Locality
import Mathlib.Tactic.SplitIfs

/-! Which token is read at a place, the characters there tell. A number or a word goes on as long as it can, and what two
    characters mean together goes before what the first means alone: for operators of two characters, and for comments.
    Main statement: `tokens_munched`. -/

namespace Curly

/-- The longest run of a class of characters at the head of a text. -/
structure LongestRun (p : Char → Bool) (text run : List Char) : Prop where
  head : run <+: text
  all : ∀ c ∈ run, p c
  longest : ∀ other, other <+: text → (∀ c ∈ other, p c) → other.length ≤ run.length

theorem longestRun_takeWhile (p : Char → Bool) (text : List Char) : LongestRun p text (text.takeWhile p) := by
  refine ⟨List.takeWhile_prefix p, fun c hc => List.mem_takeWhile_imp hc, ?_⟩
  rintro other ⟨more, rfl⟩ hall
  rw [List.takeWhile_append_of_pos hall, List.length_append]
  exact Nat.le_add_right _ _

/-! ### Classes of lexemes -/

namespace TokenKind

/-- Identifiers and keywords. -/
def isWord (kind : TokenKind) : Bool := kind == .identifier || keywords.any (·.2 == kind)

/-- Operators of two characters. -/
def isPair (kind : TokenKind) : Bool := pairOperators.any (·.2 == kind)

/-- Operators and punctuation of one character. -/
def isChar (kind : TokenKind) : Bool := charOperators.any (·.2 == kind)

/-- The operator of two characters at the head of a text. -/
def pairAt? : List Char → Option TokenKind
  | c :: d :: _ => ofPair? c d
  | _ => none

theorem exists_of_pairAt? {c : Char} {rest : List Char} {kind : TokenKind} (h : pairAt? (c :: rest) = some kind) :
    ∃ d more, rest = d :: more ∧ ofPair? c d = some kind := by
  cases rest with
  | nil => cases h
  | cons d more => exact ⟨d, more, rfl, h⟩

theorem pairAt?_first {c : Char} {rest : List Char} (h : (pairAt? (c :: rest)).isSome) :
    c.isDigit = false ∧ Lexeme.isWordStart c = false ∧ c ≠ '"' := by
  obtain ⟨kind, hkind⟩ := Option.isSome_iff_exists.mp h
  obtain ⟨d, more, rfl, hpair⟩ := exists_of_pairAt? hkind
  obtain ⟨hdigit, hword, hquote, -⟩ := Lexeme.ofPair?_first hpair
  exact ⟨hdigit, hword, hquote⟩

end TokenKind

namespace Lexeme

/-- A lexeme belongs to one of these classes. -/
inductive Class where
  | number | word | string | pair | char | error
deriving DecidableEq

namespace Class

/-- The class of a kind. An end of the input belongs to none. -/
def ofKind? (kind : TokenKind) : Option Class :=
  match kind with
  | .eof => none
  | .error => some .error
  | .number => some .number
  | .stringLiteral => some .string
  | kind => if kind.isPair then some .pair else if kind.isChar then some .char else some .word

/-- The class of the lexeme at the head of the text `c :: rest`. -/
def ofText (c : Char) (rest : List Char) : Class :=
  if c.isDigit then .number
  else if isWordStart c then .word
  else if c = '"' then .string
  else if (TokenKind.pairAt? (c :: rest)).isSome then .pair
  else if (TokenKind.ofChar? c).isSome then .char
  else .error

section
variable {kind : TokenKind}

theorem ofKind?_number : ofKind? kind = some .number ↔ kind = .number := by cases kind <;> decide

theorem ofKind?_word : ofKind? kind = some .word ↔ kind.isWord := by cases kind <;> decide

theorem ofKind?_string : ofKind? kind = some .string ↔ kind = .stringLiteral := by cases kind <;> decide

theorem ofKind?_pair : ofKind? kind = some .pair ↔ kind.isPair := by cases kind <;> decide

theorem ofKind?_char : ofKind? kind = some .char ↔ kind.isChar := by cases kind <;> decide

theorem ofKind?_error : ofKind? kind = some .error ↔ kind = .error := by cases kind <;> decide

end

section
variable {c : Char} {rest : List Char}

theorem ofText_number : ofText c rest = .number ↔ c.isDigit := by
  unfold ofText
  split_ifs <;> simp_all

theorem ofText_word : ofText c rest = .word ↔ isWordStart c := by
  have hdigit : isWordStart c → c.isDigit = false := isDigit_of_isWordStart
  unfold ofText
  split_ifs <;> simp_all

theorem ofText_string : ofText c rest = .string ↔ c = '"' := by
  refine ⟨fun h => ?_, ?_⟩
  · unfold ofText at h
    split_ifs at h
    assumption
  · rintro rfl
    rfl

theorem ofText_pair : ofText c rest = .pair ↔ (TokenKind.pairAt? (c :: rest)).isSome := by
  refine ⟨fun h => ?_, fun h => ?_⟩
  · unfold ofText at h
    split_ifs at h
    assumption
  · obtain ⟨hdigit, hword, hquote⟩ := TokenKind.pairAt?_first h
    simp [ofText, hdigit, hword, hquote, h]

theorem ofText_char : ofText c rest = .char ↔
    TokenKind.pairAt? (c :: rest) = none ∧ (TokenKind.ofChar? c).isSome := by
  refine ⟨fun h => ?_, fun ⟨hpair, hchar⟩ => ?_⟩
  · unfold ofText at h
    split_ifs at h with hdigit hword hquote hpair hchar
    exact ⟨by simpa using hpair, hchar⟩
  · obtain ⟨kind, hkind⟩ := Option.isSome_iff_exists.mp hchar
    obtain ⟨hdigit, hword, hquote, -⟩ := ofChar?_first hkind
    simp [ofText, hdigit, hword, hquote, hpair, hchar]

theorem ofText_error : ofText c rest = .error ↔ c.isDigit = false ∧ isWordStart c = false ∧ c ≠ '"' ∧
    TokenKind.pairAt? (c :: rest) = none ∧ TokenKind.ofChar? c = none := by
  refine ⟨fun h => ?_, fun ⟨hdigit, hword, hquote, hpair, hchar⟩ => ?_⟩
  · unfold ofText at h
    split_ifs at h with hdigit hword hquote hpair hchar
    simp only [Bool.not_eq_true, Option.isSome_eq_false_iff, Option.isNone_iff_eq_none] at hdigit hword hpair hchar
    exact ⟨hdigit, hword, hquote, hpair, hchar⟩
  · simp [ofText, hdigit, hword, hquote, hpair, hchar]

end

end Class

/-! ### Reading -/

section
variable {c : Char} {rest : List Char} {kind : TokenKind}

theorem longestRun_digits (hc : c.isDigit) : LongestRun Char.isDigit (c :: rest) (read c rest).text := by
  rw [read_digit rest hc]
  show LongestRun _ _ (c :: rest.takeWhile Char.isDigit)
  rw [← List.takeWhile_cons_of_pos hc]
  exact longestRun_takeWhile _ _

theorem longestRun_word (hc : isWordStart c) : LongestRun isWordPart (c :: rest) (read c rest).text := by
  have hpart : isWordPart c := by
    simp only [isWordStart, isWordPart, Char.isAlphanum, Bool.or_eq_true] at hc ⊢
    exact hc.imp_left .inl
  rw [read_word rest hc]
  show LongestRun _ _ (c :: rest.takeWhile isWordPart)
  rw [← List.takeWhile_cons_of_pos hpart]
  exact longestRun_takeWhile _ _

theorem read_pair (h : TokenKind.pairAt? (c :: rest) = some kind) : read c rest = plain kind ((c :: rest).take 2) := by
  have hsome : (TokenKind.pairAt? (c :: rest)).isSome := by rw [h, Option.isSome_some]
  obtain ⟨hdigit, hword, hquote⟩ := TokenKind.pairAt?_first hsome
  obtain ⟨d, more, rfl, hpair⟩ := TokenKind.exists_of_pairAt? h
  rw [read_symbol _ hdigit hword hquote]
  simp [readSymbol, hpair]

theorem readSymbol_single (h : TokenKind.pairAt? (c :: rest) = none) :
    readSymbol c rest = plain ((TokenKind.ofChar? c).getD .error) [c] := by
  cases rest with
  | nil => rfl
  | cons d rest =>
    rw [TokenKind.pairAt?] at h
    simp [readSymbol, h]

theorem read_char (h : TokenKind.pairAt? (c :: rest) = none) (hc : TokenKind.ofChar? c = some kind) :
    read c rest = plain kind [c] := by
  obtain ⟨hdigit, hword, hquote, -⟩ := ofChar?_first hc
  rw [read_symbol rest hdigit hword hquote, readSymbol_single h, hc, Option.getD_some]

theorem read_error (h : Class.ofText c rest = .error) : read c rest = plain .error [c] := by
  obtain ⟨hdigit, hword, hquote, hpair, hchar⟩ := Class.ofText_error.mp h
  rw [read_symbol rest hdigit hword hquote, readSymbol_single hpair, hchar, Option.getD_none]

end

/-- The kind of what is read and the characters there are of one class. -/
theorem ofKind?_read (c : Char) (rest : List Char) : Class.ofKind? (read c rest).kind = some (.ofText c rest) := by
  have hkeyword : ∀ x ∈ TokenKind.keywords, Class.ofKind? x.2 = some .word := by decide
  have hpair : ∀ x ∈ TokenKind.pairOperators, Class.ofKind? x.2 = some .pair := by decide
  have hchar : ∀ x ∈ TokenKind.charOperators, Class.ofKind? x.2 = some .char := by decide
  cases hclass : Class.ofText c rest with
  | number =>
    rw [read_digit rest (Class.ofText_number.mp hclass)]
    rfl
  | word =>
    rw [read_word rest (Class.ofText_word.mp hclass)]
    show Class.ofKind? (TokenKind.ofWord _) = _
    unfold TokenKind.ofWord
    cases h : TokenKind.keywords.lookup _ with
    | none => rfl
    | some kind => exact hkeyword _ (TokenKind.mem_of_lookup h)
  | string =>
    obtain rfl := Class.ofText_string.mp hclass
    rw [read_quote]
    rfl
  | pair =>
    obtain ⟨kind, hkind⟩ := Option.isSome_iff_exists.mp (Class.ofText_pair.mp hclass)
    obtain ⟨d, more, rfl, hlookup⟩ := TokenKind.exists_of_pairAt? hkind
    rw [read_pair hkind]
    exact hpair _ (TokenKind.mem_of_lookup hlookup)
  | char =>
    obtain ⟨hnone, hsome⟩ := Class.ofText_char.mp hclass
    obtain ⟨kind, hkind⟩ := Option.isSome_iff_exists.mp hsome
    rw [read_char hnone hkind]
    exact hchar _ (TokenKind.mem_of_lookup hkind)
  | error =>
    rw [read_error hclass]
    rfl

section
variable {c : Char} {rest : List Char}

theorem kind_read_number : (read c rest).kind = .number ↔ c.isDigit := by
  rw [← Class.ofKind?_number, ofKind?_read, Option.some_inj, Class.ofText_number]

theorem kind_read_word : (read c rest).kind.isWord ↔ isWordStart c := by
  rw [← Class.ofKind?_word, ofKind?_read, Option.some_inj, Class.ofText_word]

theorem kind_read_string : (read c rest).kind = .stringLiteral ↔ c = '"' := by
  rw [← Class.ofKind?_string, ofKind?_read, Option.some_inj, Class.ofText_string]

theorem kind_read_pair : (read c rest).kind.isPair ↔ (TokenKind.pairAt? (c :: rest)).isSome := by
  rw [← Class.ofKind?_pair, ofKind?_read, Option.some_inj, Class.ofText_pair]

theorem kind_read_char : (read c rest).kind.isChar ↔
    TokenKind.pairAt? (c :: rest) = none ∧ (TokenKind.ofChar? c).isSome := by
  rw [← Class.ofKind?_char, ofKind?_read, Option.some_inj, Class.ofText_char]

theorem kind_read_error : (read c rest).kind = .error ↔ Class.ofText c rest = .error := by
  rw [← Class.ofKind?_error, ofKind?_read, Option.some_inj]

theorem read_of_isPair (hk : (read c rest).kind.isPair) :
    ∃ kind, TokenKind.pairAt? (c :: rest) = some kind ∧ read c rest = plain kind ((c :: rest).take 2) := by
  obtain ⟨kind, hkind⟩ := Option.isSome_iff_exists.mp (kind_read_pair.mp hk)
  exact ⟨kind, hkind, read_pair hkind⟩

theorem read_of_isChar (hk : (read c rest).kind.isChar) :
    ∃ kind, TokenKind.ofChar? c = some kind ∧ read c rest = plain kind [c] := by
  obtain ⟨hnone, hsome⟩ := kind_read_char.mp hk
  obtain ⟨kind, hkind⟩ := Option.isSome_iff_exists.mp hsome
  exact ⟨kind, hkind, read_char hnone hkind⟩

/-- A slash that begins a comment is part of the trivia. -/
theorem not_comment_of_divide (htrivia : Trivia.length (c :: rest) = 0) (hk : (read c rest).kind = .divide) :
    ¬['/', '/'] <+: c :: rest ∧ ¬['/', '*'] <+: c :: rest := by
  have hslash : ∀ x ∈ TokenKind.charOperators, x.2 = .divide → x.1 = '/' := by decide
  obtain ⟨kind, hkind, hread⟩ := read_of_isChar (congrArg TokenKind.isChar hk)
  have hdivide : kind = .divide := (congrArg Lexeme.kind hread).symm.trans hk
  obtain ⟨hline, hblock⟩ := (Trivia.length_cons_eq_zero.mp htrivia).2 (hslash _ (TokenKind.mem_of_lookup hkind) hdivide)
  constructor
  · rintro ⟨more, hmore⟩
    cases hmore
    exact hline rfl
  · rintro ⟨more, hmore⟩
    cases hmore
    exact hblock rfl

/-- Only of a string literal the value is something else than the text. -/
theorem value_read (hk : (read c rest).kind ≠ .stringLiteral) : (read c rest).value = (read c rest).text := by
  rcases first_cases c with hdigit | hword | rfl | ⟨hdigit, hword, hquote⟩
  · rw [read_digit rest hdigit, plain]
  · rw [read_word rest hword, plain]
  · exact absurd (by rw [read_quote]) hk
  · rw [read_symbol rest hdigit hword hquote]
    cases h : TokenKind.pairAt? (c :: rest) with
    | some kind => rw [← read_symbol rest hdigit hword hquote, read_pair h, plain]
    | none => rw [readSymbol_single h, plain]

end

end Lexeme

/-- The token has the kind that the text `c :: rest` at its place asks for, and takes as much of it as that kind admits. -/
structure Token.Munched (t : Token) (c : Char) (rest : List Char) : Prop where
  number : t.kind = .number ↔ c.isDigit
  numberRun : t.kind = .number → LongestRun Char.isDigit (c :: rest) t.lexeme.toList
  word : t.kind.isWord ↔ Lexeme.isWordStart c
  wordRun : t.kind.isWord → LongestRun Lexeme.isWordPart (c :: rest) t.lexeme.toList ∧
    t.kind = (TokenKind.keywords.lookup t.lexeme).getD .identifier
  string : t.kind = .stringLiteral ↔ c = '"'
  pair : t.kind.isPair ↔ (TokenKind.pairAt? (c :: rest)).isSome
  pairText : t.kind.isPair → TokenKind.pairAt? (c :: rest) = some t.kind ∧ t.lexeme.toList = (c :: rest).take 2
  char : t.kind.isChar ↔ TokenKind.pairAt? (c :: rest) = none ∧ (TokenKind.ofChar? c).isSome
  charText : t.kind.isChar → TokenKind.ofChar? c = some t.kind ∧ t.lexeme.toList = [c]
  divide : t.kind = .divide → ¬['/', '/'] <+: c :: rest ∧ ¬['/', '*'] <+: c :: rest
  error : t.kind = .error ↔ c.isDigit = false ∧ Lexeme.isWordStart c = false ∧ c ≠ '"' ∧
    TokenKind.pairAt? (c :: rest) = none ∧ TokenKind.ofChar? c = none ∧ Trivia.isBlank c = false
  errorText : t.kind = .error → t.lexeme.toList = [c]
  value : t.kind ≠ .stringLiteral → t.value = t.lexeme

/-! ### Scanning -/

/-- A token that is read where no trivia stand is the one that the characters there ask for. -/
theorem Reading.munched (file : String) (p : Place) {c : Char} {rest : List Char}
    (htrivia : Trivia.length (c :: rest) = 0) : (Reading.at file p c rest).token.Munched c rest := by
  have hlexeme : (Reading.at file p c rest).token.lexeme.toList = (Lexeme.read c rest).text := String.toList_ofList
  have hblank := (Trivia.length_cons_eq_zero.mp htrivia).1
  constructor
  case number => exact Lexeme.kind_read_number
  case numberRun => exact fun hk => hlexeme ▸ Lexeme.longestRun_digits (Lexeme.kind_read_number.mp hk)
  case word => exact Lexeme.kind_read_word
  case wordRun =>
    intro hk
    have hword := Lexeme.kind_read_word.mp hk
    refine ⟨hlexeme ▸ Lexeme.longestRun_word hword, ?_⟩
    simp only [Reading.at, Lexeme.read_word rest hword]
    rfl
  case string => exact Lexeme.kind_read_string
  case pair => exact Lexeme.kind_read_pair
  case pairText =>
    intro hk
    obtain ⟨kind, hkind, hread⟩ := Lexeme.read_of_isPair hk
    rw [hlexeme]
    exact ⟨hkind.trans (congrArg (some ·.kind) hread.symm), congrArg Lexeme.text hread⟩
  case char => exact Lexeme.kind_read_char
  case charText =>
    intro hk
    obtain ⟨kind, hkind, hread⟩ := Lexeme.read_of_isChar hk
    rw [hlexeme]
    exact ⟨hkind.trans (congrArg (some ·.kind) hread.symm), congrArg Lexeme.text hread⟩
  case divide => exact Lexeme.not_comment_of_divide htrivia
  case error =>
    refine Lexeme.kind_read_error.trans (Lexeme.Class.ofText_error.trans ?_)
    simp only [hblank, and_true]
  case errorText =>
    intro hk
    rw [hlexeme]
    exact congrArg Lexeme.text (Lexeme.read_error (Lexeme.kind_read_error.mp hk))
  case value => exact fun hk => congrArg String.ofList (Lexeme.value_read hk)

/-- Every token is the one that the characters at its place ask for. -/
theorem tokens_munched (s : Source) : ∀ t ∈ s.tokens, t.kind ≠ .eof → ∃ (i : Nat) (c : Char) (rest : List Char),
    t.location.offset = i ∧ s.text.toList.drop i = c :: rest ∧ t.Munched c rest := by
  intro t ht hk
  obtain ⟨p, c, rest, hrest, htrivia, rfl⟩ := Scan.exists_reading s t ht hk
  exact ⟨p.offset, c, rest, rfl, hrest, Reading.munched s.file p htrivia⟩

/-- Of three plus signs the first two are an operator, and the last is one. -/
theorem tokens_munched_plus : let t : Token := ⟨.plus, "+", "+", ⟨"x", 1, 3, 2⟩⟩
    t ∈ (Source.mk "x" "+++").tokens ∧ t.kind ≠ .eof ∧ t.Munched '+' [] := by
  intro t
  have hsecond : (Source.mk "x" "+++").tokens[1]? = some t := by decide +kernel
  have ht := List.mem_of_getElem? hsecond
  have hk : t.kind ≠ .eof := by decide
  obtain ⟨i, c, rest, hi, hrest, hmunched⟩ := tokens_munched ⟨"x", "+++"⟩ t ht hk
  obtain rfl : 2 = i := Int.ofNat.inj hi
  cases hrest
  exact ⟨ht, hk, hmunched⟩

end Curly
