import Curly.Proofs.Token.Locality
import Curly.Text.Newline

/-! Texts whose lines end in a carriage return and a line feed. They have the same tokens on the same lines and columns
    as with line feeds alone: a carriage return is a blank, it ends what a line feed ends, and no column is counted over
    the two. Only the offsets drift apart, by one character for every line passed. Main statement: `tokens_addReturns`. -/

namespace Curly

/-! ### Where things stand once carriage returns are added to a text -/

def Location.addReturns (text : List Char) (l : Location) : Location :=
  { l with offset := l.offset + (text.take l.offset.toNat).count '\n' }

def Token.addReturns (text : List Char) (t : Token) : Token where
  kind := t.kind
  lexeme := String.ofList (Text.addReturns t.lexeme.toList)
  value := String.ofList (Text.addReturns t.value.toList)
  location := t.location.addReturns text

def Diagnostic.addReturns (text : List Char) (d : Diagnostic) : Diagnostic :=
  { d with location := d.location.addReturns text }

/-! ### Lexemes -/

namespace Lexeme

def addReturns (l : Lexeme) : Lexeme := ⟨l.kind, Text.addReturns l.text, Text.addReturns l.value⟩

/-- A backslash in front of the end of a line escapes the carriage return, and the line feed stands for itself. -/
theorem stringRest_addReturns (text : List Char) : stringRest (Text.addReturns text) =
    (Text.addReturns (stringRest text).1, Text.addReturns (stringRest text).2) := by
  have hreturn : ∀ text, stringRest ('\r' :: '\n' :: text) =
      ('\r' :: '\n' :: (stringRest text).1, '\r' :: '\n' :: (stringRest text).2) := fun text => by
    rw [stringRest_cons (by decide) (by decide), stringRest_cons (by decide) (by decide)]
  induction text using literal_induction with
  | stop | quote | lone => rfl
  | escape c rest ih =>
    rw [stringRest]
    by_cases hc : c = '\n'
    · subst hc
      show stringRest ('\\' :: '\r' :: '\n' :: Text.addReturns rest) = _
      rw [stringRest, stringRest_cons (by decide) (by decide), ih]
      rfl
    · simp only [Text.addReturns_cons _ hc, Text.addReturns_cons _ (show '\\' ≠ '\n' by decide), stringRest, ih]
  | other c rest hquote hescape ih =>
    rw [stringRest_cons hquote hescape]
    by_cases hc : c = '\n'
    · subst hc
      simp only [Text.addReturns_newline, hreturn, ih]
    · simp only [Text.addReturns_cons _ hc, stringRest_cons hquote hescape, ih]

/-- What a string literal stands for is part of its text. -/
theorem mem_stringRest {d : Char} (text : List Char) (h : d ∈ (stringRest text).2) : d ∈ (stringRest text).1 := by
  induction text using literal_induction with
  | stop | quote | lone => cases h
  | escape c rest ih =>
    rw [stringRest, List.mem_cons] at h
    rw [stringRest]
    rcases h with rfl | h
    · simp
    · exact List.mem_cons_of_mem _ (List.mem_cons_of_mem _ (ih h))
  | other c rest hquote hescape ih =>
    rw [stringRest_cons hquote hescape] at h ⊢
    rcases List.mem_cons.mp h with rfl | h
    · exact List.mem_cons_self
    · exact List.mem_cons_of_mem _ (ih h)

/-- What is neither a carriage return nor a line feed is found as before. -/
theorem takeWhile_addReturns {p : Char → Bool} (hreturn : p '\r' = false) (hfeed : p '\n' = false)
    (text : List Char) : (Text.addReturns text).takeWhile p = text.takeWhile p := by
  induction text with
  | nil => rfl
  | cons c text ih =>
    by_cases hc : c = '\n'
    · subst hc
      simp [hreturn, hfeed]
    · rw [Text.addReturns_cons _ hc, List.takeWhile_cons, List.takeWhile_cons, ih]

theorem readSymbol_addReturns (c : Char) (rest : List Char) :
    readSymbol c (Text.addReturns rest) = readSymbol c rest := by
  cases rest with
  | nil => rfl
  | cons d rest =>
    by_cases hd : d = '\n'
    · subst hd
      have hreturn : TokenKind.ofPair? c '\r' = none := (isBlank_other rfl).2.2.2.2 c
      have hfeed : TokenKind.ofPair? c '\n' = none := (isBlank_other rfl).2.2.2.2 c
      simp [readSymbol, hreturn, hfeed]
    · rw [Text.addReturns_cons _ hd]
      rfl

/-- A symbol stands for itself, and on one line. -/
theorem readSymbol_plain {c : Char} (hc : c ≠ '\n') (rest : List Char) :
    ∃ kind text, readSymbol c rest = plain kind text ∧ '\n' ∉ text := by
  unfold readSymbol
  split
  · next h =>
    obtain ⟨d, -, hpair⟩ := Option.bind_eq_some_iff.mp h
    obtain ⟨kind, hkind, rfl⟩ := Option.map_eq_some_iff.mp hpair
    have hd : d ≠ '\n' := by
      rintro rfl
      rw [(isBlank_other rfl).2.2.2.2 c] at hkind
      cases hkind
    exact ⟨kind, _, rfl, by simp [hc.symm, hd.symm]⟩
  · exact ⟨_, _, rfl, by simp [hc.symm]⟩

/-- A lexeme that is no string literal stands for itself, on one line, and it is found as before. -/
theorem read_plain {c : Char} (hc : c ≠ '\n') (hquote : c ≠ '"') (rest : List Char) :
    ∃ kind text, read c rest = plain kind text ∧ '\n' ∉ text ∧ read c (Text.addReturns rest) = read c rest := by
  have hrun : ∀ {p : Char → Bool}, p '\n' = false → '\n' ∉ c :: rest.takeWhile p := fun hp => by
    simpa [hc.symm] using fun h => absurd (List.mem_takeWhile_imp h) (by simp [hp])
  rcases first_cases c with hdigit | hword | hquote' | ⟨hdigit, hword, -⟩
  · refine ⟨_, _, read_digit rest hdigit, hrun (by decide), ?_⟩
    rw [read_digit _ hdigit, read_digit _ hdigit, takeWhile_addReturns (by decide) (by decide)]
  · refine ⟨_, _, read_word rest hword, hrun (by decide), ?_⟩
    rw [read_word _ hword, read_word _ hword, takeWhile_addReturns (by decide) (by decide)]
  · exact absurd hquote' hquote
  · obtain ⟨kind, text, hsymbol, hline⟩ := readSymbol_plain hc rest
    refine ⟨kind, text, (read_symbol _ hdigit hword hquote).trans hsymbol, hline, ?_⟩
    rw [read_symbol _ hdigit hword hquote, read_symbol _ hdigit hword hquote, readSymbol_addReturns]

theorem addReturns_plain {text : List Char} (h : '\n' ∉ text) (kind : TokenKind) :
    (plain kind text).addReturns = plain kind text := by
  simp only [plain, addReturns, Text.addReturns_of_not_mem h]

theorem read_addReturns {c : Char} (hc : c ≠ '\n') (rest : List Char) :
    read c (Text.addReturns rest) = (read c rest).addReturns := by
  by_cases hquote : c = '"'
  · subst hquote
    rw [read_quote, read_quote, stringRest_addReturns]
    rfl
  · obtain ⟨kind, text, hplain, hline, hread⟩ := read_plain hc hquote rest
    rw [hread, hplain, addReturns_plain hline]

/-- Only a string literal that goes over the end of a line is another one. -/
theorem addReturns_read {c : Char} (hc : c ≠ '\n') (rest : List Char) :
    (read c rest).addReturns = read c rest ∨
      (read c rest).kind = .stringLiteral ∧ '\n' ∈ (read c rest).text := by
  by_cases hquote : c = '"'
  · subst hquote
    by_cases hline : '\n' ∈ (read '"' rest).text
    · exact .inr ⟨by rw [read_quote], hline⟩
    · refine .inl ?_
      rw [read_quote] at hline ⊢
      have hvalue : '\n' ∉ (stringRest rest).2 := fun h => hline (List.mem_cons_of_mem _ (mem_stringRest rest h))
      rw [addReturns, Text.addReturns_of_not_mem hline, Text.addReturns_of_not_mem hvalue]
  · obtain ⟨kind, text, hplain, hline, -⟩ := read_plain hc hquote rest
    exact .inl (hplain ▸ addReturns_plain hline kind)

end Lexeme

/-! ### Trivia -/

/-- Carriage returns come only in front of line feeds. -/
theorem head?_addReturns {d : Char} {text : List Char} (hd : d ≠ '\r') (h : (Text.addReturns text).head? = some d) :
    text.head? = some d := by
  cases text with
  | nil => cases h
  | cons c text =>
    by_cases hc : c = '\n'
    · subst hc
      exact absurd (Option.some.inj h).symm hd
    · rw [Text.addReturns_cons _ hc] at h
      exact h

theorem Trivia.lengthFrom_return (mode : Mode) (rest : List Char) :
    lengthFrom mode ('\r' :: rest) = 1 + lengthFrom mode rest := by
  cases mode <;> rfl

section
variable {mode after : Trivia.Mode} {rest : List Char}
  (ih : Trivia.lengthFrom after (Text.addReturns rest) =
    (Text.addReturns (rest.take (Trivia.lengthFrom after rest))).length)
include ih

/-- A carriage return is passed like the line feed behind it. -/
theorem Trivia.lengthFrom_addReturns_newline
    (h : ∀ rest, lengthFrom mode ('\n' :: rest) = 1 + lengthFrom after rest) :
    lengthFrom mode (Text.addReturns ('\n' :: rest)) =
      (Text.addReturns (('\n' :: rest).take (1 + lengthFrom after rest))).length := by
  rw [Nat.add_comm 1, List.take_succ_cons, Text.addReturns_newline, Text.addReturns_newline,
    lengthFrom_return, h, ih]
  simp only [List.length_cons]
  omega

/-- A character that ends no line is passed as before. -/
theorem Trivia.lengthFrom_addReturns_other {c : Char} (hc : c ≠ '\n')
    (h : lengthFrom mode (c :: Text.addReturns rest) = 1 + lengthFrom after (Text.addReturns rest)) :
    lengthFrom mode (Text.addReturns (c :: rest)) =
      (Text.addReturns ((c :: rest).take (1 + lengthFrom after rest))).length := by
  rw [Nat.add_comm 1, List.take_succ_cons, Text.addReturns_cons _ hc, Text.addReturns_cons _ hc, h, ih,
    List.length_cons, Nat.add_comm]

end

/-- A carriage return is a blank, it stays in the line comment that its line feed ends, and no block comment ends
    between the two. -/
theorem Trivia.lengthFrom_addReturns (mode : Mode) (text : List Char) : lengthFrom mode (Text.addReturns text) =
    (Text.addReturns (text.take (lengthFrom mode text))).length := by
  -- a line feed becomes two characters: both are blank or in the block comment, or the second ends the line comment
  fun_induction lengthFrom mode text with
  | case1 => simp [Text.addReturns, lengthFrom]
  | case2 rest ih | case3 rest ih =>
    rw [Nat.add_comm 2, List.take_succ_cons, List.take_succ_cons]
    show lengthFrom .outside ('/' :: _ :: Text.addReturns rest) = ('/' :: _ :: Text.addReturns _).length
    rw [lengthFrom, ih, List.length_cons, List.length_cons, Nat.add_comm 2]
  | case4 c rest hline hblock hblank ih =>
    by_cases hc : c = '\n'
    · subst hc
      exact lengthFrom_addReturns_newline ih fun _ => rfl
    · refine lengthFrom_addReturns_other ih hc ?_
      have hslash : c ≠ '/' := by
        rintro rfl
        exact absurd hblank (by decide)
      rw [lengthFrom_outside_cons fun h => absurd h hslash, if_pos hblank]
  | case5 c rest hline hblock hblank =>
    have hc : c ≠ '\n' := by
      rintro rfl
      exact hblank rfl
    rw [Text.addReturns_cons _ hc, lengthFrom_outside_cons, if_neg hblank]
    · rfl
    · rintro rfl
      refine ⟨fun h => ?_, fun h => ?_⟩
      · obtain ⟨r, rfl⟩ := List.head?_eq_some_iff.mp (head?_addReturns (by decide) h)
        exact hline r rfl rfl
      · obtain ⟨r, rfl⟩ := List.head?_eq_some_iff.mp (head?_addReturns (by decide) h)
        exact hblock r rfl rfl
  | case6 c rest ih =>
    by_cases hc : c = '\n'
    · subst hc
      exact lengthFrom_addReturns_newline ih fun _ => rfl
    · exact lengthFrom_addReturns_other ih hc (by rw [lengthFrom])
  | case7 rest ih =>
    rw [Nat.add_comm 2, List.take_succ_cons, List.take_succ_cons]
    show lengthFrom .blockComment ('*' :: '/' :: Text.addReturns rest) = ('*' :: '/' :: Text.addReturns _).length
    rw [lengthFrom, ih, List.length_cons, List.length_cons, Nat.add_comm 2]
  | case8 c rest hnot ih =>
    by_cases hc : c = '\n'
    · subst hc
      exact lengthFrom_addReturns_newline ih fun _ => rfl
    · refine lengthFrom_addReturns_other ih hc ?_
      rw [lengthFrom]
      intro r hstar hslash
      have hhead : (Text.addReturns rest).head? = some '/' := by rw [hslash, List.head?_cons]
      obtain ⟨r, rfl⟩ := List.head?_eq_some_iff.mp (head?_addReturns (by decide) hhead)
      exact hnot r hstar rfl

/-! ### Places -/

namespace Place
variable {text : List Char} {p : Place}

/-- The same place in the text once carriage returns are added to it. -/
def addReturns (text : List Char) (p : Place) : Place :=
  { p with rest := Text.addReturns p.rest, offset := p.offset + (text.take p.offset).count '\n' }

theorem location_addReturns (text : List Char) (p : Place) (file : String) :
    (p.addReturns text).location file = (p.location file).addReturns text := by
  simp [location, addReturns, Location.addReturns]

/-- Passing the next character. -/
theorem next_addReturns {c : Char} {rest : List Char} (hp : p.On text) (hrest : p.rest = c :: rest) :
    (p.addReturns text).advance (Text.addReturns [c]).length = p.next.addReturns text := by
  have htake := hp.take_succ hrest
  by_cases hc : c = '\n'
  · subst hc
    simp [advance, next, addReturns, hrest, Text.addReturns, htake]
    omega
  · simp [advance, next, addReturns, hrest, Text.addReturns, htake, hc]
    omega

theorem advance_addReturns (hp : p.On text) (n : Nat) :
    (p.addReturns text).advance (Text.addReturns (p.rest.take n)).length = (p.advance n).addReturns text := by
  induction n generalizing p with
  | zero => rfl
  | succ n ih =>
    cases hrest : p.rest with
    | nil =>
      have hnext : p.next = p := by rw [next, hrest]
      rw [advance, hnext, ← ih hp, hrest, List.take_nil, List.take_nil]
    | cons c rest =>
      have hnext : p.next.rest = rest := by rw [rest_next, hrest, List.drop_one, List.tail_cons]
      have hlength : (Text.addReturns ((c :: rest).take (n + 1))).length =
          (Text.addReturns [c]).length + (Text.addReturns (p.next.rest.take n)).length := by
        rw [hnext, List.take_succ_cons, ← List.length_append, ← Text.addReturns_append, List.singleton_append]
      rw [hlength, advance_add, next_addReturns hp hrest]
      exact ih (hp.advance 1)

theorem skipTrivia_addReturns (hp : p.On text) :
    (p.addReturns text).skipTrivia = p.skipTrivia.addReturns text := by
  rw [skipTrivia, skipTrivia, ← advance_addReturns hp]
  exact congrArg _ (Trivia.lengthFrom_addReturns .outside p.rest)

/-- No line feed stands where the trivia end. -/
theorem ne_newline {c : Char} {rest : List Char} (h : p.skipTrivia.rest = c :: rest) : c ≠ '\n' := by
  have hzero : Trivia.length (c :: rest) = 0 := by
    rw [← h, skipTrivia, rest_advance]
    exact Trivia.lengthFrom_drop .outside _
  rintro rfl
  exact absurd (Trivia.length_cons_eq_zero.mp hzero).1 (by decide)

end Place

/-! ### Scanning -/

namespace Scan
variable {file : String} {text : List Char}

/-- What is scanned once carriage returns are added to the text. -/
def addReturns (text : List Char) (s : Scan) : Scan :=
  ⟨s.tokens.map (Token.addReturns text), s.warnings.map (Diagnostic.addReturns text), s.stop.addReturns text⟩

theorem finish_addReturns (p : Place) : finish file (p.addReturns text) = (finish file p).addReturns text := by
  rw [finish, Place.location_addReturns]
  rfl

theorem cons_addReturns {p : Place} {c : Char} (hc : c ≠ '\n') (rest : List Char) (s : Scan) :
    cons (.at file (p.addReturns text) c (Text.addReturns rest)) (s.addReturns text) =
      (cons (.at file p c rest) s).addReturns text := by
  have htoken : (Reading.at file (p.addReturns text) c (Text.addReturns rest)).token =
      (Reading.at file p c rest).token.addReturns text := by
    simp only [Reading.at, Lexeme.read_addReturns hc, Lexeme.addReturns, Place.location_addReturns, Token.addReturns,
      String.toList_ofList]
  have hwarning : (Reading.at file (p.addReturns text) c (Text.addReturns rest)).warning =
      (Reading.at file p c rest).warning.map (Diagnostic.addReturns text) := by
    simp only [Reading.at, Lexeme.read_addReturns hc, Lexeme.addReturns, Place.location_addReturns]
    split <;> rfl
  rw [cons, htoken, hwarning]
  cases hwarn : (Reading.at file p c rest).warning <;> simp [cons, addReturns, hwarn]

/-- From a place on, the same is scanned once carriage returns are added. -/
theorem run_addReturns (file : String) (p : Place) (hp : p.On text) :
    run file (p.addReturns text) = (run file p).addReturns text := by
  induction p using Scan.induction with
  | stop p h =>
    have h' : (p.addReturns text).skipTrivia.rest = [] := by
      rw [Place.skipTrivia_addReturns hp, Place.addReturns, h]
      rfl
    rw [run_stop h, run_stop h', Place.skipTrivia_addReturns hp, finish_addReturns]
  | token p c rest h ih =>
    have hc := Place.ne_newline h
    have hskip : p.skipTrivia.On text := hp.advance _
    have h' : (p.addReturns text).skipTrivia.rest = c :: Text.addReturns rest := by
      rw [Place.skipTrivia_addReturns hp, Place.addReturns, h, Text.addReturns_cons _ hc]
    obtain ⟨after, hafter⟩ := Lexeme.prefix_read c rest
    have hread : (Reading.at file (p.skipTrivia.addReturns text) c (Text.addReturns rest)).after =
        (p.skipTrivia.advance (Lexeme.read c rest).text.length).addReturns text := by
      rw [← Place.advance_addReturns hskip, h, ← hafter, List.take_left, Reading.at, Lexeme.read_addReturns hc]
      rfl
    have hrun : run file (Reading.at file (p.skipTrivia.addReturns text) c (Text.addReturns rest)).after =
        (run file (Reading.at file p.skipTrivia c rest).after).addReturns text := by
      rw [hread]
      exact ih (hskip.advance _)
    rw [run_token h, run_token h', Place.skipTrivia_addReturns hp, hrun, cons_addReturns hc]

/-- Only string literals that go over the end of a line are written differently. -/
theorem addReturns_tokens (file : String) (p : Place) : ∀ t ∈ (run file p).tokens,
    t.kind = .stringLiteral ∧ '\n' ∈ t.lexeme.toList ∨
      (t.addReturns text).lexeme = t.lexeme ∧ (t.addReturns text).value = t.value := by
  induction p using Scan.induction with
  | stop p h =>
    rw [run_stop h]
    intro t ht
    obtain rfl := List.mem_singleton.mp ht
    exact .inr ⟨rfl, rfl⟩
  | token p c rest h ih =>
    rw [run_token h]
    refine List.forall_mem_cons.mpr ⟨?_, ih⟩
    rcases Lexeme.addReturns_read (Place.ne_newline h) rest with hsame | ⟨hkind, hline⟩
    · have htext := congrArg Lexeme.text hsame
      have hvalue := congrArg Lexeme.value hsame
      simp only [Lexeme.addReturns] at htext hvalue
      exact .inr (by simp [Reading.at, Token.addReturns, htext, hvalue])
    · exact .inl ⟨hkind, by simpa [Reading.at] using hline⟩

end Scan

/-- The text with a carriage return in front of every line feed. -/
def Source.addReturns (s : Source) : Source := ⟨s.file, String.ofList (Text.addReturns s.text.toList)⟩

/-- A carriage return in front of every line feed changes no token but for its offset, which grows by the number of line
    feeds before it, and for the line ends inside of string literals; and it changes no warning but for its offset. -/
theorem tokens_addReturns (s : Source) :
    s.addReturns.tokens = s.tokens.map (Token.addReturns s.text.toList) ∧
    s.addReturns.scan.warnings = s.scan.warnings.map (Diagnostic.addReturns s.text.toList) ∧
    ∀ t ∈ s.tokens, t.kind = .stringLiteral ∧ '\n' ∈ t.lexeme.toList ∨
      (t.addReturns s.text.toList).lexeme = t.lexeme ∧ (t.addReturns s.text.toList).value = t.value := by
  have hstart : Place.start s.addReturns.text.toList = (Place.start s.text.toList).addReturns s.text.toList := by
    simp [Source.addReturns, Place.start, Place.addReturns]
  have hscan : s.addReturns.scan = s.scan.addReturns s.text.toList := by
    rw [Source.scan, hstart]
    exact Scan.run_addReturns s.file _ ⟨rfl, Nat.zero_le _⟩
  exact ⟨congrArg Scan.tokens hscan, congrArg Scan.warnings hscan, Scan.addReturns_tokens s.file _⟩

/-- A backslash at the end of a line escapes the carriage return, and the literal still goes over the line feed. -/
example : (Source.mk "x" "\"a\\\n\" b").addReturns.tokens.map (fun t => (t.value, t.line, t.column, t.location.offset)) =
    [("a\r\n", 1, 1, 0), ("b", 2, 3, 7), ("", 2, 4, 8)] := by cbv

end Curly
