import Curly.Proofs.Token.Locality

/-! The lexemes of a text, set apart by other blanks, are read as the same tokens again. What a token is, its own text
    tells, and a blank ends it; only a string literal that is not closed takes what follows, and it comes last. Main
    statement: `tokens_spaced`. -/

namespace Curly

/-! ### Words and blanks -/

theorem Gap.ofBlanks {gap : List Char} (h : ∀ c ∈ gap, Trivia.isBlank c) : Gap false gap := by
  induction gap with
  | nil => exact .nil
  | cons c gap ih =>
    rw [List.forall_mem_cons] at h
    exact .blank h.1 (ih h.2)

/-- What follows the first word: blanks, unless it is the last. -/
theorem Spaced.uncons {word : String} {words : List String} {text : List Char} (h : Spaced (word :: words) text) :
    ∃ gap more, text = word.toList ++ (gap ++ more) ∧ (∀ c ∈ gap, Trivia.isBlank c) ∧ BlankNext (gap ++ more) ∧
      (words = [] → gap ++ more = []) ∧ Spaced words more := by
  cases h with
  | single => exact ⟨[], [], (List.append_nil _).symm, List.forall_mem_nil _, blankNext_nil, fun _ => rfl, .nil⟩
  | @cons _ next words gap text hne hgap h =>
    refine ⟨gap, text, rfl, hgap, ?_, fun hnil => (List.cons_ne_nil _ _ hnil).elim, h⟩
    obtain ⟨c, gap, rfl⟩ := List.exists_cons_of_ne_nil hne
    exact blankNext_cons (hgap c List.mem_cons_self)

/-- What begins no trivia, begins none where the text ends earlier. -/
theorem Trivia.length_cons_left {c : Char} {text more : List Char} (h : length (c :: (text ++ more)) = 0) :
    length (c :: text) = 0 := by
  rw [length_cons_eq_zero] at h ⊢
  refine ⟨h.1, fun hc => ?_⟩
  cases text with
  | nil => simp
  | cons d text => exact h.2 hc

theorem Spaced.blank {word next : String} {words : List String} {d : Char} {text : List Char}
    (hd : Trivia.isBlank d) (h : Spaced (next :: words) text) :
    Spaced (word :: next :: words) (word.toList ++ ([d] ++ text)) :=
  .cons (List.cons_ne_nil d []) (List.forall_mem_singleton.mpr hd) h

/-! ### Scanning -/

namespace Scan
variable {file file' : String}

/-- The words of what was scanned. -/
def words (s : Scan) : List String := (s.tokens.filter (·.kind != .eof)).map Token.lexeme

theorem words_cons {p : Place} {c : Char} {rest : List Char} {s : Scan} :
    (cons (.at file p c rest) s).words = String.ofList (Lexeme.read c rest).text :: s.words := by
  rw [words, filter_cons]
  rfl

/-- An end of the input follows the other tokens. -/
theorem lexemes_run (file : String) (p : Place) : (run file p).tokens.map Token.lexemeOf =
    ((run file p).tokens.filter (·.kind != .eof)).map Token.lexemeOf ++ [⟨.eof, [], []⟩] := by
  induction p using Scan.induction with
  | stop p h =>
    rw [run_stop h]
    rfl
  | token p c rest h ih =>
    rw [run_token h, filter_cons, List.map_cons, List.cons_append, cons, List.map_cons]
    exact congrArg _ ih

theorem words_of_end {p : Place} (h : p.rest = []) : (run file p).words = [] := by
  rw [run_stop (by rw [Place.skipTrivia, Place.rest_advance, h, List.drop_nil])]
  rfl

/-- The same tokens and warnings, but for where they stand. -/
structure Alike (s t : Scan) : Prop where
  tokens : s.tokens.map Token.lexemeOf = t.tokens.map Token.lexemeOf
  warnings : s.warnings.map Diagnostic.message = t.warnings.map Diagnostic.message

theorem Alike.cons {s t : Scan} {p q : Place} {c : Char} {rest rest' : List Char} (h : s.Alike t)
    (hread : Lexeme.read c rest = Lexeme.read c rest') :
    (cons (.at file p c rest) s).Alike (cons (.at file' q c rest') t) := by
  obtain ⟨htokens, hwarnings⟩ := h
  constructor
  · simp [Scan.cons, Reading.at, Token.lexemeOf, hread, htokens]
  · simp only [Scan.cons, Reading.at, hread, List.map_append, hwarnings]
    congr 1
    split <;> rfl

/-- Blanks in front of a place where neither a blank nor a comment stands are all that is skipped there. -/
theorem skipTrivia_blanks {p : Place} {gap text : List Char} (hrest : p.rest = gap ++ text)
    (hgap : ∀ c ∈ gap, Trivia.isBlank c) (htext : Trivia.length text = 0) : p.skipTrivia.rest = text := by
  have hlength := (Gap.ofBlanks hgap).lengthFrom (fun h => by cases h) htext
  rw [Place.skipTrivia, Place.rest_advance, hrest, hlength, List.drop_left]

/-- The words that are scanned from a place on are scanned again from another, where blanks stand around them. -/
theorem alike_of_spaced (p q : Place) {gap text : List Char} (hrest : q.rest = gap ++ text)
    (hgap : ∀ c ∈ gap, Trivia.isBlank c) (h : Spaced (run file p).words text) :
    (run file' q).Alike (run file p) := by
  induction p using Scan.induction generalizing q gap text with
  | stop p hstop =>
    rw [run_stop hstop] at h ⊢
    have htext : text = [] := by
      cases h
      rfl
    subst htext
    rw [run_stop (skipTrivia_blanks hrest hgap rfl)]
    exact ⟨rfl, rfl⟩
  | token p c rest hnext ih =>
    rw [run_token hnext] at h ⊢
    rw [words_cons] at h
    obtain ⟨gap', more, rfl, hgap', hblank, hlast, hmore⟩ := h.uncons
    obtain ⟨tail, after, htext, hrest'⟩ := Lexeme.exists_text_read c rest
    have hzero : Trivia.length (c :: rest) = 0 := by
      rw [← hnext, Place.skipTrivia, Place.rest_advance]
      exact Trivia.lengthFrom_drop .outside _
    rw [String.toList_ofList, htext] at hrest
    have hskip : q.skipTrivia.rest = c :: (tail ++ (gap' ++ more)) := by
      refine skipTrivia_blanks hrest hgap (Trivia.length_cons_append ?_ hblank)
      subst hrest'
      exact Trivia.length_cons_left hzero
    have hread : Lexeme.read c (tail ++ (gap' ++ more)) = Lexeme.read c rest := by
      rw [Lexeme.read_append hblank, Lexeme.read_text htext]
      rintro rfl hopen
      refine hlast (words_of_end ?_)
      -- A string literal that is not closed reaches to the end of the text.
      obtain rfl := (List.cons.inj ((congrArg Lexeme.text (Lexeme.read_quote rest)).symm.trans htext)).2
      rw [(Lexeme.stringRest_text rest).2] at hopen
      rw [Reading.at, Place.rest_advance, hnext, htext, Lexeme.stringRest_of_not_closes hopen, List.drop_length]
    rw [run_token hskip]
    refine Alike.cons (ih _ ?_ hgap' hmore) hread
    rw [Reading.at, Place.rest_advance, hskip, hread, htext]
    exact List.drop_left

end Scan

/-- The words of a text, set apart by blanks, are read again as the same tokens, where they are still followed by an end
    of the input, and with the same warnings. -/
theorem tokens_spaced (s t : Source)
    (h : Spaced ((s.tokens.filter (·.kind != .eof)).map Token.lexeme) t.text.toList) :
    t.tokens.map Token.lexemeOf =
      (s.tokens.filter (·.kind != .eof)).map Token.lexemeOf ++ [⟨.eof, [], []⟩] ∧
    t.scan.warnings.map Diagnostic.message = s.scan.warnings.map Diagnostic.message := by
  have halike : t.scan.Alike s.scan := Scan.alike_of_spaced (.start s.text.toList) (.start t.text.toList)
    (List.nil_append _).symm (List.forall_mem_nil _) h
  exact ⟨halike.tokens.trans (Scan.lexemes_run _ _), halike.warnings⟩

theorem tokens_spaced_form_feed : Spaced (((Source.mk "x" "a/**/==#\"b\\").tokens.filter (·.kind != .eof)).map
      Token.lexeme) "a\x0c==\n# \"b\\".toList ∧
    (Source.mk "y" "a\x0c==\n# \"b\\").tokens.map Token.lexemeOf =
      ((Source.mk "x" "a/**/==#\"b\\").tokens.filter (·.kind != .eof)).map Token.lexemeOf ++ [⟨.eof, [], []⟩] ∧
    (Source.mk "y" "a\x0c==\n# \"b\\").scan.warnings.map Diagnostic.message =
      (Source.mk "x" "a/**/==#\"b\\").scan.warnings.map Diagnostic.message := by
  have hwords : ((Source.mk "x" "a/**/==#\"b\\").tokens.filter (·.kind != .eof)).map Token.lexeme =
      ["a", "==", "#", "\"b\\"] := by decide +kernel
  have htext : "a\x0c==\n# \"b\\".toList = "a".toList ++ (['\x0c'] ++ ("==".toList ++ (['\n'] ++ ("#".toList ++
      ([' '] ++ "\"b\\".toList))))) := by decide +kernel
  have h : Spaced (((Source.mk "x" "a/**/==#\"b\\").tokens.filter (·.kind != .eof)).map Token.lexeme)
      "a\x0c==\n# \"b\\".toList := by
    rw [hwords, htext]
    exact .blank rfl (.blank rfl (.blank rfl .single))
  exact ⟨h, tokens_spaced _ _ h⟩

end Curly
