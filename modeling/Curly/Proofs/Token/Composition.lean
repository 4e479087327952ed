import Curly.Proofs.Token.Locality

/-! The tokens of a text that another text follows on a new line. The line feed ends the last token of the first text
    and every comment but a block comment that is not closed; behind it the second text is read like one that stands
    alone, on later lines. Main statement: `tokens_lines`. -/

namespace Curly

/-! ### Trivia at the end of a text -/

namespace Trivia

/-- Trivia that a line feed closes go on with those of the next line. -/
theorem length_newline {gap more : List Char} (h : Gap false (gap ++ ['\n'])) :
    length (gap ++ '\n' :: more) = gap.length + 1 + length more := by
  obtain ⟨gap', rest, rfl, hlength, hrest, hgap⟩ := exists_gap more
  calc length (gap ++ '\n' :: (gap' ++ rest)) = length (gap ++ ['\n'] ++ gap' ++ rest) := by simp
    _ = (gap ++ ['\n'] ++ gap').length := (h.append hgap).lengthFrom List.isEmpty_iff.mp hrest
    _ = gap.length + 1 + length (gap' ++ rest) := by rw [hlength, List.length_append, List.length_append]; rfl

theorem length_le (text : List Char) : length text ≤ text.length := by
  obtain ⟨gap, rest, rfl, hlength, -⟩ := exists_gap text
  rw [hlength, List.length_append]
  exact Nat.le_add_right _ _

/-- The text ends behind the trivia at its head. -/
theorem gap_of_end {text : List Char} (h : text.length ≤ length text) : Gap true text := by
  obtain ⟨gap, rest, rfl, hlength, -, hgap⟩ := exists_gap text
  rw [hlength, List.length_append] at h
  obtain rfl : rest = [] := List.eq_nil_of_length_eq_zero (by omega)
  rw [List.append_nil]
  exact hgap

end Trivia

/-- However far the reading has come, the line behind the end of a text begins at the same place. -/
theorem Place.advance_end {p : Place} {n : Nat} {text : List Char} (h : n ≤ p.rest.length) :
    ((p.advance n).followedBy text).advance ((p.advance n).rest.length + 1) =
      (p.followedBy text).advance (p.rest.length + 1) := by
  rw [← advance_followedBy p h, ← advance_add, rest_advance, List.length_drop]
  congr 1
  omega

/-! ### The first text -/

namespace Scan
variable {file : String} {text more : List Char} {p : Place}

/-- Nothing is read of blanks and comments: where the next token is the same, the rest of the scan is. -/
theorem run_congr {q : Place} (h : p.skipTrivia = q.skipTrivia) : run file p = run file q := by
  cases hp : p.skipTrivia.rest with
  | nil =>
    have hq : q.skipTrivia.rest = [] := h ▸ hp
    rw [run_stop hp, run_stop hq, h]
  | cons c rest =>
    have hq : q.skipTrivia.rest = c :: rest := h ▸ hp
    rw [run_token hp, run_token hq, h]

/-- What is scanned of two texts, one behind the other. The input does not end where the first does. -/
def andThen (s t : Scan) : Scan := ⟨s.tokens.filter (·.kind != .eof) ++ t.tokens, s.warnings ++ t.warnings, t.stop⟩

theorem finish_andThen (t : Scan) : (finish file p).andThen t = t := rfl

theorem cons_andThen {c : Char} {rest : List Char} (s t : Scan) :
    (cons (.at file p c rest) s).andThen t = cons (.at file p c rest) (s.andThen t) := by
  rw [andThen, filter_cons, cons, List.append_assoc]
  rfl

/-- From a place on, the text ends neither inside of a string literal nor inside of a block comment. -/
structure Ends (text : List Char) (file : String) (p : Place) : Prop where
  literals : ∀ t ∈ (run file p).tokens, ¬t.Unclosed
  comment : ∀ gap ∈ (Token.gaps text p.offset (run file p).tokens).getLast?, ¬Gap.Unclosed gap

namespace Ends

/-- A line feed closes the trivia at the end of the text. -/
theorem gap (h : Ends text file p) (hp : p.On text) (hstop : p.skipTrivia.rest = []) :
    Gap false (p.rest ++ ['\n']) := by
  rw [Place.skipTrivia, Place.rest_advance, List.drop_eq_nil_iff] at hstop
  have hoffset : p.skipTrivia.offset = p.offset + p.rest.length := by
    rw [Place.skipTrivia, Place.offset_advance, Nat.min_eq_right hstop]
  have hlast : slice text p.offset p.skipTrivia.offset = p.rest := hoffset ▸ hp.slice_eq (List.append_nil _).symm
  have hcomment := h.comment
  rw [run_stop (by rw [Place.skipTrivia, Place.rest_advance, List.drop_eq_nil_of_le hstop])] at hcomment
  exact (Trivia.gap_of_end hstop).closed_or_unclosed.resolve_right (hcomment _ (congrArg some hlast))

/-- A string literal that stands next is closed. -/
theorem closes {rest : List Char} (h : Ends text file p) (hp : p.skipTrivia.rest = '"' :: rest) :
    Lexeme.closes rest = true := by
  have hliterals := h.literals
  rw [run_token hp] at hliterals
  have hclosed := hliterals _ List.mem_cons_self
  rw [Token.Unclosed, Reading.at, Lexeme.read_quote, String.toList_ofList, List.tail_cons,
    (Lexeme.stringRest_text rest).2] at hclosed
  simpa using hclosed

theorem tail {c : Char} {rest : List Char} (h : Ends text file p) (hp : p.skipTrivia.rest = c :: rest) :
    Ends text file (p.skipTrivia.advance (Lexeme.read c rest).text.length) := by
  obtain ⟨hliterals, hcomment⟩ := h
  rw [run_token hp] at hliterals hcomment
  have hle := (Lexeme.prefix_read c rest).length_le
  have hstop : (Reading.at file p.skipTrivia c rest).token.stop =
      (p.skipTrivia.advance (Lexeme.read c rest).text.length).offset := by
    rw [Place.offset_advance, hp, Nat.min_eq_left hle]
    simp [Token.stop, Token.start, Reading.at, Place.location]
  refine ⟨fun t ht => hliterals t (List.mem_cons_of_mem _ ht), fun gap hgap => hcomment gap ?_⟩
  rw [← hstop] at hgap
  rw [cons, Token.gaps, List.getLast?_cons, Option.mem_some_iff]
  exact (Option.mem_def.mp hgap).symm ▸ rfl

/-- In front of a line feed, the next token is read as at the end of the text. -/
theorem run_next {c : Char} {rest : List Char} (h : Ends text file p) (hnext : p.skipTrivia.rest = c :: rest) :
    run file (p.followedBy ('\n' :: more)) = cons (.at file p.skipTrivia c rest)
      (run file ((p.skipTrivia.advance (Lexeme.read c rest).text.length).followedBy ('\n' :: more))) := by
  have htrivia : Trivia.length p.rest < p.rest.length := by
    rw [Place.skipTrivia, Place.rest_advance] at hnext
    refine Nat.lt_of_not_le fun hle => ?_
    rw [List.drop_eq_nil_of_le hle] at hnext
    cases hnext
  have hskip : (p.followedBy ('\n' :: more)).skipTrivia = p.skipTrivia.followedBy ('\n' :: more) := by
    rw [Place.skipTrivia, Place.skipTrivia, ← Place.advance_followedBy _ (Nat.le_of_lt htrivia)]
    exact congrArg _ (Trivia.length_append htrivia (blankNext_cons rfl))
  have hrest : (p.followedBy ('\n' :: more)).skipTrivia.rest = c :: (rest ++ '\n' :: more) := by
    rw [hskip, Place.followedBy, hnext, List.cons_append]
  have hread : Lexeme.read c (rest ++ '\n' :: more) = Lexeme.read c rest := by
    refine Lexeme.read_append (blankNext_cons rfl) fun hc hopen => ?_
    subst hc
    rw [h.closes hnext] at hopen
    cases hopen
  have hlength : (Lexeme.read c rest).text.length ≤ p.skipTrivia.rest.length :=
    hnext ▸ (Lexeme.prefix_read c rest).length_le
  have hafter : (Reading.at file (p.followedBy ('\n' :: more)).skipTrivia c (rest ++ '\n' :: more)).after =
      (p.skipTrivia.advance (Lexeme.read c rest).text.length).followedBy ('\n' :: more) := by
    rw [Reading.at, hread, hskip, Place.advance_followedBy _ hlength]
  rw [run_token hrest, hafter]
  simp only [cons, Reading.at, hread, hskip]
  rfl

end Ends

/-- A scan goes on behind a line feed. -/
theorem run_followedBy (file : String) (more : List Char) (p : Place) (hp : p.On text) (h : Ends text file p) :
    run file (p.followedBy ('\n' :: more)) =
      (run file p).andThen (run file ((p.followedBy ('\n' :: more)).advance (p.rest.length + 1))) := by
  induction p using Scan.induction with
  | stop p hstop =>
    rw [run_stop hstop, finish_andThen]
    -- The trivia at the end, the line feed and the trivia behind it are skipped at once.
    apply run_congr
    rw [Place.skipTrivia, Place.skipTrivia, ← Place.advance_add, Place.rest_advance]
    have hlength : Trivia.length (p.rest ++ '\n' :: more) = p.rest.length + 1 + Trivia.length more :=
      Trivia.length_newline (h.gap hp hstop)
    simp only [Place.followedBy, hlength]
    simp
  | token p c rest hnext ih =>
    have hlength : (Lexeme.read c rest).text.length ≤ p.skipTrivia.rest.length :=
      hnext ▸ (Lexeme.prefix_read c rest).length_le
    rw [h.run_next hnext, ih ((hp.advance _).advance _) (h.tail hnext), Place.advance_end hlength, Place.skipTrivia,
      Place.advance_end (Trivia.length_le p.rest), run_token hnext, cons_andThen]
    rfl

end Scan

/-! ### The second text -/

/-- The beginning of the line behind a text. -/
theorem Place.start_line (text more : List Char) : ((start text).followedBy ('\n' :: more)).advance (text.length + 1) =
    (start more).moved (text.count '\n' + 1) (text.length + 1) := by
  have hrest : (((start text).followedBy ('\n' :: more)).advance text.length).rest = '\n' :: more := by
    rw [rest_advance]
    exact List.drop_left
  have hline : (((start text).followedBy ('\n' :: more)).advance text.length).line = 1 + text.count '\n' := by
    rw [line_advance]
    simp [followedBy, start]
  have hoffset : (((start text).followedBy ('\n' :: more)).advance text.length).offset = text.length := by
    rw [offset_advance]
    simp [followedBy, start]
  rw [advance_add, advance, advance, next, hrest, hline, hoffset]
  simp [start, moved, Nat.add_comm, Nat.add_left_comm]

/-- Scanning goes line by line. Where a text ends neither inside of a string literal nor inside of a block comment, and
    another text follows on a new line, the tokens are those of the first, without the end of the input, and those of
    the second, as many lines and characters further on as the first takes up; and so are the warnings. -/
theorem tokens_lines (file first second : String) (h : ¬(Source.mk file first).EndsInside) :
    (Source.mk file (first ++ "\n" ++ second)).tokens = (Source.mk file first).tokens.filter (·.kind != .eof) ++
      (Source.mk file second).tokens.map (Token.moved (first.toList.count '\n' + 1) (first.length + 1)) ∧
    (Source.mk file (first ++ "\n" ++ second)).scan.warnings = (Source.mk file first).scan.warnings ++
      (Source.mk file second).scan.warnings.map
        (Diagnostic.moved (first.toList.count '\n' + 1) (first.length + 1)) := by
  rw [Source.EndsInside, not_or] at h
  have hends : Scan.Ends first.toList file (.start first.toList) :=
    ⟨fun t ht hu => h.1 ⟨t, ht, hu⟩, fun gap hgap hu => h.2 ⟨gap, hgap, hu⟩⟩
  have hrun := Scan.run_followedBy file second.toList (.start first.toList) ⟨rfl, Nat.zero_le _⟩ hends
  have hstart : Place.start (first ++ "\n" ++ second).toList =
      (Place.start first.toList).followedBy ('\n' :: second.toList) := by
    simp [Place.start, Place.followedBy]
  have hscan : (Source.mk file (first ++ "\n" ++ second)).scan = (Source.mk file first).scan.andThen
      ((Source.mk file second).scan.moved (first.toList.count '\n' + 1) (first.toList.length + 1)) := by
    rw [Source.scan, hstart, hrun]
    exact congrArg _ ((congrArg _ (Place.start_line _ _)).trans (Scan.run_moved _ _ _ _))
  rw [String.length_toList] at hscan
  exact ⟨congrArg Scan.tokens hscan, congrArg Scan.warnings hscan⟩

theorem tokens_lines_comments : ¬(Source.mk "x" "a /* \" */ b // c").EndsInside ∧
    (Source.mk "x" ("a /* \" */ b // c" ++ "\n" ++ "\"d\" #")).tokens =
      (Source.mk "x" "a /* \" */ b // c").tokens.filter (·.kind != .eof) ++
        (Source.mk "x" "\"d\" #").tokens.map (Token.moved 1 17) := by
  have hgaps : Token.gaps "a /* \" */ b // c".toList 0 (Source.mk "x" "a /* \" */ b // c").tokens =
      ["".toList, " /* \" */ ".toList, " // c".toList] := by decide +kernel
  have hkinds : ∀ t ∈ (Source.mk "x" "a /* \" */ b // c").tokens, t.kind ≠ .stringLiteral := by decide +kernel
  have h : ¬(Source.mk "x" "a /* \" */ b // c").EndsInside := by
    rintro (⟨t, ht, hkind, -⟩ | ⟨gap, hgap, before, body, rfl, -⟩)
    · exact hkinds t ht hkind
    · rw [hgaps] at hgap
      have hopen : ['/', '*'] <:+: " // c".toList := ⟨before, body, by simpa using hgap.symm⟩
      revert hopen
      decide
  exact ⟨h, (tokens_lines "x" _ _ h).1⟩

end Curly
