import Curly.Proofs.Token.Munch
import Mathlib.Algebra.Group.Nat.Even
import Mathlib.Data.List.DropRight

/-! String literals stand for the text that was escaped, and they end where they are closed: at the first double quote that
    no backslash escapes. Main statement: `string_literals`. -/

namespace Curly

namespace Lexeme

/-- The number of backslashes at the end of a text. -/
def backslashes (text : List Char) : Nat := (text.rtakeWhile (· == '\\')).length

/-- In the text behind an opening quote, a double quote stands at the index, and the backslashes right in front of it, if
    there are any, escape each other. -/
def ClosesAt (text : List Char) (i : Nat) : Prop := text[i]? = some '"' ∧ Even (backslashes (text.take i))

/-- A text with each backslash left out and the character behind it kept. At the end of the text, a backslash stands for
    nothing. -/
def unescape : List Char → List Char
  | [] => []
  | ['\\'] => []
  | '\\' :: c :: rest => c :: unescape rest
  | c :: rest => c :: unescape rest

/-- Behind its opening quote, a string literal takes `taken` of the text, and stands for `value`. It goes up to the first
    quote that closes it, or to the end of the text if there is none. -/
def Literal (text taken value : List Char) : Prop :=
  (∃ i, ClosesAt text i ∧ (∀ j < i, ¬ClosesAt text j) ∧ taken = text.take (i + 1) ∧ value = unescape (text.take i)) ∨
    (∀ i, ¬ClosesAt text i) ∧ taken = text ∧ value = unescape text

/-! ### Where a literal is closed -/

theorem backslashes_cons (c : Char) (text : List Char) :
    backslashes (c :: text) = backslashes text + if (c :: text).all (· == '\\') then 1 else 0 := by
  simp only [backslashes, List.rtakeWhile, List.length_reverse, List.reverse_cons]
  -- Only if the whole text consists of backslashes, does what stands in front of it matter.
  by_cases htext : text.all (· == '\\')
  · have hall : ∀ d ∈ text.reverse, (d == '\\') = true := by simpa using htext
    rw [List.takeWhile_append_of_pos hall, List.takeWhile_eq_self_iff.mpr hall, List.length_append, List.all_cons, htext,
      Bool.and_true, List.takeWhile_cons]
    split <;> rfl
  · have hshort : (text.reverse.takeWhile (· == '\\')).length ≠ text.reverse.length := fun h => by
      have hself := (List.takeWhile_prefix (l := text.reverse) _).eq_of_length h
      exact htext (by simpa using List.takeWhile_eq_self_iff.mp hself)
    rw [List.takeWhile_append, if_neg hshort, List.all_cons, Bool.eq_false_iff.mpr htext, Bool.and_false]
    rfl

/-- An escaped character does not change which quotes behind it are escaped. -/
theorem even_backslashes (c : Char) (text : List Char) :
    Even (backslashes ('\\' :: c :: text)) ↔ Even (backslashes text) := by
  have hboth : ('\\' :: c :: text).all (· == '\\') = (c :: text).all (· == '\\') := by simp
  rw [backslashes_cons, backslashes_cons, hboth]
  split
  · rw [Nat.even_add_one, Nat.even_add_one, not_not]
  · rw [Nat.add_zero]

theorem backslashes_other {c : Char} (hescape : c ≠ '\\') (text : List Char) :
    backslashes (c :: text) = backslashes text := by
  simp [backslashes_cons, hescape]

theorem closesAt_escape {c : Char} {rest : List Char} {i : Nat} :
    ClosesAt ('\\' :: c :: rest) i ↔ ∃ j, i = j + 2 ∧ ClosesAt rest j := by
  match i with
  | 0 => simp [ClosesAt]
  | 1 =>
    have hodd : ¬Even (backslashes ['\\']) := by decide
    simp [ClosesAt, hodd]
  | i + 2 => simp [ClosesAt, even_backslashes]

theorem closesAt_other {c : Char} (hquote : c ≠ '"') (hescape : c ≠ '\\') {rest : List Char} {i : Nat} :
    ClosesAt (c :: rest) i ↔ ∃ j, i = j + 1 ∧ ClosesAt rest j := by
  cases i with
  | zero => simp [ClosesAt, hquote]
  | succ i => simp [ClosesAt, backslashes_other hescape]

/-! ### Reading -/

theorem unescape_other {c : Char} (hescape : c ≠ '\\') (rest : List Char) : unescape (c :: rest) = c :: unescape rest := by
  rw [unescape]
  · exact fun h _ => hescape h
  · exact fun _ _ h _ => hescape h

/-- What stands in front of a text and closes nothing, belongs to a literal as well. -/
theorem Literal.prepend (front kept : List Char) {text taken value : List Char} (h : Literal text taken value)
    (hcloses : ∀ i, ClosesAt (front ++ text) i ↔ ∃ j, i = j + front.length ∧ ClosesAt text j)
    (hkept : ∀ text, unescape (front ++ text) = kept ++ unescape text) :
    Literal (front ++ text) (front ++ taken) (kept ++ value) := by
  rcases h with ⟨i, hi, hfirst, rfl, rfl⟩ | ⟨hnone, rfl, rfl⟩
  · refine .inl ⟨i + front.length, (hcloses _).mpr ⟨i, rfl, hi⟩, fun j hj hclose => ?_, ?_, ?_⟩
    · obtain ⟨k, rfl, hk⟩ := (hcloses j).mp hclose
      exact hfirst k (Nat.lt_of_add_lt_add_right hj) hk
    · rw [Nat.add_right_comm, Nat.add_comm _ front.length, List.take_length_add_append]
    · rw [Nat.add_comm i, List.take_length_add_append, hkept]
  · refine .inr ⟨fun i hclose => ?_, rfl, (hkept _).symm⟩
    obtain ⟨j, -, hj⟩ := (hcloses i).mp hclose
    exact hnone j hj

theorem literal_stringRest (text : List Char) : Literal text (stringRest text).1 (stringRest text).2 := by
  -- A backslash is read with the character behind it. So no quote is reached whose backslashes are odd in number.
  induction text using literal_induction with
  | stop => exact .inr ⟨fun i h => by simp [ClosesAt] at h, rfl, rfl⟩
  | quote rest => exact .inl ⟨0, ⟨rfl, Even.zero⟩, fun j hj => (Nat.not_lt_zero j hj).elim, rfl, rfl⟩
  | lone =>
    refine .inr ⟨fun i h => ?_, rfl, rfl⟩
    cases i <;> simp [ClosesAt] at h
  | escape c rest ih => exact ih.prepend ['\\', c] [c] (fun _ => closesAt_escape) fun _ => rfl
  | other c rest hquote hescape ih =>
    rw [stringRest_cons hquote hescape]
    exact ih.prepend [c] [c] (fun _ => closesAt_other hquote hescape) (unescape_other hescape)

end Lexeme

/-! ### Scanning -/

/-- The first token of a text that begins with a double quote is a string literal. -/
theorem tokens_quote (file : String) (rest : List Char) : ∃ more,
    (Source.mk file (String.ofList ('"' :: rest))).tokens =
      (Reading.at file (.start ('"' :: rest)) '"' rest).token :: more := by
  have htrivia : Trivia.length ('"' :: rest) = 0 :=
    Trivia.length_cons_eq_zero.mpr ⟨rfl, fun h => absurd h (by decide)⟩
  have hskip : (Place.start ('"' :: rest)).skipTrivia = .start ('"' :: rest) := by
    rw [Place.skipTrivia, Place.start, htrivia, Place.advance]
  have hrest : (Place.start ('"' :: rest)).skipTrivia.rest = '"' :: rest := by
    rw [hskip, Place.start]
  rw [Source.tokens, Source.scan, String.toList_ofList, Scan.run_token hrest, hskip]
  exact ⟨_, rfl⟩

/-- A text that is escaped and put between double quotes is read as a string literal that stands for it, whatever follows.
    And whatever a string literal is written like, it ends at the first double quote that closes it, and stands for the
    text up to there without the backslashes. -/
theorem string_literals :
    (∀ file value rest : String, ∃ more,
      (Source.mk file (String.ofList ('"' :: (Lexeme.escape value.toList ++ '"' :: rest.toList)))).tokens =
        ⟨.stringLiteral, String.ofList ('"' :: (Lexeme.escape value.toList ++ ['"'])), value, ⟨file, 1, 1, 0⟩⟩ :: more) ∧
    ∀ s : Source, ∀ t ∈ s.tokens, t.kind = .stringLiteral → ∃ (i : Nat) (text taken : List Char),
      t.location.offset = i ∧ s.text.toList.drop i = '"' :: text ∧ t.lexeme.toList = '"' :: taken ∧
        Lexeme.Literal text taken t.value.toList := by
  constructor
  · intro file value rest
    obtain ⟨more, hmore⟩ := tokens_quote file (Lexeme.escape value.toList ++ '"' :: rest.toList)
    refine ⟨more, hmore.trans ?_⟩
    rw [Reading.at, Lexeme.read_quote, Lexeme.stringRest_escape, String.ofList_toList]
    rfl
  · intro s t ht hk
    have hne : t.kind ≠ .eof := by simp [hk]
    obtain ⟨p, c, text, hrest, -, rfl⟩ := Scan.exists_reading s t ht hne
    obtain rfl : c = '"' := Lexeme.kind_read_string.mp hk
    refine ⟨p.offset, text, (Lexeme.stringRest text).1, rfl, hrest, ?_, ?_⟩
    · simp only [Reading.at, Lexeme.read_quote, String.toList_ofList]
    · simp only [Reading.at, Lexeme.read_quote, String.toList_ofList]
      exact Lexeme.literal_stringRest text

/-- Two backslashes do not escape the quote behind them; and the next one begins another literal. -/
theorem string_literals_backslash :
    let t : Token := ⟨.stringLiteral, "\"\\\\\"", "\\", ⟨"x", 1, 1, 0⟩⟩
    t ∈ (Source.mk "x" "\"\\\\\"\"").tokens ∧ t.kind = .stringLiteral ∧
      Lexeme.Literal ['\\', '\\', '"', '"'] ['\\', '\\', '"'] ['\\'] := by
  intro t
  have hfirst : (Source.mk "x" "\"\\\\\"\"").tokens[0]? = some t := by decide +kernel
  have ht := List.mem_of_getElem? hfirst
  obtain ⟨i, text, taken, hi, htext, htaken, h⟩ := string_literals.2 _ t ht rfl
  obtain rfl : 0 = i := Int.ofNat.inj hi
  obtain rfl : ['\\', '\\', '"', '"'] = text := by simpa using htext
  obtain rfl : ['\\', '\\', '"'] = taken := by simpa [t] using htaken
  exact ⟨ht, rfl, by simpa [t] using h⟩

end Curly
