import Curly.Proofs.Token.Locality
import Curly.Token.Scanner
import Mathlib.Data.List.DropRight

/-! Whatever a scanner is asked to do, it knows where it stands: its line and its column are those of the character that
    comes next, and so are those of all tokens and warnings. Main statement: `exact_performAll`. -/

namespace Curly

/-! ### Lines and columns -/

/-- The line of an index in a text. Each line feed in front of it begins another. -/
def lineAt (text : List Char) (i : Nat) : Nat := 1 + (text.take i).count '\n'

/-- The column of an index in a text. The characters count that stand between it and the last line feed in front of it, or
    the beginning of the text. -/
def columnAt (text : List Char) (i : Nat) : Nat := 1 + ((text.take i).rtakeWhile (· != '\n')).length

/-- The location is that of an index in the text. -/
structure Location.Exact (s : Source) (l : Location) : Prop where
  file : l.file = s.file
  nonneg : 0 ≤ l.offset
  le : l.offset ≤ s.text.length
  line : l.line = lineAt s.text.toList l.offset.toNat
  column : l.column = columnAt s.text.toList l.offset.toNat

/-- The place stands in the text, and its line and its column are right. -/
structure Place.Exact (text : List Char) (p : Place) : Prop extends Place.On text p where
  line : p.line = lineAt text p.offset
  column : p.column = columnAt text p.offset

namespace Place
variable {text : List Char} {p : Place}

theorem exact_start (text : List Char) : (start text).Exact text := ⟨⟨rfl, Nat.zero_le _⟩, rfl, rfl⟩

theorem Exact.next (h : p.Exact text) : p.next.Exact text := by
  have hon : p.next.On text := h.toOn.advance 1
  cases hrest : p.rest with
  | nil =>
    have hnext : p.next = p := by rw [Place.next, hrest]
    exact hnext.symm ▸ h
  | cons c rest =>
    have htake := h.take_succ hrest
    by_cases hc : c = '\n'
    · subst hc
      have hnext : p.next = ⟨rest, p.line + 1, 1, p.offset + 1⟩ := by simp [Place.next, hrest]
      refine ⟨hon, ?_, ?_⟩
      · rw [hnext, h.line, lineAt, lineAt, htake, List.count_append, List.count_singleton_self, Nat.add_assoc]
      · rw [hnext, columnAt, htake, List.rtakeWhile_concat_neg _ _ _ (by simp)]
        rfl
    · have hnext : p.next = ⟨rest, p.line, p.column + 1, p.offset + 1⟩ := by simp [Place.next, hrest, hc]
      refine ⟨hon, ?_, ?_⟩
      · have hcount : [c].count '\n' = 0 := List.count_eq_zero.mpr (by simpa using Ne.symm hc)
        rw [hnext, h.line, lineAt, lineAt, htake, List.count_append, hcount, Nat.add_zero]
      · rw [hnext, h.column, columnAt, columnAt, htake, List.rtakeWhile_concat_pos _ _ _ (by simpa using hc),
          List.length_append, List.length_singleton, Nat.add_assoc]

theorem Exact.advance (h : p.Exact text) (n : Nat) : (p.advance n).Exact text := by
  induction n generalizing p with
  | zero => exact h
  | succ n ih => exact ih h.next

theorem Exact.location {s : Source} (h : p.Exact s.text.toList) : (p.location s.file).Exact s :=
  ⟨rfl, Int.natCast_nonneg _, Int.ofNat_le.mpr h.le, congrArg _ h.line, congrArg _ h.column⟩

end Place

/-! ### Scanning -/

/-- All that was scanned stands where it says. -/
structure Scan.Exact (s : Source) (scan : Scan) : Prop where
  stop : scan.stop.Exact s.text.toList
  tokens : ∀ t ∈ scan.tokens, t.location.Exact s
  warnings : ∀ w ∈ scan.warnings, w.location.Exact s

/-- What is read at a place is warned of there. -/
theorem Reading.location_of_warning {file : String} {p : Place} {c : Char} {rest : List Char} {w : Diagnostic}
    (h : w ∈ (Reading.at file p c rest).warning) : w.location = p.location file := by
  simp only [Reading.at] at h
  split at h
  · cases h
    rfl
  · cases h

theorem Scan.exact_run {s : Source} (p : Place) (hp : p.Exact s.text.toList) : (run s.file p).Exact s := by
  induction p using Scan.induction with
  | stop p h =>
    rw [run_stop h]
    have hstop : p.skipTrivia.Exact s.text.toList := hp.advance _
    refine ⟨hstop, ?_, List.forall_mem_nil _⟩
    exact List.forall_mem_singleton.mpr hstop.location
  | token p c rest h ih =>
    rw [run_token h]
    have hskip : p.skipTrivia.Exact s.text.toList := hp.advance _
    obtain ⟨hstop, htokens, hwarnings⟩ := ih (hskip.advance _)
    refine ⟨hstop, List.forall_mem_cons.mpr ⟨hskip.location, htokens⟩, ?_⟩
    intro w hw
    rcases List.mem_append.mp hw with hw | hw
    · rw [Reading.location_of_warning (Option.mem_toList.mp hw)]
      exact hskip.location
    · exact hwarnings w hw

/-! ### Scanners -/

namespace Scanner

/-- The scanner knows where it stands, and where the tokens and the warnings do. -/
structure Exact (s : Scanner) : Prop where
  place : s.place.Exact s.source.text.toList
  tokens : ∀ t ∈ s.tokens, t.location.Exact s.source
  warnings : ∀ w ∈ s.warnings, w.location.Exact s.source

variable {s : Scanner}

theorem exact_ofSource (source : Source) : (ofSource source).Exact :=
  ⟨Place.exact_start _, List.forall_mem_nil _, List.forall_mem_nil _⟩

theorem perform_next_nil (h : s.place.rest = []) : s.perform .next = ([], s) := by
  rw [perform, next?, Place.read?_nil h, Option.map_none]

theorem perform_next_cons {c : Char} {rest : List Char} (h : s.place.rest = c :: rest) :
    let r := Reading.at s.source.file s.place c rest
    s.perform .next = ([r.token], { s with place := r.after, warnings := s.warnings ++ r.warning.toList }) := by
  rw [perform, next?, Place.read?_cons h, Option.map_some]

/-- What one operation keeps. -/
theorem Exact.perform (h : s.Exact) (op : Operation) :
    (s.perform op).2.source = s.source ∧ (s.perform op).2.Exact ∧
      ∀ t ∈ (s.perform op).1, t.location.Exact s.source := by
  cases op with
  | run =>
    have hscan : s.source.scan.Exact s.source := Scan.exact_run _ (Place.exact_start _)
    exact ⟨rfl, ⟨hscan.stop, hscan.tokens, hscan.warnings⟩, hscan.tokens⟩
  | next =>
    cases hrest : s.place.rest with
    | nil =>
      rw [perform_next_nil hrest]
      exact ⟨rfl, h, List.forall_mem_nil _⟩
    | cons c rest =>
      rw [perform_next_cons hrest]
      refine ⟨rfl, ⟨h.place.advance _, h.tokens, fun w hw => ?_⟩, List.forall_mem_singleton.mpr h.place.location⟩
      rcases List.mem_append.mp hw with hw | hw
      · exact h.warnings w hw
      · rw [Reading.location_of_warning (Option.mem_toList.mp hw)]
        exact h.place.location
  | skipTrivia => exact ⟨rfl, ⟨h.place.advance _, h.tokens, h.warnings⟩, List.forall_mem_nil _⟩
  | advance => exact ⟨rfl, ⟨h.place.advance _, h.tokens, h.warnings⟩, List.forall_mem_nil _⟩
  | advanceBy count => exact ⟨rfl, ⟨h.place.advance _, h.tokens, h.warnings⟩, List.forall_mem_nil _⟩

theorem Exact.performAll (h : s.Exact) (ops : List Operation) :
    (s.performAll ops).2.source = s.source ∧ (s.performAll ops).2.Exact ∧
      ∀ t ∈ (s.performAll ops).1, t.location.Exact s.source := by
  induction ops generalizing s with
  | nil => exact ⟨rfl, h, List.forall_mem_nil _⟩
  | cons op ops ih =>
    obtain ⟨hsource, hafter, hread⟩ := h.perform op
    obtain ⟨hsource', hlast, hmore⟩ := ih hafter
    refine ⟨hsource'.trans hsource, hlast, fun t ht => ?_⟩
    rcases List.mem_append.mp ht with ht | ht
    · exact hread t ht
    · exact hsource ▸ hmore t ht

end Scanner

/-- Whatever operations a scanner carries out, in whatever order, it stands in the text, on the line and in the column of
    the character that comes next; and all tokens that were read, all tokens of the last run and all warnings say on
    which line and in which column they stand. -/
theorem exact_performAll (source : Source) (ops : List Scanner.Operation) :
    ((Scanner.ofSource source).performAll ops).2.source = source ∧
    ((Scanner.ofSource source).performAll ops).2.Exact ∧
    ∀ t ∈ ((Scanner.ofSource source).performAll ops).1, t.location.Exact source :=
  (Scanner.exact_ofSource source).performAll ops

/-- A line feed in a string literal begins a line, and moving on stops at the end of the text. -/
example : let (read, s) := (Scanner.ofSource ⟨"x", "\"a\n\" b"⟩).performAll [.next, .skipTrivia, .advanceBy 5, .next]
    read.map Token.lexeme = ["\"a\n\""] ∧ (s.place.line, s.place.column, s.place.offset) = (2, 4, 6) := by cbv

end Curly
