import Curly.Command.Given
import Curly.Proofs.Parser.Totality

/-! The command agrees with the parser on every file, whatever flags are given. Its status is the verdict of a strict
    parse, what it prints is the tokens, the tree and the diagnostics of that parse, and each flag decides on a part of
    the output of its own. Main statement: `run_agrees`. -/

namespace Curly

/-! ### Paths -/

namespace Directory

theorem follow_ne_nullCharacter (d : Directory) (component : String) (t : Target) :
    d.follow component t ≠ .error .nullCharacter := by
  unfold follow
  repeat' split
  all_goals simp

theorem foldlM_follow_ne_nullCharacter (d : Directory) (parts : List String) (t : Target) :
    parts.foldlM (fun t component => d.follow component t) t ≠ .error .nullCharacter := by
  induction parts generalizing t with
  | nil => simp [pure, Except.pure]
  | cons component parts ih =>
    rw [List.foldlM_cons]
    cases ht : d.follow component t with
    | error e => exact fun he => follow_ne_nullCharacter d component t (ht.trans he)
    | ok t' => exact ih t'

/-- Nothing but a null character in the path is told as such. -/
theorem read_eq_nullCharacter_iff {d : Directory} {path : String} :
    d.read path = .error .nullCharacter ↔ Char.ofNat 0 ∈ path.toList := by
  rw [read]
  by_cases hnull : Char.ofNat 0 ∈ path.toList
  · simp [hnull]
  · refine iff_of_false (fun h => ?_) hnull
    rw [if_neg (by simpa using hnull)] at h
    split at h
    · cases h
    · split at h
      · cases h
      · cases ht : (components path).foldlM (fun t component => d.follow component t)
            (if path.toList.head? = some '/' then Target.above else .here) with
        | error e =>
          simp only [ht] at h
          cases h
          exact foldlM_follow_ne_nullCharacter d _ _ ht
        | ok t =>
          simp only [ht] at h
          cases t <;> cases h

end Directory

namespace Command

variable {s : State} {o : Options}

/-! ### Reading the flags -/

namespace State

theorem flags_word (s : State) (w : String) : (s.word w).flags = s.flags := by
  unfold word
  split <;> rfl

theorem flags_separated (s : State) (words : List String) : (s.separated words).flags = s.flags := by
  unfold separated
  split <;> rfl

theorem finish_demanded (h : s.finish = .ok (.analyse o)) : o.Demanded s.flags := by
  unfold finish at h
  split at h
  · cases h
  · cases h
    constructor <;> simp
  · cases h

/-- Unless help is asked for, the flags of an argument are added to those before it. -/
theorem read_cons {after : Option (List String)} {text : String} {a : Argument} {rest : List (String × Argument)}
    (h : s.read after ((text, a) :: rest) = .ok (.analyse o)) :
    ∃ next : State, next.flags = s.flags ++ a.flags ∧ next.read after rest = .ok (.analyse o) := by
  cases a with
  | word => exact ⟨s.word text, by rw [flags_word, Argument.flags, List.append_nil], h⟩
  | unknown => exact ⟨{ s with fresh := false, surplus := s.surplus ++ [text] }, (List.append_nil _).symm, h⟩
  | flag f =>
    -- help would be given before any further argument is read
    change (if [f].contains Flag.help then Except.ok Request.help else _) = _ at h
    split at h
    · cases h
    · exact ⟨_, rfl, h⟩
  | letter f tail =>
    cases hj : joinedFlags f tail with
    | error e =>
      simp only [read, hj] at h
      cases h
    | ok flags =>
      simp only [read, hj] at h
      change (if flags.contains Flag.help then Except.ok Request.help else _) = _ at h
      split at h
      · cases h
      · exact ⟨_, by rw [Argument.flags, hj]; rfl, h⟩
  | valued f value => cases h

/-- Options that were read are as the flags demand that were given before and those of the arguments. -/
theorem read_demanded {after : Option (List String)} {classified : List (String × Argument)}
    (h : s.read after classified = .ok (.analyse o)) :
    o.Demanded (s.flags ++ classified.flatMap fun c => c.2.flags) := by
  induction classified generalizing s with
  | nil =>
    rw [List.flatMap_nil, List.append_nil]
    cases after with
    | none => exact finish_demanded h
    | some words => exact flags_separated s words ▸ finish_demanded h
  | cons c rest ih =>
    obtain ⟨next, hflags, h⟩ := read_cons h
    rw [List.flatMap_cons, ← List.append_assoc, ← hflags]
    exact ih h

end State

theorem flatMap_classified {before : List String} {classified : List (String × Argument)}
    (h : (before.mapM fun text => return (text, ← classify text)) = Except.ok classified) :
    (classified.flatMap fun c => c.2.flags) = before.flatMap flagsOf := by
  induction before generalizing classified with
  | nil =>
    cases h
    rfl
  | cons text before ih =>
    rw [List.mapM_cons] at h
    cases ha : classify text with
    | error e =>
      rw [ha] at h
      cases h
    | ok a =>
      rw [ha] at h
      cases hrest : before.mapM fun text => return (text, ← classify text) with
      | error e =>
        rw [hrest] at h
        cases h
      | ok rest =>
        rw [hrest] at h
        cases h
        rw [List.flatMap_cons, List.flatMap_cons, ih hrest, flagsOf, ha]

theorem demanded_of_readArguments {arguments : List String} (h : readArguments arguments = .ok (.analyse o)) :
    o.Demanded (givenFlags arguments) := by
  simp only [readArguments] at h
  cases hc : (arguments.takeWhile (· != "--")).mapM fun text => return (text, ← classify text) with
  | error e =>
    rw [hc] at h
    cases h
  | ok classified =>
    rw [hc] at h
    rw [givenFlags, ← flatMap_classified hc]
    exact State.read_demanded h

/-! ### Every combination of flags -/

theorem classify_spelling : ∀ g ∈ Flag.spellings, classify g.1 = .ok (.flag g.2) := by
  decide

theorem spelling_ne : ∀ g ∈ Flag.spellings, (g.1 != "--") = true := by
  decide

section
variable {given : List (String × Flag)} (hgiven : ∀ g ∈ given, g ∈ Flag.spellings) (file : String)
include hgiven

theorem takeWhile_spell : (spell given file).takeWhile (· != "--") = given.map Prod.fst := by
  rw [spell, List.takeWhile_append_of_pos, List.takeWhile_cons_of_neg (by simp), List.append_nil]
  intro text htext
  obtain ⟨g, hg, rfl⟩ := List.mem_map.mp htext
  exact spelling_ne g (hgiven g hg)

theorem givenFlags_spell : givenFlags (spell given file) = given.map Prod.snd := by
  rw [givenFlags, takeWhile_spell hgiven file]
  induction given with
  | nil => rfl
  | cons g given ih =>
    rw [List.forall_mem_cons] at hgiven
    rw [List.map_cons, List.map_cons, List.flatMap_cons, ih hgiven.2, flagsOf, classify_spelling g hgiven.1]
    rfl

theorem mapM_spell : ((given.map Prod.fst).mapM fun text => return (text, ← classify text)) =
    Except.ok (given.map fun g => (g.1, Argument.flag g.2)) := by
  induction given with
  | nil => rfl
  | cons g given ih =>
    rw [List.forall_mem_cons] at hgiven
    rw [List.map_cons, List.mapM_cons, classify_spelling g hgiven.1, ih hgiven.2]
    rfl

end

/-- Flags other than help are taken up one by one, and then the file behind them. -/
theorem read_spell {given : List (String × Flag)} (hhelp : ∀ g ∈ given, g.2 ≠ .help) (file : String)
    (flags : List Flag) : ∃ o, o.file = file ∧
      State.read ⟨none, false, flags, []⟩ (some [file]) (given.map fun g => (g.1, Argument.flag g.2)) =
        .ok (.analyse o) := by
  induction given generalizing flags with
  | nil => exact ⟨_, rfl, rfl⟩
  | cons g given ih =>
    rw [List.forall_mem_cons] at hhelp
    have hne : [g.2].contains Flag.help = false := by simpa using hhelp.1.symm
    obtain ⟨o, hfile, hread⟩ := ih hhelp.2 (flags ++ [g.2])
    refine ⟨o, hfile, ?_⟩
    change (if [g.2].contains Flag.help then Except.ok Request.help
      else State.read ⟨none, false, flags ++ [g.2], []⟩ _ _) = _
    rw [hne]
    exact hread

/-- Every file can be asked for with every combination of flags other than help, in all spellings. -/
theorem readArguments_spell {given : List (String × Flag)} (hgiven : ∀ g ∈ given, g ∈ Flag.spellings)
    (hhelp : ∀ g ∈ given, g.2 ≠ .help) (file : String) :
    ∃ o, o.file = file ∧ readArguments (spell given file) = .ok (.analyse o) := by
  have hlength : (given.map Prod.fst).length < (spell given file).length := by simp [spell]
  have hdrop : (spell given file).drop ((given.map Prod.fst).length + 1) = [file] := by
    rw [spell, List.drop_append]
    simp
  simp only [readArguments, takeWhile_spell hgiven file, if_pos hlength, hdrop, mapM_spell hgiven]
  exact read_spell hhelp file []

/-! ### What is logged -/

theorem isRecord_of {heading : String} (level origin start : String) (hlevel : level ∈ ["DEBUG", "INFO"])
    (hheading : heading = level ++ " minijava." ++ origin ++ ": " ++ start) (message : String) :
    IsRecord (heading ++ message) :=
  ⟨level, origin, start ++ message, hlevel, by rw [hheading, String.append_assoc]⟩

theorem isRecord_scanLog (file : String) (scan : Scan) : ∀ line ∈ scanLog file scan, IsRecord line := by
  intro line hline
  rcases List.mem_cons.mp hline with rfl | hline
  · simp only [String.append_assoc]
    exact isRecord_of "DEBUG" "lexer.lexer" "" (by decide) (by decide) _
  · obtain ⟨w, -, rfl⟩ := List.mem_map.mp hline
    exact isRecord_of "INFO" "cli" "" (by decide) (by decide) _

theorem isRecord_parseLog (report : Report) : ∀ line ∈ parseLog report, IsRecord line := by
  intro line hline
  rcases List.mem_append.mp hline with hline | hline
  · obtain ⟨e, -, he⟩ := List.mem_filterMap.mp hline
    cases e with
    | resumed ahead skipped =>
      cases he
      simp only [String.append_assoc]
      exact isRecord_of "DEBUG" "parser.parser" "resynchronized from token " (by decide) (by decide) _
    | began _ | read _ | found _ => cases he
  · split at hline
    · cases hline
    · obtain rfl := List.mem_singleton.mp hline
      simp only [String.append_assoc]
      exact isRecord_of "DEBUG" "parser.parser" "parsed " (by decide) (by decide) _

theorem isRecord_logOf (source : Source) : ∀ line ∈ logOf source, IsRecord line :=
  List.forall_mem_append.mpr ⟨isRecord_scanLog _ _, isRecord_parseLog _⟩

/-! ### Agreement -/

/-- A text that is parsed without interruption has a tree, and there is something wrong with it exactly if a strict parse
    fails. -/
theorem status_parse (source : Source) : (∃ root, (source.parse none).root = some root) ∧
    status (source.parse none) = if (source.parse none).strict.isOk then 0 else 1 := by
  obtain ⟨p, -, -, -, -, -, hroot, hfatal⟩ := exists_program source.tokens
  rw [← Source.parse] at hroot hfatal
  refine ⟨⟨_, hroot⟩, ?_⟩
  rw [status, Report.ok, hroot, Report.strict, hfatal, Report.hasErrors]
  cases (source.parse none).errors <;> rfl

theorem analyse_eq {options : Options} {source : Source} {root : Tree} (hroot : (source.parse none).root = some root) :
    analyse options source none =
      { status := status (source.parse none)
        out :=
          (if options.tokens then "Tokens:\n" ++ Token.listing source.tokens false ++ "\n\n" else "") ++
          (if options.tree then "Syntax tree:\n" ++ root.outline ++ "\n" else "")
        err :=
          (if options.verbose then String.join ((logOf source).map (· ++ "\n")) else "") ++
          diagnosticsBlock (source.parse none).diagnostics } := by
  have hparse : Report.ofTokens source.scan.tokens none = source.parse none := rfl
  obtain ⟨file, tokens, tree, verbose⟩ := options
  simp only [analyse, hparse, hroot]
  cases verbose <;> rfl

/-- The command agrees with the parser. Every file can be asked for with every combination of flags; and of a text that
    can be read at the path that is asked for, it gives status 0 if the strict parse succeeds and 1 if not. It prints
    the tokens exactly if they are demanded, the tree unless it is declined, and the diagnostics, with the log in front
    of them if it is demanded. Without a text it gives status 2 and prints nothing on the standard output, except that
    a path with a null character, and no other, is an error of the caller, as it is to the parser. -/
theorem run_agrees (read : String → Except FileError (List UInt8)) :
    (∀ (given : List (String × Flag)) (file : String), (∀ g ∈ given, g ∈ Flag.spellings ∧ g.2 ≠ .help) →
      givenFlags (spell given file) = given.map Prod.snd ∧
        ∃ o, o.file = file ∧ readArguments (spell given file) = .ok (.analyse o)) ∧
    (∀ (d : Directory) path, d.read path = .error .nullCharacter ↔ Char.ofNat 0 ∈ path.toList) ∧
    ∀ arguments o, readArguments arguments = .ok (.analyse o) →
      (∀ source, Source.ofFile o.file (read o.file) = .ok source →
        ∃ root, (source.parse none).root = some root ∧ (∀ line ∈ logOf source, IsRecord line) ∧
          run arguments read none = .ok
            { status := if (source.parse none).strict.isOk then 0 else 1
              out :=
                (if .tokens ∈ givenFlags arguments then "Tokens:\n" ++ Token.listing source.tokens false ++ "\n\n"
                  else "") ++
                (if .noTree ∈ givenFlags arguments then "" else "Syntax tree:\n" ++ root.outline ++ "\n")
              err :=
                (if .verbose ∈ givenFlags arguments then String.join ((logOf source).map (· ++ "\n")) else "") ++
                diagnosticsBlock (source.parse none).diagnostics }) ∧
      (∀ e, Source.ofFile o.file (read o.file) = .error e → e ≠ .file .nullCharacter →
        ∃ err, run arguments read none = .ok ⟨2, "", err⟩) ∧
      (Source.ofFile o.file (read o.file) = .error (.file .nullCharacter) →
        run arguments read none = .error .nullCharacter) := by
  refine ⟨fun given file hgiven => ?_, fun _ _ => Directory.read_eq_nullCharacter_iff, fun arguments o h =>
    ⟨fun source hsource => ?_, fun e he hne => ?_, fun he => ?_⟩⟩
  · have hspellings : ∀ g ∈ given, g ∈ Flag.spellings := fun g hg => (hgiven g hg).1
    exact ⟨givenFlags_spell hspellings file, readArguments_spell hspellings (fun g hg => (hgiven g hg).2) file⟩
  · have hdemanded := demanded_of_readArguments h
    obtain ⟨⟨root, hroot⟩, hstatus⟩ := status_parse source
    refine ⟨root, hroot, isRecord_logOf source, ?_⟩
    simp only [run, h, hsource, analyse_eq hroot, hstatus, hdemanded.tokens, hdemanded.tree, hdemanded.verbose, ite_not]
  · simp only [run, h, he]
    exact ⟨_, rfl⟩
  · simp only [run, h, he]

/-- Of an assignment without its semicolon, a shortened flag asks for the tokens, and one behind the file for the log. -/
theorem run_agrees_shortened :
    let arguments := ["--tok", "A.java", "-v"]
    let read := Directory.read ⟨[("A.java", [120, 32, 61, 32, 49])]⟩
    let source : Source := ⟨"A.java", "x = 1"⟩
    readArguments arguments = .ok (.analyse ⟨"A.java", true, true, true⟩) ∧
      Source.ofFile "A.java" (read "A.java") = .ok source ∧
      ∃ root, (source.parse none).root = some root ∧ (∀ line ∈ logOf source, IsRecord line) ∧
        run arguments read none = .ok
          { status := if (source.parse none).strict.isOk then 0 else 1
            out :=
              (if .tokens ∈ givenFlags arguments then "Tokens:\n" ++ Token.listing source.tokens false ++ "\n\n"
                else "") ++
              (if .noTree ∈ givenFlags arguments then "" else "Syntax tree:\n" ++ root.outline ++ "\n")
            err :=
              (if .verbose ∈ givenFlags arguments then String.join ((logOf source).map (· ++ "\n")) else "") ++
              diagnosticsBlock (source.parse none).diagnostics } := by
  intro arguments read source
  have harguments : readArguments arguments = .ok (.analyse ⟨"A.java", true, true, true⟩) := by decide
  have hsource : Source.ofFile "A.java" (read "A.java") = .ok source := by decide
  exact ⟨harguments, hsource, ((run_agrees read).2.2 arguments _ harguments).1 source hsource⟩

/-- A path with a null character is neither read nor told to be unreadable. -/
theorem run_null_character :
    let path := String.ofList ['a', Char.ofNat 0, 'b']
    let read := Directory.read ⟨[]⟩
    readArguments [path] = .ok (.analyse ⟨path, false, true, false⟩) ∧
      Source.ofFile path (read path) = .error (.file .nullCharacter) ∧
      ∀ output, run [path] read none ≠ .ok output := by
  intro path read
  have harguments : readArguments [path] = .ok (.analyse ⟨path, false, true, false⟩) := by decide
  have hpath : Source.ofFile path (read path) = .error (.file .nullCharacter) := by decide
  refine ⟨harguments, hpath, fun output houtput => ?_⟩
  simp only [run, harguments, hpath] at houtput
  cases houtput

end Command
end Curly
