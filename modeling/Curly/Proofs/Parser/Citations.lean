import Curly.Proofs.Parser.Pace
import Curly.Proofs.Parser.Sentences

/-! Reports advance with the input. Which tokens are cited, in which order and how often, is decided by the kinds of the
    tokens; so it can be told from tokens on lines of their own, of which each is known by its line. Main statement:
    `parse_cites`. -/

namespace Curly

/-! ### Tokens on lines of their own -/

/-- The tokens, each on the line of its index. -/
def Token.numbered (tokens : List Token) : List Token :=
  tokens.mapIdx fun i t => { t with location := { t.location with line := i } }

/-- The index of a token that is on the line of its index. -/
def Token.number (t : Token) : Nat := t.line.toNat

section
variable {tokens : List Token} {t : Token} {i : Nat}

theorem number_of_numbered (h : (Token.numbered tokens)[i]? = some t) : t.number = i := by
  rw [Token.numbered, List.getElem?_mapIdx] at h
  obtain ⟨u, -, rfl⟩ := Option.map_eq_some_iff.mp h
  rfl

theorem numbered_of_mem (h : t ∈ Token.numbered tokens) : (Token.numbered tokens)[t.number]? = some t := by
  obtain ⟨i, hi⟩ := List.mem_iff_getElem?.mp h
  rwa [number_of_numbered hi]

theorem pairwise_numbered (tokens : List Token) : (Token.numbered tokens).Pairwise fun t u => t.line < u.line := by
  refine List.pairwise_iff_getElem.mpr fun i j hi hj hij => ?_
  simpa [Token.numbered, Token.line] using hij

theorem kinds_numbered (tokens : List Token) : (Token.numbered tokens).map Token.kind = tokens.map Token.kind := by
  refine List.ext_getElem? fun i => ?_
  simp [Token.numbered, Function.comp_def]

end

/-! ### The input -/

section
variable {tokens l : List Token}

/-- The tokens before the first end of the input, and that end. -/
theorem input_eq (tokens : List Token) : ∃ ts stop, Token.input tokens = ts ++ [stop] ∧
    ts.length = Token.endIndex tokens ∧ (∀ t ∈ ts, t.kind ≠ .eof) ∧ stop.kind = .eof := by
  refine ⟨_, _, rfl, ?_, fun t ht => by simpa using List.mem_takeWhile_imp ht, ?_⟩
  · rw [← takeWhile_close, List.takeWhile_eq_take_findIdx_not, List.length_take]
    simp only [bne, Bool.not_not]
    exact Nat.min_eq_left (endIndex_lt tokens).le
  · cases hf : tokens.find? (·.kind == .eof) with
    | none => rfl
    | some t => simpa using List.find?_some hf

/-- Tokens of the kinds of an input are an input in whole. -/
theorem input_of_kinds (h : l.map Token.kind = (Token.input tokens).map Token.kind) :
    Token.input l = l ∧ Token.close l = l := by
  obtain ⟨ts, stop, hinput, -, hts, hstop⟩ := input_eq tokens
  rw [hinput, List.map_append] at h
  obtain ⟨us, rest, rfl, hus, hrest⟩ := List.map_eq_append_iff.mp h
  obtain ⟨u, rfl, hu⟩ := List.map_eq_singleton_iff.mp hrest
  have hu : u.kind = .eof := hu.trans hstop
  have hne : ∀ t ∈ us, t.kind ≠ .eof := fun t ht hk => by
    have hmem : t.kind ∈ ts.map Token.kind := hus ▸ List.mem_map_of_mem ht
    obtain ⟨t', ht', heq⟩ := List.mem_map.mp hmem
    exact hts t' ht' (heq.trans hk)
  refine ⟨?_, by simp [Token.close, hu]⟩
  rw [Token.input, List.takeWhile_append_of_pos (by simpa using hne), List.takeWhile_cons_of_neg (by simp [hu]),
    List.append_nil, List.find?_append, List.find?_eq_none.mpr (by simpa using hne)]
  simp [hu]

end

/-! ### What is cited -/

namespace Outcome
variable {α : Type}

/-- The token at which the parse was broken off. -/
def brokenOffAt (s : Setting) : Outcome α → List Token
  | .done .. => []
  | .stopped _ d _ => [s.current d]

/-- The tokens at which the diagnostics stand, but for missing semicolons. -/
def cited (s : Setting) (o : Outcome α) : List Token :=
  (o.mistakes.filter (·.code ≠ "P002")).map Mistake.token ++ o.brokenOffAt s

end Outcome

namespace Parser
variable {c : Cursor} {o : Outcome Program}

/-- A token that is no end of the input is cited twice at most, also if the parse is broken off there. -/
theorem Paced.count_cited_le (h : Paced 1 c o) (hc : c.Open) (s : Setting) {t : Token} (ht : t.kind ≠ .eof) :
    (o.cited s).count t ≤ 2 := by
  have hcount : ((o.mistakes.filter (·.code ≠ "P002")).map Mistake.token).count t = o.citations.count t :=
    (List.count_filter (by simpa using ht)).symm
  rw [Outcome.cited, List.count_append, hcount]
  cases o with
  | done => exact h.twice t
  | stopped stop d log =>
    obtain ⟨u, rest, hu⟩ := (h.onward.isOpen hc).ahead
    change d.ahead = u :: rest at hu
    have hcurrent : s.current d = u := current_eq hu s
    show _ + [s.current d].count t ≤ 2
    rw [hcurrent, List.count_singleton]
    split
    · next heq =>
      have hlast : t ∈ (Outcome.stopped (α := Program) stop d log).cursor.ahead.head? := by
        rw [← beq_iff_eq.mp heq]
        exact congrArg List.head? hu
      exact Nat.add_le_add_right (h.last t hlast) 1
    · exact h.twice t

/-- Every token that is cited was ahead. -/
theorem InOrder.mem_of_cited {K : Mistake → Prop} (h : InOrder K (fun _ => False) c o) (hc : c.Open) (s : Setting) :
    ∀ t ∈ o.cited s, t ∈ c.ahead := by
  refine List.forall_mem_append.mpr ⟨fun t ht => ?_, ?_⟩
  · obtain ⟨m, hm, rfl⟩ := List.mem_map.mp ht
    exact (h.each m (List.mem_of_mem_filter hm)).ahead.resolve_right id
  · cases o with
    | done => exact fun _ ht => by cases ht
    | stopped stop d log =>
      obtain ⟨u, rest, hu⟩ := (h.onward.isOpen hc).ahead
      change d.ahead = u :: rest at hu
      refine List.forall_mem_singleton.mpr (h.onward.suffix.subset ?_)
      show s.current d ∈ d.ahead
      rw [Setting.current, hu]
      exact List.mem_cons_self

end Parser

/-! ### Reports -/

/-- The diagnostics of a report, but for missing semicolons. -/
def Report.misplaced (r : Report) : List Diagnostic := r.errors.filter (·.code ≠ some "P002")

/-- The diagnostic is located at the token with this index. -/
def Diagnostic.StandsAt (tokens : List Token) (i : Nat) (d : Diagnostic) : Prop :=
  ∃ t, (Token.input tokens)[i]? = some t ∧ d.location = t.location

/-- The tokens that a parse cites. -/
def Token.cited (tokens : List Token) (interruption : Option Interruption) : List Token :=
  (Parser.program (.ofTokens tokens interruption) (.ofTokens tokens)).cited (.ofTokens tokens interruption)

section
variable (tokens : List Token) (interruption : Option Interruption)

theorem locations_misplaced : (Report.ofTokens tokens interruption).misplaced.map Diagnostic.location =
    (Token.cited tokens interruption).map Token.location := by
  have hmistakes : ∀ ms : List Mistake,
      ((ms.map Mistake.toDiagnostic).filter (·.code ≠ some "P002")).map Diagnostic.location =
        ((ms.filter (·.code ≠ "P002")).map Mistake.token).map Token.location := by
    intro ms
    rw [List.filter_map, List.map_map, List.map_map]
    simp only [Function.comp_def, Mistake.toDiagnostic, ne_eq, Option.some.injEq]
  rw [Token.cited, Outcome.cited, List.map_append, ← hmistakes, Report.misplaced, Report.errors, List.filter_append,
    List.map_append, Report.ofTokens]
  cases Parser.program (.ofTokens tokens interruption) (.ofTokens tokens) <;> rfl

/-- Where the kinds of the tokens are the same, so are the indices. -/
theorem sameIndex_of_kinds {tokens' : List Token}
    (h : (Token.input tokens).map Token.kind = (Token.input tokens').map Token.kind) :
    List.Forall₂ (Diagnostic.SameIndex tokens tokens') (Report.ofTokens tokens interruption).misplaced
      (Report.ofTokens tokens' interruption).misplaced := by
  have hcorrespond := Pairing.errors_correspond
    (Parser.parallel_program _ _ (Pairing.cursors_ofInputs interruption h)) (.ofTokens tokens) (.ofTokens tokens')
  refine (List.rel_filter (fun d e hde => ?_) hcorrespond).imp ?_
  · simp only [hde.1]
  · rintro d e ⟨hcode, t, u, ⟨n, ht, hu⟩, hd, he⟩
    exact ⟨hcode, n, t, u, ht, hu, hd, he⟩

variable {tokens}

theorem mem_close_of_cited (h : Token.Sorted tokens) : ∀ t ∈ Token.cited tokens interruption, t ∈ Token.close tokens :=
  (Parser.ordered_program _ _ (open_ofTokens tokens) (sorted_close h)).mem_of_cited (open_ofTokens tokens) _

/-- Tokens that are in order are cited in this order. -/
theorem pairwise_cited (h : Token.Sorted tokens) :
    (Token.cited tokens interruption).Pairwise fun t u => t.line ≤ u.line := by
  have herrors := (errors_inOrder h interruption).sublist (List.filter_sublist (p := (·.code ≠ some "P002")))
  have hlocations : ((Report.ofTokens tokens interruption).misplaced.map Diagnostic.location).Pairwise
      fun l l' => l.line ≤ l'.line := by
    refine List.pairwise_map.mpr (herrors.imp_of_mem fun _ he hde => hde.resolve_right fun hmissing => ?_)
    exact of_decide_eq_true (List.mem_filter.mp he).2 hmissing.1
  rw [locations_misplaced] at hlocations
  have hcited := List.pairwise_map.mp hlocations
  exact hcited

/-- Tokens that differ from one another are cited twice at most, but for the end of the input. -/
theorem count_cited_le (h : (Token.close tokens).Nodup) {t : Token} (ht : t.kind ≠ .eof) :
    (Token.cited tokens interruption).count t ≤ 2 :=
  (Parser.paces_program _ _ (open_ofTokens tokens) h).count_cited_le (open_ofTokens tokens) _ ht

end

/-! ### Indices -/

/-- The indices of the tokens that are cited, told from tokens of the same kinds on lines of their own. -/
def Token.citedIndices (tokens : List Token) (interruption : Option Interruption) : List Nat :=
  (cited (numbered (input tokens)) interruption).map number

section
variable (tokens : List Token) (interruption : Option Interruption)

theorem sorted_numbered : Token.Sorted (Token.numbered tokens) := (pairwise_numbered tokens).imp Int.le_of_lt

theorem nodup_numbered : (Token.numbered tokens).Nodup := (pairwise_numbered tokens).imp fun {t u} hlt heq => by
  rw [heq] at hlt
  exact Int.lt_irrefl _ hlt

/-- All inputs of these kinds are cited at these indices. -/
theorem standsAt_citedIndices {tokens' : List Token}
    (h : (Token.input tokens').map Token.kind = (Token.input tokens).map Token.kind) :
    List.Forall₂ (Diagnostic.StandsAt tokens') (Token.citedIndices tokens interruption)
      (Report.ofTokens tokens' interruption).misplaced := by
  have hkinds := kinds_numbered (Token.input tokens)
  obtain ⟨hinput, -⟩ := input_of_kinds hkinds
  have hnumbers : Token.citedIndices tokens interruption =
      (Report.ofTokens (Token.numbered (Token.input tokens)) interruption).misplaced.map
        fun d => d.location.line.toNat := by
    have hlocations := congrArg (List.map fun l : Location => l.line.toNat)
      (locations_misplaced (Token.numbered (Token.input tokens)) interruption)
    rw [List.map_map, List.map_map] at hlocations
    exact hlocations.symm
  rw [hnumbers, List.forall₂_map_left_iff]
  refine (sameIndex_of_kinds _ interruption (by rw [hinput, hkinds, h])).imp ?_
  rintro d e ⟨-, n, t, u, ht, hu, hd, he⟩
  rw [hinput] at ht
  obtain rfl : t.location.line.toNat = n := number_of_numbered ht
  exact ⟨u, hd.symm ▸ hu, he⟩

theorem numbered_of_cited : ∀ t ∈ Token.cited (Token.numbered (Token.input tokens)) interruption,
    (Token.numbered (Token.input tokens))[t.number]? = some t := by
  intro t ht
  have hmem := mem_close_of_cited interruption (sorted_numbered _) t ht
  rw [(input_of_kinds (kinds_numbered (Token.input tokens))).2] at hmem
  exact numbered_of_mem hmem

theorem le_endIndex {i : Nat} (hi : i ∈ Token.citedIndices tokens interruption) : i ≤ Token.endIndex tokens := by
  obtain ⟨t, ht, rfl⟩ := List.mem_map.mp hi
  obtain ⟨ts, stop, hts, hlen, -, -⟩ := input_eq tokens
  have hlt := (List.getElem?_eq_some_iff.mp (numbered_of_cited tokens interruption t ht)).1
  rw [Token.numbered, List.length_mapIdx, hts, List.length_append, hlen] at hlt
  exact Nat.le_of_lt_succ hlt

theorem count_citedIndices_le {i : Nat} (hi : i < Token.endIndex tokens) :
    (Token.citedIndices tokens interruption).count i ≤ 2 := by
  have hkinds := kinds_numbered (Token.input tokens)
  obtain ⟨ts, stop, hts, hlen, hne, -⟩ := input_eq tokens
  have hits : i < ts.length := hlen.symm ▸ hi
  have hkind : (Token.numbered (Token.input tokens))[i]?.map Token.kind = some ts[i].kind := by
    rw [← List.getElem?_map, hkinds, hts, List.getElem?_map, List.getElem?_append_left hits,
      List.getElem?_eq_getElem hits]
    rfl
  obtain ⟨t, ht, htk⟩ := Option.map_eq_some_iff.mp hkind
  have hk : t.kind ≠ .eof := fun heof => hne ts[i] (List.getElem_mem hits) (htk ▸ heof)
  have hcount : (Token.citedIndices tokens interruption).count i =
      (Token.cited (Token.numbered (Token.input tokens)) interruption).count t := by
    rw [Token.citedIndices, List.count, List.count, List.countP_map]
    refine List.countP_congr fun u hu => ?_
    simp only [Function.comp_apply, beq_iff_eq]
    refine ⟨fun hui => ?_, fun hut => hut ▸ number_of_numbered ht⟩
    exact Option.some.inj ((numbered_of_cited tokens interruption u hu).symm.trans (hui ▸ ht))
  rw [hcount]
  exact count_cited_le interruption ((input_of_kinds hkinds).2.symm ▸ nodup_numbered _) hk

end

/-- Reports advance with the input. Each diagnostic is located at a token up to the first end of the input, unless it is
    that a semicolon is missing; the indices of these tokens, which the kinds of the tokens decide, do not decrease, and
    none but that of the end comes more than twice. -/
theorem parse_cites (tokens : List Token) (interruption : Option Interruption) : ∃ indices : List Nat,
    (∀ tokens', (Token.input tokens').map Token.kind = (Token.input tokens).map Token.kind →
      List.Forall₂ (Diagnostic.StandsAt tokens') indices (Report.ofTokens tokens' interruption).misplaced) ∧
      indices.Pairwise (· ≤ ·) ∧ (∀ i ∈ indices, i ≤ Token.endIndex tokens) ∧
      ∀ i < Token.endIndex tokens, indices.count i ≤ 2 :=
  ⟨Token.citedIndices tokens interruption, fun _ h => standsAt_citedIndices tokens interruption h,
    List.pairwise_map.mpr ((pairwise_cited interruption (sorted_numbered _)).imp Int.toNat_le_toNat),
    fun _ hi => le_endIndex tokens interruption hi, fun _ hi => count_citedIndices_le tokens interruption hi⟩

/-- A number after a type is cited twice: as no name, and as the beginning of no statement. -/
theorem parse_cites_number :
    let tokens := (Source.mk "x" "int 5").tokens
    let misplaced := (Report.ofTokens tokens none).misplaced
    misplaced.map Diagnostic.code = [some "P001", some "P003"] ∧ ∃ indices,
      List.Forall₂ (Diagnostic.StandsAt tokens) indices misplaced ∧ indices.Pairwise (· ≤ ·) ∧
        (∀ i ∈ indices, i ≤ Token.endIndex tokens) ∧ indices.count 1 ≤ 2 ∧ indices.length = 2 := by
  intro tokens misplaced
  have hcodes : misplaced.map Diagnostic.code = [some "P001", some "P003"] := by decide +kernel
  obtain ⟨indices, hstands, hpairwise, hle, hcount⟩ := parse_cites tokens none
  have hlength : indices.length = 2 := by
    rw [(hstands tokens rfl).length_eq, ← List.length_map (f := Diagnostic.code)]
    exact congrArg List.length hcodes
  exact ⟨hcodes, indices, hstands tokens rfl, hpairwise, hle, hcount 1 (by decide +kernel), hlength⟩

end Curly
