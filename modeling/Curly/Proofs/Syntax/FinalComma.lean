import Curly.Proofs.Syntax.Grammar
import Mathlib.Data.List.Dedup

/-! Sentences of the grammar with which arguments may end in a comma, and which of them are sentences of the grammar with
    which they may not: those in which no comma ends arguments. That is found by going through the tokens once. Main
    statement: `program_strict_iff`. -/

namespace Curly.Grammar

/-! ### Looking for the comma -/

/-- What is known of the tokens passed so far: the last of them begins parameters or a comma, or the last two are a type
    and a name, or one is in the middle of parameters with some parentheses open. -/
inductive Spot where
  | plain | type | name | comma
  | parameters (depth : Nat)
deriving DecidableEq, Repr

namespace Spot

/-- The next token is passed, unless it ends arguments after a comma. -/
def next : Spot → TokenKind → Option Spot
  | parameters depth, .leftParen => some (parameters (depth + 1))
  | parameters 0, .rightParen => some plain
  | parameters (depth + 1), .rightParen => some (parameters depth)
  | parameters depth, _ => some (parameters depth)
  | comma, .rightParen => none
  | type, .identifier => some name
  | name, .leftParen => some (parameters 0)
  | _, k => some (if k.isType then type else if k = .comma then comma else plain)

def run (p : Spot) (ks : List TokenKind) : Option Spot := ks.foldlM next p

theorem run_append (p : Spot) (ks ks' : List TokenKind) : p.run (ks ++ ks') = (p.run ks).bind (run · ks') :=
  List.foldlM_append

/-- Parentheses that are closed leave the depth as it was. -/
theorem run_closes {ks : List TokenKind} {depth : Nat} (h : closes depth ks) (n : Nat) :
    (parameters (depth + n)).run ks = some (parameters n) := by
  induction ks generalizing depth with
  | nil =>
    have hd : depth = 0 := by simpa [closes] using h
    simp [hd, run]
  | cons k ks ih =>
    show (next (parameters (depth + n)) k).bind (run · ks) = _
    unfold closes at h
    split at h
    · cases h
    split at h
    · next hr =>
      cases depth with
      | zero => cases h
      | succ depth =>
        rw [hr, Nat.succ_add]
        exact ih h
    · next hr =>
      split at h
      · next hl =>
        rw [hl]
        have := ih h
        rw [Nat.succ_add] at this
        exact this
      · next hl =>
        have hnext : next (parameters (depth + n)) k = some (parameters (depth + n)) := by
          cases k <;> first | rfl | exact absurd rfl hl | exact absurd rfl hr
        rw [hnext]
        exact ih h

end Spot

/-- No comma ends arguments. -/
def NoFinalComma (ks : List TokenKind) : Prop := (Spot.plain.run ks).isSome

instance (ks : List TokenKind) : Decidable (NoFinalComma ks) := inferInstanceAs (Decidable (_ = true))

/-! ### Where rules lead -/

/-- The symbols whose sentences can follow a comma. -/
def Symbol.followsComma : Symbol → Bool
  | .condition | .expression | .term | .factor => true
  | _ => false

namespace Rule

/-- The spots to which the sentences of a rule lead, as far as its parts tell; none if they may hold a comma that ends
    arguments. -/
def leads : Rule → Spot → Option (List Spot)
  | empty, p => some [p]
  | token admits, p => ((TokenKind.all.filter admits).mapM p.next).map List.dedup
  | balanced, p => if p = .parameters 0 then some [p] else none
  | symbol s, p => if p = .plain ∨ p = .comma ∧ s.followsComma then some [.plain] else none
  | both r r', p => do
    let ps ← r.leads p
    let qss ← ps.mapM r'.leads
    return qss.flatten.dedup
  | either r r', p => do
    let ps ← r.leads p
    let qs ← r'.leads p
    return (ps ++ qs).dedup
  | many r, p => do
    let ps ← r.leads p
    if ∀ q ∈ ps, q = p then return [p] else failure

end Rule

/-- Every symbol leads where its production does. -/
theorem leads_production (s : Symbol) {p : Spot} {ps : List Spot} (h : (Rule.symbol s).leads p = some ps) :
    ∃ qs, (production false s).leads p = some qs ∧ ∀ q ∈ qs, q ∈ ps := by
  unfold Rule.leads at h
  split at h
  · next hp =>
    cases h
    obtain rfl | ⟨rfl, hs⟩ := hp
    · cases s <;> exact ⟨_, rfl, by decide⟩
    · cases s <;> first | exact ⟨_, rfl, by decide⟩ | cases hs
  · cases h

theorem mem_of_mapM {α β : Type} {f : α → Option β} {l : List α} {l' : List β} (h : l.mapM f = some l') {a : α}
    (ha : a ∈ l) : ∃ b ∈ l', f a = some b := by
  induction l generalizing l' with
  | nil => cases ha
  | cons x l ih =>
    rw [List.mapM_cons] at h
    obtain ⟨b, hb, h⟩ := Option.bind_eq_some_iff.mp h
    obtain ⟨bs, hbs, h⟩ := Option.bind_eq_some_iff.mp h
    cases h
    rcases List.mem_cons.mp ha with rfl | ha
    · exact ⟨b, List.mem_cons_self, hb⟩
    · obtain ⟨b', hb', hf⟩ := ih hbs ha
      exact ⟨b', List.mem_cons_of_mem _ hb', hf⟩

theorem mem_all (k : TokenKind) : k ∈ TokenKind.all := by
  cases k <;> decide

namespace Rule
variable {p : Spot} {qs : List Spot} {r r' : Rule}

/-- Where two rules in a row lead. -/
theorem leads_both (h : (both r r').leads p = some qs) :
    ∃ ps, r.leads p = some ps ∧ ∀ q ∈ ps, ∃ qs', r'.leads q = some qs' ∧ ∀ q' ∈ qs', q' ∈ qs := by
  obtain ⟨ps, hps, h⟩ := Option.bind_eq_some_iff.mp h
  obtain ⟨qss, hqss, h⟩ := Option.bind_eq_some_iff.mp h
  cases h
  refine ⟨ps, hps, fun q hq => ?_⟩
  obtain ⟨qs', hqs', hq'⟩ := mem_of_mapM hqss hq
  exact ⟨qs', hq', fun q' hq' => by simpa using ⟨qs', hqs', hq'⟩⟩

theorem leads_either (h : (either r r').leads p = some qs) :
    ∃ ps ps', r.leads p = some ps ∧ r'.leads p = some ps' ∧ ∀ q, q ∈ ps ∨ q ∈ ps' → q ∈ qs := by
  obtain ⟨ps, hps, h⟩ := Option.bind_eq_some_iff.mp h
  obtain ⟨ps', hps', h⟩ := Option.bind_eq_some_iff.mp h
  cases h
  exact ⟨ps, ps', hps, hps', fun q hq => by simpa using hq⟩

theorem leads_many (h : (many r).leads p = some qs) : (∃ ps, r.leads p = some ps ∧ ∀ q ∈ ps, q = p) ∧ qs = [p] := by
  obtain ⟨ps, hps, h⟩ := Option.bind_eq_some_iff.mp h
  split at h
  · next hp =>
    cases h
    exact ⟨⟨ps, hps, hp⟩, rfl⟩
  · cases h

end Rule

/-- The sentences of a rule lead where the rule does. -/
theorem run_of_matches {r : Rule} {ks : List TokenKind} (h : Matches (production false) r ks) {p : Spot}
    {ps : List Spot} (hp : r.leads p = some ps) : ∃ q ∈ ps, p.run ks = some q := by
  induction h generalizing p ps with
  | empty =>
    cases hp
    exact ⟨p, List.mem_singleton_self _, rfl⟩
  | @token admits k hk =>
    obtain ⟨qs, hqs, rfl⟩ := Option.map_eq_some_iff.mp hp
    obtain ⟨q, hq, hnext⟩ := mem_of_mapM hqs (List.mem_filter.mpr ⟨mem_all k, hk⟩)
    refine ⟨q, List.mem_dedup.mpr hq, ?_⟩
    show (p.next k).bind (Spot.run · []) = some q
    rw [hnext]
    rfl
  | balanced hks =>
    unfold Rule.leads at hp
    split at hp
    · next hp' =>
      cases hp
      rw [hp']
      exact ⟨_, List.mem_singleton_self _, Spot.run_closes hks 0⟩
    · cases hp
  | symbol _ ih =>
    obtain ⟨qs, hqs, hsub⟩ := leads_production _ hp
    obtain ⟨q, hq, hrun⟩ := ih hqs
    exact ⟨q, hsub q hq, hrun⟩
  | both _ _ ih ih' =>
    obtain ⟨qs, hqs, hnext⟩ := Rule.leads_both hp
    obtain ⟨q, hq, hrun⟩ := ih hqs
    obtain ⟨qs', hqs', hsub⟩ := hnext q hq
    obtain ⟨q', hq', hrun'⟩ := ih' hqs'
    exact ⟨q', hsub q' hq', by rw [Spot.run_append, hrun, Option.bind_some, hrun']⟩
  | left _ ih =>
    obtain ⟨qs, _, hqs, -, hsub⟩ := Rule.leads_either hp
    obtain ⟨q, hq, hrun⟩ := ih hqs
    exact ⟨q, hsub q (.inl hq), hrun⟩
  | right _ ih =>
    obtain ⟨_, qs, -, hqs, hsub⟩ := Rule.leads_either hp
    obtain ⟨q, hq, hrun⟩ := ih hqs
    exact ⟨q, hsub q (.inr hq), hrun⟩
  | done =>
    obtain ⟨-, rfl⟩ := Rule.leads_many hp
    exact ⟨p, List.mem_singleton_self _, rfl⟩
  | again _ _ ih ih' =>
    obtain ⟨⟨qs, hqs, hback⟩, rfl⟩ := Rule.leads_many hp
    obtain ⟨q, hq, hrun⟩ := ih hqs
    obtain rfl := hback q hq
    obtain ⟨q', hq', hrun'⟩ := ih' hp
    exact ⟨q', hq', by rw [Spot.run_append, hrun, Option.bind_some, hrun']⟩

/-! ### Leaving the comma out of the grammar -/

namespace Rule

/-- Only expressions occur in the rule. -/
def ofExpressions : Rule → Bool
  | empty | token _ | balanced => true
  | symbol s => s.followsComma
  | both r r' | either r r' => r.ofExpressions && r'.ofExpressions
  | many r => r.ofExpressions

end Rule

/-- Expressions hold no arguments, so the comma after arguments does not matter to them. -/
theorem matches_ofExpressions {r : Rule} {ks : List TokenKind} (h : Matches (production true) r ks)
    (hr : r.ofExpressions) : Matches (production false) r ks := by
  induction h with
  | empty => exact .empty
  | token hk => exact .token hk
  | balanced hks => exact .balanced hks
  | @symbol s ks _ ih =>
    have hs : production true s = production false s ∧ (production true s).ofExpressions := by
      cases s <;> first | exact ⟨rfl, rfl⟩ | cases hr
    exact .symbol (hs.1 ▸ ih hs.2)
  | both _ _ ih ih' =>
    have hr := Bool.and_eq_true_iff.mp hr
    exact .both (ih hr.1) (ih' hr.2)
  | left _ ih => exact .left (ih (Bool.and_eq_true_iff.mp hr).1)
  | right _ ih => exact .right (ih (Bool.and_eq_true_iff.mp hr).2)
  | done => exact .done
  | again _ _ ih ih' => exact .again (ih hr) (ih' hr)

/-- Arguments end in a comma, or they are arguments by the strict grammar. -/
theorem matches_arguments {ks : List TokenKind} (h : Matches (production true) (production true .arguments) ks) :
    Matches (production false) (.symbol .arguments) ks ∨ Spot.plain.run ks = none := by
  obtain ⟨_, _, rfl, hl, h⟩ := matches_both.mp h
  obtain ⟨_, _, rfl, hin, h⟩ := matches_both.mp h
  obtain ⟨_, _, rfl, hr, h⟩ := matches_both.mp h
  obtain rfl := matches_empty.mp h
  rcases matches_either.mp hin with hin | hin
  · obtain ⟨es, _, rfl, he, hin⟩ := matches_both.mp hin
    obtain ⟨more, _, rfl, hmore, hin⟩ := matches_both.mp hin
    obtain ⟨_, _, rfl, hcomma, hin⟩ := matches_both.mp hin
    obtain rfl := matches_empty.mp hin
    have he := matches_ofExpressions he rfl
    have hmore := matches_ofExpressions hmore rfl
    rcases matches_either.mp hcomma with hcomma | hcomma
    · obtain rfl := matches_kind.mp hl
      obtain rfl := matches_kind.mp hr
      obtain rfl := matches_kind.mp hcomma
      obtain ⟨_, hq, hrun⟩ := run_of_matches he (p := .plain) rfl
      obtain rfl := List.mem_singleton.mp hq
      obtain ⟨_, hq, hrun'⟩ := run_of_matches hmore (p := .plain) rfl
      obtain rfl := List.mem_singleton.mp hq
      have hopen : Spot.plain.run [.leftParen] = some .plain := rfl
      right
      rw [Spot.run_append, hopen, Option.bind_some, Spot.run_append, Spot.run_append, hrun, Option.bind_some,
        Spot.run_append, hrun', Option.bind_some]
      rfl
    · obtain rfl := matches_empty.mp hcomma
      refine .inl (.symbol (.both (matches_kind.mpr (matches_kind.mp hl)) (.both (.left ?_) (.both ?_ .empty))))
      · exact .both he (.both hmore (.both .empty .empty))
      · exact matches_kind.mpr (matches_kind.mp hr)
  · obtain rfl := matches_empty.mp hin
    refine .inl (.symbol (.both (matches_kind.mpr (matches_kind.mp hl)) (.both (.right .empty) (.both ?_ .empty))))
    exact matches_kind.mpr (matches_kind.mp hr)

/-- What is a sentence only with a comma at the end of arguments, has such a comma. -/
theorem matches_strict_or {r : Rule} {ks : List TokenKind} (h : Matches (production true) r ks) {p : Spot}
    {ps : List Spot} (hp : r.leads p = some ps) : Matches (production false) r ks ∨ p.run ks = none := by
  induction h generalizing p ps with
  | empty => exact .inl .empty
  | token hk => exact .inl (.token hk)
  | balanced hks => exact .inl (.balanced hks)
  | @symbol s ks h ih =>
    by_cases hs : s = .arguments
    · subst hs
      have hplain : p = .plain := by
        unfold Rule.leads at hp
        split at hp
        · next hp' => simpa [Symbol.followsComma] using hp'
        · cases hp
      exact hplain ▸ matches_arguments h
    · have heq : production true s = production false s := by
        cases s <;> first | rfl | exact absurd rfl hs
      obtain ⟨qs, hqs, -⟩ := leads_production s hp
      exact (ih (heq ▸ hqs)).imp_left fun h => .symbol (heq ▸ h)
  | both _ _ ih ih' =>
    obtain ⟨qs, hqs, hnext⟩ := Rule.leads_both hp
    rw [Spot.run_append]
    rcases ih hqs with h | h
    · obtain ⟨q, hq, hrun⟩ := run_of_matches h hqs
      obtain ⟨qs', hqs', -⟩ := hnext q hq
      rw [hrun]
      exact (ih' hqs').imp_left h.both
    · exact .inr (by rw [h, Option.bind_none])
  | left _ ih =>
    obtain ⟨qs, _, hqs, -, -⟩ := Rule.leads_either hp
    exact (ih hqs).imp_left .left
  | right _ ih =>
    obtain ⟨_, qs, -, hqs, -⟩ := Rule.leads_either hp
    exact (ih hqs).imp_left .right
  | done => exact .inl .done
  | again _ _ ih ih' =>
    obtain ⟨⟨qs, hqs, hback⟩, -⟩ := Rule.leads_many hp
    rw [Spot.run_append]
    rcases ih hqs with h | h
    · obtain ⟨q, hq, hrun⟩ := run_of_matches h hqs
      rw [hrun, hback q hq]
      exact (ih' hp).imp_left h.again
    · exact .inr (by rw [h, Option.bind_none])

/-- Of the programs with which arguments may end in a comma, those in which no comma does are the programs with which they
    may not. -/
theorem program_strict_iff {ks : List TokenKind} (h : Program true ks) : Program false ks ↔ NoFinalComma ks := by
  have hleads : (Rule.symbol .program).leads .plain = some [.plain] := rfl
  constructor
  · intro h
    obtain ⟨q, -, hrun⟩ := run_of_matches h hleads
    rw [NoFinalComma, hrun]
    rfl
  · intro hno
    refine (matches_strict_or h hleads).resolve_right fun hrun => ?_
    rw [NoFinalComma, hrun] at hno
    cases hno

end Curly.Grammar
