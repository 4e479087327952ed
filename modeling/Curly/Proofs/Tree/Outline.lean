import Curly.Tree.Outline
import Mathlib.Data.List.Nodup
import Mathlib.Data.List.TakeWhile

/-! Outlines can be read back. A line of an outline says how deep its node stands, and what it is: whatever is in the text of
    the node, its end is the last thing in the line but for the line number. From the lines, the depths tell which nodes
    are below which. Main statement: `outline_inj`. -/

namespace Curly

namespace NodeKind

theorem mem_all (k : NodeKind) : k ∈ all := by cases k <;> decide

theorem name_injective : Function.Injective name := fun _ _ h =>
  List.inj_on_of_nodup_map (by decide : (all.map name).Nodup) (mem_all _) (mem_all _) h

theorem blank_not_mem_name (k : NodeKind) : ' ' ∉ k.name.toList ∧ '\n' ∉ k.name.toList := by cases k <;> decide

end NodeKind

namespace Tree

/-! ### The parts of a line -/

/-- A text is cut in one way only into characters of a class and a rest that does not begin with one. -/
theorem append_inj_of_class {p : Char → Bool} {a b r s : List Char} (ha : ∀ c ∈ a, p c) (hb : ∀ c ∈ b, p c)
    (hr : ∀ c ∈ r.head?, p c = false) (hs : ∀ c ∈ s.head?, p c = false) (h : a ++ r = b ++ s) : a = b ∧ r = s := by
  have hcut : ∀ {l m : List Char}, (∀ c ∈ l, p c) → (∀ c ∈ m.head?, p c = false) → (l ++ m).takeWhile p = l := by
    intro l m hl hm
    rw [List.takeWhile_append_of_pos hl]
    cases m with
    | nil => simp
    | cons c m => simp [hm c rfl]
  obtain rfl : a = b := by rw [← hcut ha hr, h, hcut hb hs]
  exact ⟨rfl, List.append_cancel_left h⟩

/-- The part of a line for the text of a node. -/
def valuePart (value : String) : List Char := if value = "" then [] else ' ' :: '[' :: (value.toList ++ [']'])

/-- The part of a line for the line number of a node. -/
def linePart (line : Int) : List Char :=
  if 0 < line then ' ' :: '(' :: '@' :: (Nat.toDigits 10 line.toNat ++ [')']) else []

theorem toList_outlineEntry (depth : Nat) (t : Tree) : (outlineEntry depth t).toList = List.replicate (2 * depth) ' ' ++
    '├' :: '─' :: ' ' :: (t.kind.name.toList ++ (valuePart t.value ++ linePart t.line)) := by
  have hindent : ∀ depth, (String.join (List.replicate depth "  ")).toList = List.replicate (2 * depth) ' ' := by
    intro depth
    induction depth with
    | zero => rfl
    | succ depth ih => simp [List.replicate_succ, Nat.mul_succ, ih]
  have hvalue : (if t.value = "" then "" else " [" ++ t.value ++ "]").toList = valuePart t.value := by
    unfold valuePart
    split
    · rfl
    · simp
  have hline : (if 0 < t.line then " (@" ++ toString t.line ++ ")" else "").toList = linePart t.line := by
    unfold linePart
    split
    · next h => simp [Int.repr_eq_if, Int.le_of_lt h]
    · rfl
  simp only [outlineEntry, String.toList_append, hindent, hvalue, hline, List.append_assoc]
  rfl

theorem toDigits_injective {m n : Nat} (h : Nat.toDigits 10 m = Nat.toDigits 10 n) : m = n := by
  rw [← Nat.ofDigitChars_ten_toDigits (n := m), h, Nat.ofDigitChars_ten_toDigits]

/-- A line from the right: the line number, if there is one, and the bracket behind the text. -/
theorem reverse_linePart (a : List Char) (l : Int) : (a ++ ']' :: linePart l).reverse =
    if 0 < l then ')' :: ((Nat.toDigits 10 l.toNat).reverse ++ '@' :: '(' :: ' ' :: ']' :: a.reverse)
    else ']' :: a.reverse := by
  unfold linePart
  split <;> simp

/-- The line number is read from the right, so it does not matter what stands in the text before it. -/
theorem linePart_inj {l m : Int} {a b : List Char} (hl : 0 ≤ l) (hm : 0 ≤ m)
    (h : a ++ ']' :: linePart l = b ++ ']' :: linePart m) : a = b ∧ l = m := by
  have hreverse := congrArg List.reverse h
  rw [reverse_linePart, reverse_linePart] at hreverse
  split at hreverse <;> split at hreverse
  · next hl' hm' =>
    have hdigit : ∀ {n : Nat}, ∀ c ∈ (Nat.toDigits 10 n).reverse, c.isDigit := fun c hc =>
      Nat.isDigit_of_mem_toDigits (by decide) (by decide) (List.mem_reverse.mp hc)
    obtain ⟨hdigits, hrest⟩ :=
      append_inj_of_class hdigit hdigit (by simp) (by simp) (List.cons.inj hreverse).2
    have hnat := toDigits_injective (List.reverse_inj.mp hdigits)
    refine ⟨by simpa using hrest, ?_⟩
    omega
  · cases hreverse
  · cases hreverse
  · refine ⟨by simpa using hreverse, ?_⟩
    omega

theorem valuePart_inj {v w : String} {l m : Int} (hl : 0 ≤ l) (hm : 0 ≤ m)
    (h : valuePart v ++ linePart l = valuePart w ++ linePart m) : v = w ∧ l = m := by
  -- behind the kind there is a square bracket if there is a text, and a round one or nothing if there is none
  have hround : ∀ {k : Int} {c : List Char}, linePart k ≠ ' ' :: '[' :: c := by
    intro k c hk
    unfold linePart at hk
    split at hk <;> simp at hk
  unfold valuePart at h
  split at h <;> split at h
  · next hv hw =>
    obtain ⟨-, hlm⟩ := linePart_inj (a := []) (b := []) hl hm (congrArg (']' :: ·) h)
    exact ⟨hv.trans hw.symm, hlm⟩
  · exact absurd h (by simpa using hround)
  · exact absurd h.symm (by simpa using hround)
  · obtain ⟨hvw, hlm⟩ := linePart_inj (a := v.toList) (b := w.toList) hl hm (by simpa using h)
    exact ⟨String.toList_injective hvw, hlm⟩

/-- A line tells all of its node but what is below it. -/
theorem outlineEntry_inj {d e : Nat} {t u : Tree} (ht : 0 ≤ t.line) (hu : 0 ≤ u.line)
    (h : outlineEntry d t = outlineEntry e u) : d = e ∧ t.kind = u.kind ∧ t.value = u.value ∧ t.line = u.line := by
  have hchars := congrArg String.toList h
  rw [toList_outlineEntry, toList_outlineEntry] at hchars
  obtain ⟨hindent, hrest⟩ := append_inj_of_class (p := (· == ' ')) (by simp) (by simp) (by simp) (by simp) hchars
  have hdepth : d = e := by
    have hlength := congrArg List.length hindent
    rw [List.length_replicate, List.length_replicate] at hlength
    omega
  have hblank : ∀ {v : String} {l : Int}, ∀ c ∈ (valuePart v ++ linePart l).head?, (c != ' ') = false := by
    intro v l
    unfold valuePart linePart
    split <;> split <;> simp
  have hkind : ∀ {k : NodeKind}, ∀ c ∈ k.name.toList, (c != ' ') = true := fun {k} c hc =>
    bne_iff_ne.mpr (ne_of_mem_of_not_mem hc k.blank_not_mem_name.1)
  obtain ⟨hname, hparts⟩ := append_inj_of_class hkind hkind hblank hblank (by simpa using hrest)
  exact ⟨hdepth, NodeKind.name_injective (String.toList_injective hname), valuePart_inj ht hu hparts⟩

/-- In the line of a node only its text can have line feeds. -/
theorem count_outlineEntry (d : Nat) (t : Tree) : (outlineEntry d t).toList.count '\n' = t.value.toList.count '\n' := by
  have hname : t.kind.name.toList.count '\n' = 0 := List.count_eq_zero.mpr t.kind.blank_not_mem_name.2
  have hvalue : (valuePart t.value).count '\n' = t.value.toList.count '\n' := by
    unfold valuePart
    split
    · next h =>
      rw [h]
      rfl
    · simp
  have hline : (linePart t.line).count '\n' = 0 := by
    rw [List.count_eq_zero, linePart]
    split
    · have hdigits : '\n' ∉ Nat.toDigits 10 t.line.toNat := fun hmem => by
        simpa using Nat.isDigit_of_mem_toDigits (by decide) (by decide) hmem
      simp [hdigits]
    · exact List.not_mem_nil
  rw [toList_outlineEntry]
  simp [List.count_append, List.count_replicate, hname, hvalue, hline]

theorem lineFeed_not_mem_outlineEntry {d : Nat} {t : Tree} (ht : '\n' ∉ t.value.toList) :
    '\n' ∉ (outlineEntry d t).toList := by
  rwa [← List.count_eq_zero, count_outlineEntry, List.count_eq_zero]

/-! ### From the lines to the tree -/

/-- The text of no node has a line feed in it, and no node stands on a line below zero. -/
def Readable (t : Tree) : Prop := ∀ u ∈ t.preorder, '\n' ∉ u.value.toList ∧ 0 ≤ u.line

instance : DecidablePred Readable := fun t =>
  inferInstanceAs (Decidable (∀ u ∈ t.preorder, '\n' ∉ u.value.toList ∧ 0 ≤ u.line))

section
variable {kind : NodeKind} {value : String} {line : Int} {cs : List Tree}

theorem Readable.root {t : Tree} (h : t.Readable) : '\n' ∉ t.value.toList ∧ 0 ≤ t.line := by
  refine h t ?_
  cases t
  exact List.mem_cons_self

theorem Readable.child (h : (node kind value line cs).Readable) : ∀ c ∈ cs, c.Readable := by
  intro c hc u hu
  refine h u (List.mem_cons_of_mem _ ?_)
  rw [preorders_eq]
  exact List.mem_flatMap.mpr ⟨c, hc, hu⟩

end

mutual
/-- The lines of an outline are those of the nodes of the tree. -/
theorem exists_of_mem_outlineEntries : ∀ {t : Tree} {d : Nat}, ∀ s ∈ outlineEntries d t,
    ∃ e, ∃ u ∈ t.preorder, s = outlineEntry e u
  | node _ _ _ cs, d, s, hs => by
    rcases List.mem_cons.mp hs with rfl | hs
    · exact ⟨d, _, List.mem_cons_self, rfl⟩
    · obtain ⟨e, u, hu, rfl⟩ := exists_of_mem_outlineEntriesOf s hs
      exact ⟨e, u, List.mem_cons_of_mem _ hu, rfl⟩

theorem exists_of_mem_outlineEntriesOf : ∀ {ts : List Tree} {d : Nat}, ∀ s ∈ outlineEntriesOf d ts,
    ∃ e, ∃ u ∈ preorders ts, s = outlineEntry e u
  | t :: ts, d, s, hs => by
    rcases List.mem_append.mp hs with hs | hs
    · obtain ⟨e, u, hu, rfl⟩ := exists_of_mem_outlineEntries s hs
      exact ⟨e, u, List.mem_append_left _ hu, rfl⟩
    · obtain ⟨e, u, hu, rfl⟩ := exists_of_mem_outlineEntriesOf s hs
      exact ⟨e, u, List.mem_append_right _ hu, rfl⟩
end

/-- Split at its line feeds, an outline gives its lines back. -/
theorem splitOn_outline {t : Tree} (ht : t.Readable) :
    t.outline.toList.splitOn '\n' = (outlineEntries 0 t).map String.toList := by
  have hclean : ∀ s ∈ (outlineEntries 0 t).map String.toList, '\n' ∉ s := by
    rw [List.forall_mem_map]
    intro s hs
    obtain ⟨e, u, hu, rfl⟩ := exists_of_mem_outlineEntries s hs
    exact lineFeed_not_mem_outlineEntry (ht u hu).1
  have hne : (outlineEntries 0 t).map String.toList ≠ [] := by
    cases t
    simp [outlineEntries]
  rw [outline, String.toList_intercalate]
  exact List.splitOn_intercalate '\n' hclean hne

/-- Lines that come behind those of nodes under `depth` others: the first of them is of a node higher up. -/
def Shallow (depth : Nat) (rest : List String) : Prop :=
  ∀ s ∈ rest.head?, ∃ d < depth, ∃ t : Tree, 0 ≤ t.line ∧ s = outlineEntry d t

theorem shallow_nil (depth : Nat) : Shallow depth [] := fun _ h => by cases h

/-- Behind the lines of the children of a node comes the line of a node beside it, or what comes behind these. -/
theorem Shallow.below {depth : Nat} {ts : List Tree} {rest : List String} (hts : ∀ t ∈ ts, t.Readable)
    (h : Shallow depth rest) : Shallow (depth + 1) (outlineEntriesOf depth ts ++ rest) := by
  intro s hs
  cases ts with
  | nil =>
    obtain ⟨d, hd, t, ht, rfl⟩ := h s hs
    exact ⟨d, Nat.lt_succ_of_lt hd, t, ht, rfl⟩
  | cons t ts =>
    obtain ⟨kind, value, line, cs⟩ := t
    cases hs
    exact ⟨depth, Nat.lt_succ_self depth, _, (hts _ List.mem_cons_self).root.2, rfl⟩

/-- The line of a node under `depth` others does not come behind the lines of such nodes. -/
theorem Shallow.ne {depth : Nat} {u : Tree} {us : List Tree} {rest rest' : List String} (h : Shallow depth rest)
    (hu : u.Readable) : rest ≠ outlineEntriesOf depth (u :: us) ++ rest' := by
  rintro rfl
  obtain ⟨kind, value, line, cs⟩ := u
  obtain ⟨d, hd, t, ht, heq⟩ := h _ rfl
  exact Nat.ne_of_gt hd (outlineEntry_inj hu.root.2 ht heq).1

/-- The lines of trees beside each other tell what the trees are, and where the lines end. The lines of the children of the
    first tree end where a node comes that is not deeper than it. -/
theorem outlineEntriesOf_inj : ∀ {depth : Nat} {ts us : List Tree} {rest rest' : List String}, Shallow depth rest →
    Shallow depth rest' → (∀ t ∈ ts, t.Readable) → (∀ u ∈ us, u.Readable) →
      outlineEntriesOf depth ts ++ rest = outlineEntriesOf depth us ++ rest' → ts = us ∧ rest = rest'
  | _, [], [], _, _, _, _, _, _, h => ⟨rfl, h⟩
  | _, [], u :: us, _, _, hrest, _, _, hus, h => absurd h (hrest.ne (hus u List.mem_cons_self))
  | _, t :: ts, [], _, _, _, hrest', hts, _, h => absurd h.symm (hrest'.ne (hts t List.mem_cons_self))
  | depth, node kind value line cs :: ts, node kind' value' line' cs' :: us, rest, rest', hrest, hrest', hts, hus, h => by
    rw [List.forall_mem_cons] at hts hus
    simp only [outlineEntriesOf, outlineEntries, List.cons_append, List.append_assoc] at h
    obtain ⟨hentry, hbelow⟩ := List.cons.inj h
    obtain ⟨-, hkind, hvalue, hline⟩ := outlineEntry_inj hts.1.root.2 hus.1.root.2 hentry
    obtain ⟨hcs, hbeside⟩ :=
      outlineEntriesOf_inj (hrest.below hts.2) (hrest'.below hus.2) hts.1.child hus.1.child hbelow
    obtain ⟨hts', hrests⟩ := outlineEntriesOf_inj hrest hrest' hts.2 hus.2 hbeside
    simp only [Tree.kind, Tree.value, Tree.line] at hkind hvalue hline
    exact ⟨by rw [hkind, hvalue, hline, hcs, hts'], hrests⟩

/-- Trees of which no text has a line feed in it, and no node stands on a line below zero, have the same outline only if they
    are the same. -/
theorem outline_inj {t u : Tree} (ht : t.Readable) (hu : u.Readable) : t.outline = u.outline ↔ t = u := by
  refine ⟨fun h => ?_, congrArg outline⟩
  have hlines : outlineEntries 0 t = outlineEntries 0 u := by
    have hsplit := congrArg (fun s : String => s.toList.splitOn '\n') h
    simp only [splitOn_outline ht, splitOn_outline hu] at hsplit
    exact (List.map_inj_right fun _ _ hs => String.toList_injective hs).mp hsplit
  have htrees : outlineEntriesOf 0 [t] ++ [] = outlineEntriesOf 0 [u] ++ [] := by
    simp only [outlineEntriesOf, hlines]
  obtain ⟨heq, -⟩ := outlineEntriesOf_inj (shallow_nil 0) (shallow_nil 0) (List.forall_mem_singleton.mpr ht)
    (List.forall_mem_singleton.mpr hu) htrees
  exact List.singleton_inj.mp heq

/-- A text that ends like a line with a line number, below a node and beside it. -/
theorem outline_inj_brackets :
    let t := node .block "" 1 [node .methodCall "f] (@2)" 0 [leaf .stringLiteral "├─ IF" 3]]
    let u := node .block "" 1 [node .methodCall "f" 2 [], leaf .stringLiteral "├─ IF" 3]
    t.Readable ∧ u.Readable ∧ t.outline ≠ u.outline := by
  intro t u
  have ht : t.Readable := by decide
  have hu : u.Readable := by decide
  exact ⟨ht, hu, (outline_inj ht hu).not.mpr (by simp [t, u])⟩

end Tree
end Curly
