import Mathlib.Algebra.BigOperators.Group.List.Lemmas
import Mathlib.Algebra.Ring.Nat
import Mathlib.Data.Char
import Mathlib.Data.List.Induction
import Mathlib.Data.List.Perm.Basic
import SentenceSearch.Symbol.Bucketing

/-!
# Tallies

The characters of many texts are counted in parts, and the counts of the parts are merged. However
the texts are divided, in whatever order they come and however the counts are merged, the outcome is
one map: the one that counts the texts put together. The order in which its entries are handed over
to the bucketing does not matter either, because the ranking of the characters leaves no ties. So
the buckets depend on nothing but how often each character occurs.

## Main definitions

* `Frequencies.Tallied` — counts that come about by counting parts and merging
* `Frequencies.spellOut` — a text with given frequencies

## Main results

* `Frequencies.ofText_eq_of_perm` — counting does not depend on the order of the characters
* `Frequencies.foldl_add_toList` — merging the counts of two texts counts both
* `Frequencies.Tallied.eq_ofText` — all tallies of the same texts are equal
* `Bucketing.ranked_eq_of_perm` — the ranking does not depend on the order of a frequency list
* `fill_of_tallied` — the table and the buckets do not depend on how the texts were counted
-/

namespace SentenceSearch

namespace Frequencies

variable {frequencies : Frequencies} {text other : List Char} {entries : List (Char × Nat)}
  {c d : Char} {n : Nat}

/-! ### Counting -/

theorem mem_add : c ∈ frequencies.add d n ↔ d = c ∨ c ∈ frequencies := by
  rw [add, Std.ExtTreeMap.mem_insert, Std.compare_eq_iff_eq]

theorem mem_addText : c ∈ frequencies.addText text ↔ c ∈ frequencies ∨ c ∈ text := by
  induction text generalizing frequencies with
  | nil => simp [addText]
  | cons d text ih =>
    change c ∈ (frequencies.add d 1).addText text ↔ _
    rw [ih, mem_add, List.mem_cons, eq_comm, or_comm (a := c = d), or_assoc]

/-- The map of a text has its characters. -/
theorem mem_ofText : c ∈ ofText text ↔ c ∈ text := by
  simp [ofText, mem_addText]

theorem count_ofText (text : List Char) (c : Char) : (ofText text).count c = text.count c := by
  rw [ofText, count_addText, count_empty, Nat.zero_add]

theorem getElem?_eq (frequencies : Frequencies) (c : Char) :
    frequencies[c]? = if c ∈ frequencies then some (frequencies.count c) else none := by
  simp only [count, Std.ExtTreeMap.mem_iff_isSome_getElem?]
  cases frequencies[c]? with
  | none => rfl
  | some n => rfl

/-- Counting does not depend on the order of the characters. -/
theorem ofText_eq_of_perm (h : text.Perm other) : ofText text = ofText other := by
  apply Std.ExtTreeMap.ext_getElem?
  intro c
  simp only [getElem?_eq, mem_ofText, count_ofText, h.mem_iff, h.count_eq]

theorem addText_ofText (text other : List Char) :
    (ofText text).addText other = ofText (text ++ other) := by
  rw [ofText, addText, addText, ofText, addText, List.foldl_append]

/-- Counting texts one after another is counting them put together. -/
theorem ofTexts_eq (texts : List (List Char)) : ofTexts texts = ofText texts.flatten := by
  induction texts using List.reverseRecOn with
  | nil => rfl
  | append_singleton texts text ih =>
    rw [List.flatten_append, List.flatten_singleton, ← addText_ofText, ← ih, ofTexts, ofTexts,
      List.foldl_append]
    rfl

/-! ### Merging -/

/-- A text in which each character occurs as often as the entries say. -/
def spellOut (entries : List (Char × Nat)) : List Char :=
  entries.flatMap fun entry => List.replicate entry.2 entry.1

theorem count_spellOut (entries : List (Char × Nat)) (c : Char) :
    (spellOut entries).count c =
      (entries.map fun entry => if entry.1 = c then entry.2 else 0).sum := by
  rw [spellOut, List.count_flatMap]
  congr 1
  apply List.map_congr_left
  intro entry _
  simp [List.count_replicate]

/-- The entries of a map spell a text with the counts of the map. -/
theorem count_spellOut_toList (frequencies : Frequencies) (c : Char) :
    (spellOut frequencies.toList).count c = frequencies.count c := by
  have hzero {others : List (Char × Nat)} (h : ∀ entry ∈ others, entry.1 ≠ c) :
      (others.map fun entry => if entry.1 = c then entry.2 else 0).sum = 0 := by
    apply List.sum_eq_zero
    intro n hn
    obtain ⟨entry, hentry, rfl⟩ := List.mem_map.mp hn
    exact if_neg (h entry hentry)
  rw [count_spellOut, count]
  cases hc : frequencies[c]? with
  | none =>
    apply hzero
    rintro ⟨d, n⟩ hentry rfl
    rw [Std.ExtTreeMap.mem_toList_iff_getElem?_eq_some, hc] at hentry
    cases hentry
  | some n =>
    -- The character has one entry, and all others are of other characters.
    obtain ⟨front, back, hsplit⟩ := List.append_of_mem
      (Std.ExtTreeMap.mem_toList_iff_getElem?_eq_some.mpr hc)
    have hdistinct := Std.ExtTreeMap.distinct_keys_toList (t := frequencies)
    simp only [Std.compare_eq_iff_eq] at hdistinct
    rw [hsplit, List.pairwise_append, List.pairwise_cons] at hdistinct
    obtain ⟨-, ⟨hback, -⟩, hfront⟩ := hdistinct
    rw [hsplit, List.map_append, List.map_cons, List.sum_append, List.sum_cons, hzero, hzero,
      if_pos rfl, Option.getD_some, Nat.add_zero, Nat.zero_add]
    · exact fun entry hentry heq => hback entry hentry heq.symm
    · exact fun entry hentry => hfront entry hentry _ List.mem_cons_self

/-- The entries of the map of a text spell the same characters. -/
theorem spellOut_toList_perm (text : List Char) : (spellOut (ofText text).toList).Perm text := by
  rw [List.perm_iff_count]
  intro c
  rw [count_spellOut_toList, count_ofText]

theorem add_succ (frequencies : Frequencies) (c : Char) (n : Nat) :
    frequencies.add c (n + 1) = (frequencies.add c 1).add c n := by
  apply Std.ExtTreeMap.ext_getElem?
  intro d
  rw [getElem?_eq, getElem?_eq, count_add, count_add, count_add]
  by_cases h : c = d
  · simp [mem_add, h, Nat.add_assoc, Nat.add_comm]
  · simp [mem_add, h]

/-- Adding occurrences is counting a text of them. -/
theorem add_eq_addText (frequencies : Frequencies) (c : Char) (hn : 0 < n) :
    frequencies.add c n = frequencies.addText (List.replicate n c) := by
  induction n generalizing frequencies with
  | zero => cases hn
  | succ n ih =>
    rw [List.replicate_succ]
    change _ = (frequencies.add c 1).addText (List.replicate n c)
    rcases Nat.eq_zero_or_pos n with rfl | hpos
    · rfl
    · rw [← ih _ hpos, add_succ]

theorem foldl_add_eq_addText (frequencies : Frequencies)
    (hpos : ∀ entry ∈ entries, 0 < entry.2) :
    entries.foldl (fun acc entry => acc.add entry.1 entry.2) frequencies =
      frequencies.addText (spellOut entries) := by
  induction entries generalizing frequencies with
  | nil => rfl
  | cons entry entries ih =>
    obtain ⟨hentry, hrest⟩ := List.forall_mem_cons.mp hpos
    rw [List.foldl_cons, ih _ hrest, add_eq_addText _ _ hentry]
    simp only [addText, spellOut, List.flatMap_cons, List.foldl_append]

theorem pos_of_mem_toList {entry : Char × Nat} (h : entry ∈ (ofText text).toList) :
    0 < entry.2 := by
  obtain ⟨c, n⟩ := entry
  rw [Std.ExtTreeMap.mem_toList_iff_getElem?_eq_some, getElem?_eq] at h
  split at h
  · rename_i hmem
    rw [count_ofText, Option.some_inj] at h
    exact h ▸ List.count_pos_iff.mpr (mem_ofText.mp hmem)
  · cases h

/-- Merging the counts of two texts counts both, in whatever order the entries of the second one are
taken. -/
theorem foldl_add_toList (h : entries.Perm (ofText other).toList) :
    entries.foldl (fun acc entry => acc.add entry.1 entry.2) (ofText text) =
      ofText (text ++ other) := by
  have hpos : ∀ entry ∈ entries, 0 < entry.2 := fun entry hentry =>
    pos_of_mem_toList (h.mem_iff.mp hentry)
  rw [foldl_add_eq_addText _ hpos, addText_ofText]
  apply ofText_eq_of_perm
  exact ((h.flatMap_right _).trans (spellOut_toList_perm other)).append_left text

/-! ### Tallies -/

/-- Counts of some texts that come about by counting chunks and merging: the entries of the second
of two maps are added to the first one, in any order. -/
inductive Tallied : List (List Char) → Frequencies → Prop
  /-- A chunk is counted text by text. -/
  | chunk (texts : List (List Char)) : Tallied texts (ofTexts texts)
  /-- The counts of two parts are merged. -/
  | merge {left right : List (List Char)} {a b : Frequencies} {entries : List (Char × Nat)}
      (ha : Tallied left a) (hb : Tallied right b) (hentries : entries.Perm b.toList) :
      Tallied (left ++ right) (entries.foldl (fun acc entry => acc.add entry.1 entry.2) a)

/-- Every tally is the count of the texts put together. -/
theorem Tallied.eq_ofText {texts : List (List Char)} (h : Tallied texts frequencies) :
    frequencies = ofText texts.flatten := by
  induction h with
  | chunk texts => exact ofTexts_eq texts
  | merge ha hb hentries iha ihb =>
    rw [ihb] at hentries
    rw [iha, foldl_add_toList hentries, List.flatten_append]

end Frequencies

/-! ### Ranking -/

namespace Bucketing

variable {a b c : Char × Nat} {frequencies others : List (Char × Nat)}

theorem before_iff : before a b = true ↔ b.2 < a.2 ∨ a.2 = b.2 ∧ a.1 ≤ b.1 := by
  simp [before]

theorem before_trans (hab : before a b = true) (hbc : before b c = true) :
    before a c = true := by
  rw [before_iff] at *
  rcases hab with hab | ⟨hab, hab'⟩ <;> rcases hbc with hbc | ⟨hbc, hbc'⟩
  · exact Or.inl (hbc.trans hab)
  · exact Or.inl (hbc ▸ hab)
  · exact Or.inl (hab ▸ hbc)
  · exact Or.inr ⟨hab.trans hbc, hab'.trans hbc'⟩

theorem before_total (a b : Char × Nat) : (before a b || before b a) = true := by
  rw [Bool.or_eq_true, before_iff, before_iff]
  rcases Nat.lt_trichotomy a.2 b.2 with h | h | h
  · exact Or.inr (Or.inl h)
  · exact (le_total a.1 b.1).imp (fun hle => Or.inr ⟨h, hle⟩) fun hle => Or.inr ⟨h.symm, hle⟩
  · exact Or.inl (Or.inl h)

/-- No two entries are tied. -/
theorem before_antisymm (hab : before a b = true) (hba : before b a = true) : a = b := by
  rw [before_iff] at hab hba
  have hfrequency : a.2 = b.2 := by omega
  have hsymbol : a.1 = b.1 := by
    apply le_antisymm
    · exact (hab.resolve_left hfrequency.le.not_gt).2
    · exact (hba.resolve_left hfrequency.ge.not_gt).2
  exact Prod.ext hsymbol hfrequency

theorem pairwise_ranked (frequencies : List (Char × Nat)) :
    (ranked frequencies).Pairwise fun a b => before a b = true := by
  apply List.pairwise_mergeSort
  · exact fun a b c => before_trans
  · exact before_total

theorem ranked_perm (frequencies : List (Char × Nat)) : (ranked frequencies).Perm frequencies :=
  List.mergeSort_perm frequencies before

/-- The ranking does not depend on the order of a frequency list. -/
theorem ranked_eq_of_perm (h : frequencies.Perm others) : ranked frequencies = ranked others := by
  have hperm := (ranked_perm frequencies).trans (h.trans (ranked_perm others).symm)
  exact hperm.eq_of_pairwise (fun _ _ _ _ => before_antisymm) (pairwise_ranked frequencies)
    (pairwise_ranked others)

theorem fill_eq_of_perm (bucketing : Bucketing) (h : frequencies.Perm others) :
    bucketing.fill frequencies = bucketing.fill others := by
  rw [fill, fill, ranked_eq_of_perm h]

end Bucketing

open Frequencies

variable {texts parts : List (List Char)} {frequencies : Frequencies} {entries : List (Char × Nat)}

/-- However texts are divided, ordered, counted and merged, and in whatever order the entries of the
counts are handed over, each character is counted as often as it occurs, and the table and the
buckets are the ones that come of counting the texts one after another. -/
theorem fill_of_tallied (bucketing : Bucketing) (hparts : parts.Perm texts)
    (h : Tallied parts frequencies) (hentries : entries.Perm frequencies.toList) :
    (∀ c, c ∈ frequencies ↔ c ∈ texts.flatten) ∧
    (∀ c, frequencies.count c = texts.flatten.count c) ∧
    bucketing.table entries = bucketing.tableOfTexts texts ∧
    bucketing.loads entries = bucketing.loads (ofTexts texts).toList := by
  have hsame : frequencies = ofText texts.flatten :=
    h.eq_ofText.trans (ofText_eq_of_perm hparts.flatten)
  have hfill : bucketing.fill entries = bucketing.fill (ofTexts texts).toList := by
    apply bucketing.fill_eq_of_perm
    rwa [hsame, ← ofTexts_eq] at hentries
  refine ⟨fun c => ?_, fun c => ?_, ?_, ?_⟩
  · rw [hsame, mem_ofText]
  · rw [hsame, count_ofText]
  · exact congrArg Bucketing.Assignment.table hfill
  · exact congrArg Bucketing.Assignment.loads hfill

/-- Two chunks with the same frequencies in another order, of which the second is counted first, and
entries that are handed over from the last to the first. -/
theorem fill_of_tallied_reverse :
    let first := ofTexts [['b', 'a'], ['c']]
    let merged := (ofTexts [['a', 'b']]).toList.reverse.foldl
      (fun acc entry => acc.add entry.1 entry.2) first
    merged.count 'a' = 2 ∧
      Bucketing.default.table merged.toList.reverse =
        Bucketing.default.tableOfTexts [['a', 'b'], ['b', 'a'], ['c']] := by
  intro first merged
  have hparts : ([['b', 'a'], ['c']] ++ [['a', 'b']]).Perm [['a', 'b'], ['b', 'a'], ['c']] :=
    List.perm_append_comm
  have htallied : Tallied ([['b', 'a'], ['c']] ++ [['a', 'b']]) merged :=
    .merge (.chunk _) (.chunk _) (List.reverse_perm _)
  obtain ⟨-, hcount, htable, -⟩ :=
    fill_of_tallied .default hparts htallied (List.reverse_perm merged.toList)
  exact ⟨hcount 'a', htable⟩

end SentenceSearch
