import SentenceSearch.Index
import SentenceSearch.Proofs.Search.AutomatonSearch

/-!
# Indexes of one corpus with different buckets

The number of buckets changes every mask: those of the characters, of the tree and of the compiled
patterns. What a search finds lies between two sets that do not depend on it. It finds all sentences
with a part that the pattern denotes, because the masks are no obstacle to them, and nothing but
sentences with a part that the pattern denotes loosely. Where no group with a repetition is optional
the two sets are one. Elsewhere a mask may decide about a sentence that is in the larger set only.

## Main definitions

* `HasPart` — a text has a part of some kind
* `Index.IsOf` — an index whose tree holds the sentences of a corpus

## Main results

* `Index.exists_ofCorpus` — a corpus with sentences has an index for every number of buckets
* `IsOf.mem_of_hasPart`, `IsOf.exists_hasPart` — what a search for a pattern finds
* `findMatching_of_counts` — two indexes of one corpus
-/

namespace SentenceSearch

open SuffixTree TreeStep

/-- The text has a part of the given kind. -/
def HasPart (kind : List Char → Prop) (text : List Char) : Prop :=
  ∃ before part after, text = before ++ part ++ after ∧ kind part

namespace Pattern

variable {table : SymbolTable} {tree : Pattern} {available : List Char → Mask} {text : List Char}

/-- A run reads a part that the pattern denotes, and it needs only what is left of the text. -/
theorem runsInside_of_hasPart (hproper : tree.Proper) (h : HasPart (· ∈ tree.language) text) :
    (tree.automaton table).RunsInside table.maskOf text := by
  obtain ⟨before, part, after, rfl, hpart⟩ := h
  have hfront : before <+: before ++ part := List.prefix_append _ _
  have hwhole : before ++ part <+: before ++ part ++ after := List.prefix_append _ _
  refine ⟨before.length, (before ++ part).length, hfront.length_le, hwhole.length_le, ?_⟩
  rw [List.drop_left, List.append_assoc, List.drop_left]
  exact automaton_run table hproper hpart after

/-- Whatever a run reads is a part that the pattern denotes loosely. -/
theorem hasPart_of_runsInside (h : (tree.automaton table).RunsInside available text) :
    HasPart (· ∈ tree.looseLanguage) text := by
  obtain ⟨i, j, -, -, run⟩ := h
  obtain ⟨part, hdrop, hpart⟩ := mem_looseLanguage_of_run run
  refine ⟨text.take i, part, text.drop j, ?_, hpart⟩
  rw [List.append_assoc, ← hdrop, List.take_append_drop]

end Pattern

namespace Index

variable {corpus : Corpus} {index : Index} {pattern : List Char} {id : SentenceId}
  {found : SearchOutcome SentenceId}

/-! ### The tree of a corpus -/

/-- The steps that lead to the tree of a corpus. -/
def steps (corpus : Corpus) : List (TreeStep SentenceId) :=
  (corpus.toList.map fun entry => .insert entry.2.toList entry.1) ++ [.annotate]

theorem ofSteps_steps (table : SymbolTable) (corpus : Corpus) :
    ofSteps table (steps corpus) = (plantTree table corpus).annotate := by
  rw [ofSteps, steps, List.foldl_append, List.foldl_map]
  rfl

theorem mem_inserted_steps {text : List Char} :
    (text, id) ∈ inserted (steps corpus) ↔
      ∃ sentence, (id, sentence) ∈ corpus.toList ∧ sentence.toList = text := by
  rw [inserted, steps, List.filterMap_append, List.filterMap_map]
  simp only [List.filterMap_cons, List.filterMap_nil, inserted?, List.append_nil,
    List.mem_filterMap, Function.comp_apply, Option.some.injEq, Prod.mk.injEq]
  constructor
  · rintro ⟨⟨_, sentence⟩, hmem, htext, rfl⟩
    exact ⟨sentence, hmem, htext⟩
  · rintro ⟨sentence, hmem, htext⟩
    exact ⟨(id, sentence), hmem, htext, rfl⟩

/-- The tree holds the sentences of the corpus. -/
def IsOf (index : Index) (corpus : Corpus) : Prop :=
  index.tree = ofSteps index.table (steps corpus)

/-- A corpus with sentences has an index for every number of buckets that masks have room for. -/
theorem exists_ofCorpus (hcorpus : corpus.isEmpty = false) {count : Nat} (hpos : 0 < count)
    (hle : count ≤ Mask.width) :
    ∃ index, ofCorpus corpus count = .ok index ∧ index.IsOf corpus := by
  have hcount : Bucketing.ofCount count = .ok ⟨count, hpos, hle⟩ := by
    rw [Bucketing.ofCount, dif_neg hpos.ne', dif_pos hle]
  set table := (⟨count, hpos, hle⟩ : Bucketing).tableOfTexts corpus.textList with htable
  refine ⟨⟨table, (plantTree table corpus).annotate, corpus⟩, ?_, (ofSteps_steps _ corpus).symm⟩
  rw [ofCorpus, hcorpus, hcount]
  rfl

/-! ### What a search for a pattern finds -/

/-- A search for a pattern fails when the pattern cannot be read. Otherwise it is one with the
automaton of the pattern. -/
theorem findMatching_eq (index : Index) (limits : SearchLimits) (pattern : List Char) :
    index.findMatching limits pattern = (Pattern.read pattern).map fun tree =>
      Id.run (index.tree.source.findMatching (tree.automaton index.table) limits) := by
  rw [findMatching, compile, compilePattern]
  cases Pattern.read pattern with
  | error e => rfl
  | ok tree => rfl

theorem findMatching_eq_error_iff {limits : SearchLimits} {error : PatternError} :
    index.findMatching limits pattern = .error error ↔
      Pattern.read pattern = .error error := by
  rw [findMatching_eq]
  cases Pattern.read pattern with
  | error e =>
    constructor
    · rintro ⟨⟩
      rfl
    · rintro ⟨⟩
      rfl
  | ok tree => exact ⟨nofun, nofun⟩

theorem findMatching_eq_ok_iff {limits : SearchLimits} :
    index.findMatching limits pattern = .ok found ↔
      ∃ tree, Pattern.read pattern = .ok tree ∧ found =
        Id.run (index.tree.source.findMatching (tree.automaton index.table) limits) := by
  rw [findMatching_eq]
  cases Pattern.read pattern with
  | error e => exact ⟨nofun, nofun⟩
  | ok tree =>
    constructor
    · rintro ⟨⟩
      exact ⟨tree, rfl, rfl⟩
    · rintro ⟨_, ⟨⟩, rfl⟩
      rfl

/-- A sentence with a part that the pattern denotes is found. -/
theorem IsOf.mem_of_hasPart (h : index.IsOf corpus)
    (hfound : index.findMatching .unlimited pattern = .ok found) {sentence : String}
    (hmem : (id, sentence) ∈ corpus.toList) (hne : sentence.toList ≠ [])
    (hpart : HasPart (Denotes pattern) sentence.toList) : id ∈ found.results := by
  obtain ⟨tree, hread, rfl⟩ := findMatching_eq_ok_iff.mp hfound
  obtain ⟨spell, hrecords⟩ := exists_records index.table (steps corpus)
  have hlanguage : HasPart (· ∈ tree.language) sentence.toList := by
    obtain ⟨before, part, after, htext, hpart⟩ := hpart
    exact ⟨before, part, after, htext, (denotes_iff hread).mp hpart⟩
  have hproper := (Pattern.read_eq_ok_iff.mp hread).2.proper
  rw [h]
  exact hrecords.mem_findMatching_of_runsInside (Pattern.inRange_automaton _ _)
    hrecords.offers_maskOf (fun rest => Mask.zero_allows _)
    (mem_inserted_steps.mpr ⟨sentence, hmem, rfl⟩) hne
    (Pattern.runsInside_of_hasPart hproper hlanguage)

/-- What is found has a part that the pattern denotes loosely. -/
theorem IsOf.exists_hasPart (h : index.IsOf corpus)
    (hfound : index.findMatching .unlimited pattern = .ok found) (hid : id ∈ found.results) :
    ∃ sentence, (id, sentence) ∈ corpus.toList ∧ sentence.toList ≠ [] ∧
      HasPart (LooselyDenotes pattern) sentence.toList := by
  obtain ⟨tree, hread, rfl⟩ := findMatching_eq_ok_iff.mp hfound
  obtain ⟨spell, hrecords⟩ := exists_records index.table (steps corpus)
  rw [h] at hid
  obtain ⟨_, hmem, hne, hruns⟩ :=
    hrecords.exists_runsInside (Pattern.inRange_automaton _ _) hid
  obtain ⟨sentence, hsentence, rfl⟩ := mem_inserted_steps.mp hmem
  obtain ⟨before, part, after, htext, hpart⟩ := Pattern.hasPart_of_runsInside hruns
  exact ⟨sentence, hsentence, hne, before, part, after, htext,
    (looselyDenotes_iff hread).mpr hpart⟩

/-- A sentence that one index of the corpus finds and another one does not has a part that the
pattern denotes loosely, but none that it denotes. -/
theorem IsOf.exists_of_notMem {index' : Index} {found' : SearchOutcome SentenceId}
    (h : index.IsOf corpus) (h' : index'.IsOf corpus)
    (hfound : index.findMatching .unlimited pattern = .ok found)
    (hfound' : index'.findMatching .unlimited pattern = .ok found')
    (hid : id ∈ found.results) (hid' : id ∉ found'.results) :
    ∃ sentence, (id, sentence) ∈ corpus.toList ∧
      HasPart (LooselyDenotes pattern) sentence.toList ∧
      ¬ HasPart (Denotes pattern) sentence.toList := by
  obtain ⟨sentence, hmem, hne, hloose⟩ := h.exists_hasPart hfound hid
  exact ⟨sentence, hmem, hloose, fun hpart => hid' (h'.mem_of_hasPart hfound' hmem hne hpart)⟩

/-- When no group with a repetition is optional, what one index of the corpus finds is found by
every other one. -/
theorem IsOf.mem_of_mem {index' : Index} {found' : SearchOutcome SentenceId}
    (h : index.IsOf corpus) (h' : index'.IsOf corpus)
    (hplain : OptionsArePlain (pattern.map PatternToken.ofChar))
    (hfound : index.findMatching .unlimited pattern = .ok found)
    (hfound' : index'.findMatching .unlimited pattern = .ok found')
    (hid : id ∈ found.results) : id ∈ found'.results := by
  by_contra hid'
  obtain ⟨sentence, -, ⟨before, part, after, htext, hloose⟩, hnone⟩ :=
    h.exists_of_notMem h' hfound hfound' hid hid'
  exact hnone ⟨before, part, after, htext, hloose.strict hplain⟩

end Index

open Index in
/-- Two indexes of one corpus fail alike. A sentence that only one of them finds has a part that the
pattern denotes loosely, but none that it denotes; and when no group with a repetition is optional
they find the same. -/
theorem findMatching_of_counts {corpus : Corpus} (hcorpus : corpus.isEmpty = false)
    {count count' : Nat} (hpos : 0 < count) (hle : count ≤ Mask.width) (hpos' : 0 < count')
    (hle' : count' ≤ Mask.width) :
    ∃ index index', ofCorpus corpus count = .ok index ∧ ofCorpus corpus count' = .ok index' ∧
      ∀ pattern,
        (∀ error, index.findMatching .unlimited pattern = .error error ↔
          index'.findMatching .unlimited pattern = .error error) ∧
        (∀ found found', index.findMatching .unlimited pattern = .ok found →
          index'.findMatching .unlimited pattern = .ok found' →
          ∀ id ∈ found.results, id ∉ found'.results →
            ∃ sentence, (id, sentence) ∈ corpus.toList ∧
              HasPart (LooselyDenotes pattern) sentence.toList ∧
              ¬ HasPart (Denotes pattern) sentence.toList) ∧
        (OptionsArePlain (pattern.map PatternToken.ofChar) →
          (index.findMatching .unlimited pattern).map (·.results) =
            (index'.findMatching .unlimited pattern).map (·.results)) := by
  obtain ⟨index, hindex, hof⟩ := exists_ofCorpus hcorpus hpos hle
  obtain ⟨index', hindex', hof'⟩ := exists_ofCorpus hcorpus hpos' hle'
  refine ⟨index, index', hindex, hindex', ?_⟩
  intro pattern
  have herror : ∀ error, index.findMatching .unlimited pattern = .error error ↔
      index'.findMatching .unlimited pattern = .error error := by
    intro error
    rw [findMatching_eq_error_iff, findMatching_eq_error_iff]
  refine ⟨herror, ?_, ?_⟩
  · intro found found' hfound hfound' id hid hid'
    exact hof.exists_of_notMem hof' hfound hfound' hid hid'
  · intro hplain
    cases hfound : index.findMatching .unlimited pattern with
    | error e => rw [(herror e).mp hfound]
    | ok found =>
      cases hfound' : index'.findMatching .unlimited pattern with
      | error e => exact absurd (hfound.symm.trans ((herror e).mpr hfound')) nofun
      | ok found' =>
        have hresults : found.results = found'.results := by
          apply Std.ExtTreeSet.ext_mem
          intro id
          exact ⟨hof.mem_of_mem hof' hplain hfound hfound',
            hof'.mem_of_mem hof hplain hfound' hfound⟩
        exact congrArg Except.ok hresults

/-- Two sentences, one of them with a match. -/
private def twoSentences : Corpus :=
  .ofList [(⟨"s", 2⟩, "bd"), (⟨"s", 3⟩, "ab")]

/-- One bucket for all characters gives what a bucket for each of them gives. -/
theorem findMatching_of_counts_one :
    twoSentences.isEmpty = false ∧ (0 < 1 ∧ 1 ≤ Mask.width) ∧ (0 < 32 ∧ 32 ≤ Mask.width) ∧
    OptionsArePlain ("b(ca)?d".toList.map PatternToken.ofChar) ∧
    ∃ index index', Index.ofCorpus twoSentences 1 = .ok index ∧
      Index.ofCorpus twoSentences 32 = .ok index' ∧
      (index.findMatching .unlimited "b(ca)?d".toList).map (·.results) =
        (index'.findMatching .unlimited "b(ca)?d".toList).map (·.results) := by
  have hcorpus : twoSentences.isEmpty = false := by decide +kernel
  have hplain : OptionsArePlain ("b(ca)?d".toList.map PatternToken.ofChar) := by decide
  have hone : 0 < 1 ∧ 1 ≤ Mask.width := by decide
  have hmany : 0 < 32 ∧ 32 ≤ Mask.width := by decide
  obtain ⟨index, index', hindex, hindex', hsame⟩ :=
    findMatching_of_counts hcorpus hone.1 hone.2 hmany.1 hmany.2
  exact ⟨hcorpus, hone, hmany, hplain, index, index', hindex, hindex', (hsame _).2.2 hplain⟩

/-- Two sentences without a match. -/
private def withoutMatch : Corpus :=
  .ofList [(⟨"s", 2⟩, "yax"), (⟨"s", 3⟩, "b")]

-- The optional group may be left once its loop has read `a`. That the loop requires the bucket of
-- `b` is no obstacle as long as `x` is in the same bucket.
example : [1, 32].map (fun count => (Index.ofCorpus withoutMatch count).toOption.bind fun index =>
      (index.findMatching .unlimited "y(a*b)?x".toList).toOption.map (·.results.toList)) =
    [some [⟨"s", 2⟩], some []] := by
  cbv

end SentenceSearch
