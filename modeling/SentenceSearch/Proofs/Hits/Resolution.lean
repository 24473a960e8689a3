import SentenceSearch.Proofs.Corpus.FirstTexts
import SentenceSearch.Proofs.Hits.Highlighting
import SentenceSearch.Proofs.Search.Buckets
import SentenceSearch.Proofs.Search.KeySearch
import SentenceSearch.Proofs.Search.Truncation

/-!
# Resolved hits

A search finds identifiers, in no order. They are sorted and looked up in the corpus, and those that
it does not know would be dropped. None is: the tree holds nothing but sentences of the corpus, and
what limits leave of a search is a part of what it finds without them. The text of a hit is the text
that the search went through, because no two sentences of a corpus have one identifier; so it has
the keys in order, and all of them are marked.

## Main results

* `Index.map_id_resolve`, `sortIds_eq_toList` — no identifier is lost, and all are in order
* `IsOf.exists_of_mem_findKeys`, `IsOf.exists_of_mem_findMatching` — limited searches find sentences
* `resolve_findKeys` — the hits of a wildcard query
-/

namespace SentenceSearch

open SuffixTree TreeStep

/-! ### Looking up -/

/-- Sorting the identifiers of a set gives them in the order of the set. -/
theorem sortIds_eq_toList {ids : List SentenceId} {results : Std.ExtTreeSet SentenceId}
    (h : ids.Perm results.toList) : sortIds ids = results.toList := by
  have htotal (a b : SentenceId) : ((compare a b).isLE || (compare b a).isLE) = true := by
    have hswap : compare b a = (compare a b).swap := Std.OrientedCmp.eq_swap
    rw [hswap]
    cases compare a b <;> rfl
  have hsorted : (sortIds ids).Pairwise fun a b => (compare a b).isLE = true :=
    List.pairwise_mergeSort (fun a b c => Std.TransCmp.isLE_trans) htotal ids
  have hordered : results.toList.Pairwise fun a b => (compare a b).isLE = true :=
    Std.ExtTreeSet.ordered_toList.imp Ordering.isLE_of_eq_lt
  have hperm : (sortIds ids).Perm results.toList := (List.mergeSort_perm _ _).trans h
  apply hperm.eq_of_pairwise _ hsorted hordered
  intro a b _ _ hab hba
  exact Std.LawfulEqCmp.eq_of_compare (Std.OrientedCmp.isLE_antisymm hab hba)

namespace Index

variable {corpus : Corpus} {index : Index} {buckets : Nat} {limits : SearchLimits}
  {keys : List (List Char)} {pattern : List Char} {ids : List SentenceId} {id : SentenceId}

theorem lookup?_of_mem_resolve {hit : Hit} (hhit : hit ∈ index.resolve ids) :
    index.lookup? hit.id = some hit.text := by
  obtain ⟨id, -, hlookup⟩ := List.mem_filterMap.mp hhit
  obtain ⟨text, htext, rfl⟩ := Option.map_eq_some_iff.mp hlookup
  exact htext

/-- No identifier that the corpus knows is lost. -/
theorem map_id_resolve (h : ∀ id ∈ ids, (index.lookup? id).isSome = true) :
    (index.resolve ids).map Hit.id = sortIds ids := by
  rw [resolve, List.map_filterMap]
  have hsame : ∀ id ∈ sortIds ids,
      ((index.lookup? id).map fun text => (⟨id, text⟩ : Hit)).map Hit.id = some id := by
    intro id hid
    obtain ⟨text, htext⟩ := Option.isSome_iff_exists.mp (h id (List.mem_mergeSort.mp hid))
    rw [htext]
    rfl
  rw [List.filterMap_congr hsame, List.filterMap_some]

/-- An index that is made of a corpus has a tree that holds its sentences. -/
theorem isOf_of_ofCorpus (h : ofCorpus corpus buckets = .ok index) :
    index.IsOf corpus ∧ index.corpus = corpus := by
  rw [ofCorpus] at h
  split at h
  · cases h
  · split at h
    · cases h
    · cases h
      exact ⟨(ofSteps_steps _ corpus).symm, rfl⟩

/-- A search for keys finds sentences of the corpus that have the keys in order. -/
theorem IsOf.exists_of_mem_findKeys (h : index.IsOf corpus)
    (hid : id ∈ (index.findKeys limits keys).results) :
    ∃ text, (id, text) ∈ corpus.toList ∧
      OccursInOrder (keys.filter (!·.isEmpty)) text.toList := by
  obtain ⟨spell, hrecords⟩ := exists_records index.table (steps corpus)
  have hwhole := (index.tree.source.truncates_findKeys index.table limits keys).mem_whole id hid
  rw [h] at hwhole
  obtain ⟨-, -, _, hmem, hoccurs⟩ := hrecords.exists_occursInOrder rfl rfl hwhole
  obtain ⟨text, htext, rfl⟩ := mem_inserted_steps.mp hmem
  exact ⟨text, htext, hoccurs⟩

/-- A search for a pattern finds sentences of the corpus. -/
theorem IsOf.exists_of_mem_findMatching {found : SearchOutcome SentenceId} (h : index.IsOf corpus)
    (hfound : index.findMatching limits pattern = .ok found) (hid : id ∈ found.results) :
    ∃ text, (id, text) ∈ corpus.toList := by
  obtain ⟨tree, hread, rfl⟩ := findMatching_eq_ok_iff.mp hfound
  have hwhole := (index.tree.source.truncates_findMatching
    (tree.automaton index.table) limits).mem_whole id hid
  obtain ⟨text, hmem, -⟩ := h.exists_hasPart (findMatching_eq_ok_iff.mpr ⟨tree, hread, rfl⟩) hwhole
  exact ⟨text, hmem⟩

end Index

open Index in
/-- The hits of a search for keys are its results, each once and in strictly ascending order. Each of
them has the text that the corpus has for it, where every non-empty key is marked by one span, in
order and without overlaps. The results may be handed over in any order. -/
theorem resolve_findKeys {entries : List (SentenceId × String)} {buckets : Nat} {index : Index}
    (hindex : Index.ofCorpus (.ofList entries) buckets = .ok index) (limits : SearchLimits)
    (keys : List (List Char)) {ids : List SentenceId}
    (hids : ids.Perm (index.findKeys limits keys).results.toList) :
    (index.resolve ids).map Hit.id = (index.findKeys limits keys).results.toList ∧
    (index.resolve ids).Pairwise (fun a b => compare a.id b.id = .lt) ∧
    ∀ hit ∈ index.resolve ids,
      (Corpus.ofList entries).get? hit.id = some hit.text ∧
      (keySpans hit.text.toList keys).map (·.slice hit.text.toList) =
        keys.filter (!·.isEmpty) ∧
      (keySpans hit.text.toList keys).Pairwise fun a b => a.stop ≤ b.start := by
  obtain ⟨hof, hcorpus⟩ := isOf_of_ofCorpus hindex
  have hdistinct := Corpus.isDistinct_ofList entries
  have hfound : ∀ id ∈ ids, ∃ text, (Corpus.ofList entries).get? id = some text ∧
      OccursInOrder (keys.filter (!·.isEmpty)) text.toList := by
    intro id hid
    have hresult := Std.ExtTreeSet.mem_toList.mp (hids.mem_iff.mp hid)
    obtain ⟨text, hmem, hoccurs⟩ := hof.exists_of_mem_findKeys hresult
    exact ⟨text, hdistinct.get?_eq_some_iff.mpr hmem, hoccurs⟩
  have hresults : (index.resolve ids).map Hit.id =
      (index.findKeys limits keys).results.toList := by
    rw [map_id_resolve, sortIds_eq_toList hids]
    intro id hid
    obtain ⟨text, htext, -⟩ := hfound id hid
    rw [lookup?, hcorpus, htext]
    rfl
  refine ⟨hresults, ?_, ?_⟩
  · have hordered : ((index.resolve ids).map Hit.id).Pairwise (fun a b => compare a b = .lt) :=
      hresults ▸ Std.ExtTreeSet.ordered_toList
    exact List.pairwise_map.mp hordered
  · intro hit hhit
    have hlookup := lookup?_of_mem_resolve hhit
    rw [lookup?, hcorpus] at hlookup
    have hid : hit.id ∈ ids := by
      rw [hids.mem_iff, ← hresults]
      exact List.mem_map_of_mem hhit
    obtain ⟨text, htext, hoccurs⟩ := hfound hit.id hid
    -- The text that is looked up is the one that the search went through.
    obtain rfl : text = hit.text := Option.some.inj (htext.symm.trans hlookup)
    exact ⟨hlookup, hoccurs.map_slice_keySpans, pairwise_keySpans _ _⟩

/-- Two texts with a key before another one, and one that has them the other way round only. -/
private def threeTexts : List (SentenceId × String) :=
  [(⟨"b", 2⟩, "か駅か"), (⟨"b", 3⟩, "か駅"), (⟨"a", 2⟩, "駅駅かか")]

/-- Two results in descending order, for keys one of which is empty. -/
theorem resolve_findKeys_reverse :
    ∃ index, Index.ofCorpus (.ofList threeTexts) 32 = .ok index ∧
      let results := (index.findKeys .unlimited [['駅'], [], ['か']]).results.toList
      results.reverse.Perm results ∧
      (index.resolve results.reverse).map Hit.id = results ∧
      ∀ hit ∈ index.resolve results.reverse,
        (keySpans hit.text.toList [['駅'], [], ['か']]).map (·.slice hit.text.toList) =
          [['駅'], ['か']] := by
  have hcorpus : (Corpus.ofList threeTexts).isEmpty = false := by decide +kernel
  have hcount : 0 < 32 ∧ 32 ≤ Mask.width := by decide
  obtain ⟨index, hindex, -⟩ := Index.exists_ofCorpus hcorpus hcount.1 hcount.2
  have hperm := List.reverse_perm (index.findKeys .unlimited [['駅'], [], ['か']]).results.toList
  obtain ⟨hresults, -, hhits⟩ :=
    resolve_findKeys hindex .unlimited [['駅'], [], ['か']] hperm
  exact ⟨index, hindex, hperm, hresults, fun hit hhit => (hhits hit hhit).2.1⟩

-- Each key is marked where it comes first after the key before it.
example : (Index.ofCorpus (.ofList threeTexts) 32).toOption.map (fun index =>
      (index.resolve (index.findKeys .unlimited [['駅'], [], ['か']]).results.toList.reverse).map
        fun hit => (hit.id, keySpans hit.text.toList [['駅'], [], ['か']])) =
    some [(⟨"a", 2⟩, [⟨0, 1⟩, ⟨2, 3⟩]), (⟨"b", 2⟩, [⟨1, 2⟩, ⟨2, 3⟩])] := by
  cbv

end SentenceSearch
