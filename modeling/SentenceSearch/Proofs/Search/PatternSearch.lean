import SentenceSearch.Proofs.Pattern.Meaning
import SentenceSearch.Proofs.Search.TreeMatching

/-!
# Search for a pattern

A search with the automaton of a pattern finds the payloads of the texts with a part that the
pattern denotes, in a tree with any history.

## Main results

* `mem_findMatching_compilePattern` — what the search finds
-/

namespace SentenceSearch

open SuffixTree TreeStep Pattern

variable {P : Type} [DecidableEq P] [Ord P] [Std.TransOrd P] [Std.LawfulEqOrd P]
  {table : SymbolTable} {steps : List (TreeStep P)} {pattern : List Char} {automaton : Automaton}

/-- Without limits the search for a pattern finds the payloads of those inserted texts that have a
part which the pattern denotes. Neither the order of the steps nor the masks make a difference. -/
theorem mem_findMatching_compilePattern (h : compilePattern table pattern = .ok automaton)
    (hplain : OptionsArePlain (pattern.map PatternToken.ofChar)) (p : P) :
    p ∈ (Id.run ((ofSteps table steps).source.findMatching automaton .unlimited)).results ↔
      ∃ text before part after, (text, p) ∈ inserted steps ∧ text ≠ [] ∧
        text = before ++ part ++ after ∧ Denotes pattern part := by
  obtain ⟨tree, hread, rfl⟩ := compilePattern_eq_ok_iff.mp h
  obtain ⟨spell, hrecords⟩ := exists_records table steps
  have hrange := inRange_automaton table tree
  constructor
  · intro hp
    obtain ⟨suffix, left, hends, run⟩ :=
      hrecords.exists_run_of_mem_findMatching hrange rfl rfl hp
    obtain ⟨part, rfl, hpart⟩ := mem_looseLanguage_of_run run
    obtain ⟨hne, text, hmem, before, rfl⟩ := mem_endsAfter.mp hends
    refine ⟨_, before, part, left, hmem, fun hnil => hne (List.append_eq_nil_iff.mp hnil).2,
      (List.append_assoc _ _ _).symm, ?_⟩
    exact ((looselyDenotes_iff hread).mpr hpart).strict hplain
  · rintro ⟨text, before, part, after, hmem, hne, rfl, hpart⟩
    have hproper := (read_eq_ok_iff.mp hread).2.proper
    have hlanguage := (denotes_iff hread).mp hpart
    -- An empty part is found at the start of the text, any other one where it is.
    have hfound (tail : List Char) (hsuffix : part ++ tail <:+ before ++ part ++ after)
        (hnil : part ++ tail ≠ []) :
        p ∈ (Id.run ((ofSteps table steps).source.findMatching (tree.automaton table)
          .unlimited)).results :=
      hrecords.mem_findMatching_of_run hrange rfl rfl hrecords.offers_maskOf
        (mem_endsAfter.mpr ⟨hnil, _, hmem, hsuffix⟩)
        (automaton_run table hproper hlanguage tail)
    cases part with
    | nil => exact hfound _ (List.suffix_refl _) hne
    | cons c part =>
      exact hfound after ⟨before, (List.append_assoc _ _ _).symm⟩ (List.cons_ne_nil _ _)

/-- The tree of `b(ca)?d`. -/
private def optionalMiddle : Pattern :=
  .sequence (.literal 'b') (.sequence (.quantified .optional (.group
    (.sequence (.literal 'c') (.sequence (.literal 'a') .empty))))
    (.sequence (.literal 'd') .empty))

private theorem mem_language_optionalMiddle : ['b', 'c', 'a', 'd'] ∈ optionalMiddle.language := by
  simp only [optionalMiddle, language]
  exact ⟨['b'], rfl, ['c', 'a', 'd'], ⟨['c', 'a'], Or.inl ⟨['c'], rfl, ['a'], ⟨['a'], rfl, [], rfl,
    rfl⟩, rfl⟩, ['d'], ⟨['d'], rfl, [], rfl, rfl⟩, rfl⟩, rfl⟩

/-- A text that comes after an annotation is found like the ones before it. -/
theorem mem_findMatching_compilePattern_optional :
    ∃ automaton, compilePattern (.ofList [('a', 1), ('b', 2)]) "b(ca)?d".toList = .ok automaton ∧
      OptionsArePlain ("b(ca)?d".toList.map PatternToken.ofChar) ∧
      7 ∈ (Id.run ((ofSteps (.ofList [('a', 1), ('b', 2)]) [.insert "bd".toList 3, .annotate,
        .insert "abcad".toList 7]).source.findMatching automaton .unlimited)).results := by
  have hread : Pattern.read "b(ca)?d".toList = .ok optionalMiddle := by decide +kernel
  have hcompile : compilePattern (.ofList [('a', 1), ('b', 2)]) "b(ca)?d".toList =
      .ok (optionalMiddle.automaton (.ofList [('a', 1), ('b', 2)])) :=
    compilePattern_eq_ok_iff.mpr ⟨_, hread, rfl⟩
  have hplain : OptionsArePlain ("b(ca)?d".toList.map PatternToken.ofChar) := by decide
  refine ⟨_, hcompile, hplain, (mem_findMatching_compilePattern hcompile hplain 7).mpr ?_⟩
  exact ⟨"abcad".toList, ['a'], ['b', 'c', 'a', 'd'], [], by simp [inserted, inserted?], by decide,
    by decide, (denotes_iff hread).mpr mem_language_optionalMiddle⟩

end SentenceSearch
