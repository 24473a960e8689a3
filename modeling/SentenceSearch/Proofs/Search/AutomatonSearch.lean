import SentenceSearch.Proofs.Automaton.Construction
import SentenceSearch.Proofs.Pattern.Meaning
import SentenceSearch.Proofs.Search.TreeMatching

/-!
# Search with an automaton

A search may be made with any automaton, whatever its transitions need. It finds every text with a
part that the automaton reads while the rest of the text offers what is needed, and nothing but
texts with a part that the automaton reads when needs do not count. What lies between the two
depends on the masks of the tree; a tree without annotation has none that rule anything out.

## Main definitions

* `Automaton.RunsInside` — a run reads a part of a text
* `SymbolTable.offered` — what the suffix masks of a text offer at a position

## Main results

* `mem_findMatching_finish` — what a search finds, for any automaton and any history of the tree
-/

namespace SentenceSearch

/-- A run from the start to the accepting state reads the part of a text between two positions. -/
def Automaton.RunsInside (automaton : Automaton) (available : List Char → Mask)
    (text : List Char) : Prop :=
  ∃ i j, i ≤ j ∧ j ≤ text.length ∧
    automaton.Run available automaton.start (text.drop i) automaton.accept (text.drop j)

/-- What the suffix masks of a text offer at the position in front of what is left of it. Past the
last position there is nothing. -/
def SymbolTable.offered (table : SymbolTable) (text left : List Char) : Mask :=
  (table.suffixMasks text).getD (text.length - left.length) 0

theorem SymbolTable.offered_eq {table : SymbolTable} {text left : List Char}
    (h : left <:+ text) : table.offered text left = table.maskOf left := by
  rw [offered, masksAgree_suffixMasks table text _ (Nat.sub_le _ _),
    ← List.suffix_iff_eq_drop.mp h]

namespace Automaton

variable {automaton : Automaton} {available available' : List Char → Mask} {text left : List Char}

theorem RunsInside.congr_of_suffix
    (h : ∀ rest, rest <:+ text → available rest = available' rest)
    (hruns : automaton.RunsInside available text) : automaton.RunsInside available' text := by
  obtain ⟨i, j, hij, hj, run⟩ := hruns
  refine ⟨i, j, hij, hj, run.congr_of_suffix fun rest hrest => ?_⟩
  exact h rest (hrest.trans (List.drop_suffix i text))

/-- A run over the front of a suffix reads a part of the text. -/
theorem Run.runsInside {suffix : List Char} (hsuffix : suffix <:+ text)
    (run : automaton.Run available automaton.start suffix automaton.accept left) :
    automaton.RunsInside available text := by
  have hleft := run.suffix.trans hsuffix
  refine ⟨text.length - suffix.length, text.length - left.length, ?_, Nat.sub_le _ _, ?_⟩
  · exact Nat.sub_le_sub_left run.suffix.length_le _
  · rwa [← List.suffix_iff_eq_drop.mp hsuffix, ← List.suffix_iff_eq_drop.mp hleft]

/-- If a run reads a part of a text, then one reads the front of a suffix that is not empty, where
nowhere less is available than at the end. -/
theorem RunsInside.exists_run (hruns : automaton.RunsInside available text) (hne : text ≠ [])
    (hend : ∀ rest, (available []).allows (available rest) = true) :
    ∃ suffix left, suffix ≠ [] ∧ suffix <:+ text ∧
      automaton.Run available automaton.start suffix automaton.accept left := by
  obtain ⟨i, j, hij, hj, run⟩ := hruns
  by_cases hi : text.drop i = []
  · -- A run at the end of the text reads nothing, so it can as well be made at the start.
    have hnil : text.drop j = [] := List.suffix_nil.mp (hi ▸ run.suffix)
    rw [hi, hnil, run_nil_iff] at run
    have hrun : automaton.Run (fun _ => available []) automaton.start text automaton.accept
        text := by
      apply Reaches.run
      exact run
    exact ⟨text, text, hne, List.suffix_rfl, hrun.mono hend⟩
  · exact ⟨text.drop i, text.drop j, hi, List.drop_suffix i text, run⟩

end Automaton

namespace SuffixTree

open TreeStep

variable {P : Type} [DecidableEq P] {tree : SuffixTree P} {spell : Nat → List Char}
  {ends : List Char → Array P} {table : SymbolTable} {steps : List (TreeStep P)}
  {automaton : Automaton} {available : List Char → Mask} {text : List Char} {p : P}

omit [DecidableEq P] in
/-- Without annotation the masks offer everything. -/
theorem offers_full (hannotated : tree.annotated = false) :
    Offers tree spell fun _ => Mask.full := by
  intro edge offset x w rest hplace _ _ _
  obtain ⟨v, c, e, -, rfl, -⟩ := hplace
  have hchild : (tree.record (tree.edge e)).childMask = Mask.full :=
    if_neg (Bool.eq_false_iff.mp hannotated)
  rw [EdgeRecord.partialMask_eq_full hchild]
  exact Mask.allows_refl _

variable [Ord P] [Std.TransOrd P] [Std.LawfulEqOrd P] {limits : SearchLimits}

/-- A text is found if a run reads a part of it and needs no more than the masks offer. -/
theorem Records.mem_findMatching_of_runsInside (h : Records table tree spell (endsAfter steps))
    (hrange : automaton.InRange) (hoffers : Offers tree spell available)
    (hend : ∀ rest, (available []).allows (available rest) = true)
    (hmem : (text, p) ∈ inserted steps) (hne : text ≠ [])
    (hruns : automaton.RunsInside available text) :
    p ∈ ((tree.source (m := Id)).findMatching automaton .unlimited).run.results := by
  obtain ⟨suffix, left, hsuffix, htext, run⟩ := hruns.exists_run hne hend
  have hp : p ∈ endsAfter steps suffix := mem_endsAfter.mpr ⟨hsuffix, text, hmem, htext⟩
  exact h.mem_findMatching_of_run hrange rfl rfl hoffers hp run

/-- A run reads a part of what is found, if needs do not count. -/
theorem Records.exists_runsInside (h : Records table tree spell (endsAfter steps))
    (hrange : automaton.InRange)
    (hp : p ∈ ((tree.source (m := Id)).findMatching automaton .unlimited).run.results) :
    ∃ text, (text, p) ∈ inserted steps ∧ text ≠ [] ∧
      automaton.RunsInside (fun _ => Mask.full) text := by
  obtain ⟨suffix, left, hends, run⟩ := h.exists_run_of_mem_findMatching hrange rfl rfl hp
  obtain ⟨hne, text, hmem, hsuffix⟩ := mem_endsAfter.mp hends
  refine ⟨text, hmem, ?_, run.runsInside hsuffix⟩
  rintro rfl
  exact hne (List.suffix_nil.mp hsuffix)

end SuffixTree

open SuffixTree TreeStep

variable {P : Type} [DecidableEq P] [Ord P] [Std.TransOrd P] [Std.LawfulEqOrd P]

/-- Without limits a search with any automaton whose steps stay in range finds each inserted text
with a part that a run reads while the suffix masks of the text offer what the run needs. What it
finds is in a text with a part that a run reads if needs do not count; and in a tree without
annotation it finds all such texts. -/
theorem mem_findMatching_finish {wiring : List WiringStep} {start : Nat}
    (hstart : start < (StateArena.ofSteps wiring).size)
    (htargets : ∀ step ∈ wiring, ∀ t, step.transition? = some t →
      t.target < (StateArena.ofSteps wiring).size)
    (accept : Nat) (table : SymbolTable) (steps : List (TreeStep P)) (p : P) :
    let automaton := (StateArena.ofSteps wiring).finish start accept
    let found := (Id.run
      ((SuffixTree.ofSteps table steps).source.findMatching automaton .unlimited)).results
    (∀ text, (text, p) ∈ inserted steps → text ≠ [] →
      automaton.RunsInside (table.offered text) text → p ∈ found) ∧
    (p ∈ found → ∃ text, (text, p) ∈ inserted steps ∧ text ≠ [] ∧
      automaton.RunsInside (fun _ => Mask.full) text) ∧
    ((SuffixTree.ofSteps table steps).annotated = false →
      (p ∈ found ↔ ∃ text, (text, p) ∈ inserted steps ∧ text ≠ [] ∧
        automaton.RunsInside (fun _ => Mask.full) text)) := by
  intro automaton found
  obtain ⟨spell, hrecords⟩ := exists_records table steps
  have hrange : automaton.InRange := StateArena.inRange_finish hstart htargets accept
  refine ⟨?_, hrecords.exists_runsInside hrange, ?_⟩
  · intro text hmem hne hruns
    have hruns := hruns.congr_of_suffix fun rest hrest => SymbolTable.offered_eq hrest
    exact hrecords.mem_findMatching_of_runsInside hrange hrecords.offers_maskOf
      (fun rest => Mask.zero_allows _) hmem hne hruns
  · intro hannotated
    refine ⟨hrecords.exists_runsInside hrange, ?_⟩
    rintro ⟨text, hmem, hne, hruns⟩
    exact hrecords.mem_findMatching_of_runsInside hrange (offers_full hannotated)
      (fun rest => Mask.allows_refl _) hmem hne hruns

/-- Two states lead to each other and the accepting state leads on, with needs on the way. -/
private def circling : List WiringStep :=
  [.state, .state, .state, .epsilon 1 ⟨2, 0⟩, .epsilon 2 ⟨1, 0⟩, .char 2 'b' ⟨0, 2⟩,
    .any 0 ⟨1, 4⟩]

private theorem circling_lt :
    ∀ step ∈ circling, ∀ t, step.transition? = some t →
      t.target < (StateArena.ofSteps circling).size := by
  intro step hstep t ht
  simp only [circling, List.mem_cons, List.not_mem_nil, or_false] at hstep
  rcases hstep with rfl | rfl | rfl | rfl | rfl | rfl | rfl <;> cases ht <;> decide

/-- A run from the second character on is found, though it meets a cycle of empty transitions. -/
theorem mem_findMatching_finish_circling :
    1 < (StateArena.ofSteps circling).size ∧
    (∀ step ∈ circling, ∀ t, step.transition? = some t →
      t.target < (StateArena.ofSteps circling).size) ∧
    7 ∈ (Id.run ((SuffixTree.ofSteps (.ofList [('a', 1), ('b', 2)])
      [.insert "aa".toList 3, .insert "ab".toList 7, .annotate]).source.findMatching
        ((StateArena.ofSteps circling).finish 1 0) .unlimited)).results := by
  have hsize : 1 < (StateArena.ofSteps circling).size := by decide
  refine ⟨hsize, circling_lt, ?_⟩
  apply (mem_findMatching_finish hsize circling_lt 0 _ _ 7).1 "ab".toList
  · simp [inserted, inserted?]
  · decide
  · refine ⟨1, 2, by decide, by decide, ?_⟩
    have hempty : ⟨2, 0⟩ ∈ ((StateArena.ofSteps circling).finish 1 0).epsilons 1 := by
      decide +kernel
    have hread : ⟨0, 2⟩ ∈ ((StateArena.ofSteps circling).finish 1 0).step 2 'b' := by
      decide +kernel
    exact .epsilon ⟨2, 0⟩ hempty (by decide +kernel)
      (.consume ⟨0, 2⟩ hread (by decide +kernel) (.refl _ _))

end SentenceSearch
