import SentenceSearch.Proofs.SuffixTree.Add
import SentenceSearch.Proofs.SuffixTree.Annotation

/-!
# The history of a suffix tree

A tree comes about by insertions and annotations in any order. Whatever the order, the strings that
end in it are the suffixes of the inserted texts, and an annotated tree has all its masks up to
date.

## Main definitions

* `TreeStep` — an insertion or an annotation
* `SuffixTree.ofSteps` — the tree after some steps
* `TreeStep.inserted` — the texts that the steps insert, with their payloads
* `SuffixTree.Records` — what holds of a tree after some steps
* `SuffixTree.Reachable` — a tree with any history, whatever masks its texts carry

## Main results

* `exists_records` — it holds after any steps
* `Reachable.exists_settled` — a tree with any history is a suffix tree
* `mem_endsAfter` — the payloads of a string are those of the texts that it is a suffix of
-/

namespace SentenceSearch

/-- A step in the history of a tree. -/
inductive TreeStep (P : Type) where
  /-- A text is inserted with a payload. -/
  | insert (text : List Char) (payload : P)
  /-- The masks are computed. -/
  | annotate

namespace TreeStep

variable {P : Type}

/-- The text that a step inserts, with its payload. -/
def inserted? : TreeStep P → Option (List Char × P)
  | insert text payload => some (text, payload)
  | annotate => none

/-- The texts that the steps insert, with their payloads. -/
def inserted (steps : List (TreeStep P)) : List (List Char × P) := steps.filterMap inserted?

variable [DecidableEq P]

/-- Take a step, with the masks of `table` for the texts. -/
def apply (table : SymbolTable) (tree : SuffixTree P) : TreeStep P → SuffixTree P
  | insert text payload => tree.add (Sentence.ofText table text) payload
  | annotate => tree.annotate

/-- What one more step does to the ends of strings. -/
def creditEnds (ends : List Char → Array P) : TreeStep P → List Char → Array P
  | insert text payload => SuffixTree.creditedUpTo ends text payload text.length
  | annotate => ends

end TreeStep

namespace SuffixTree

open TreeStep

variable {P : Type} [DecidableEq P] {table : SymbolTable} {steps : List (TreeStep P)}
  {step : TreeStep P} {tree : SuffixTree P} {spell : Nat → List Char}
  {ends : List Char → Array P} {x : List Char} {p : P}

/-- The tree after some steps. -/
def ofSteps (table : SymbolTable) (steps : List (TreeStep P)) : SuffixTree P :=
  steps.foldl (apply table) .empty

/-- The payloads of the strings that end in the tree after some steps. -/
def endsAfter (steps : List (TreeStep P)) : List Char → Array P :=
  steps.foldl creditEnds fun _ => #[]

/-- The ends of strings are the given ones, the texts carry the masks of the table, and in an
annotated tree all masks are up to date. -/
structure Records (table : SymbolTable) (tree : SuffixTree P) (spell : Nat → List Char)
    (ends : List Char → Array P) : Prop where
  settled : Settled tree spell ends
  prepared : Prepared table tree
  upToDate : tree.annotated = true → ∀ e < tree.edgeCount, tree.UpToDate e

omit [DecidableEq P] in
theorem records_empty : Records table (empty : SuffixTree P) (fun _ => []) fun _ => #[] where
  settled := settled_empty
  prepared sentence hmem := by simp [empty] at hmem
  upToDate h := by cases h

omit [DecidableEq P] in
/-- An annotation changes nothing but masks. -/
theorem Settled.annotate (h : Settled tree spell ends) : Settled tree.annotate spell ends := by
  have hnode (v : Nat) : tree.annotate.node v = tree.node v := by rw [node, nodes_annotate, node]
  refine h.congr h.stores.labelled.upToDate_annotate.1 (fun v => ?_) fun v => ?_
  · rw [payloads, hnode, payloads]
  · rw [link, hnode, link]

/-- Every step keeps the records. -/
theorem Records.apply (h : Records table tree spell ends) (step : TreeStep P) :
    ∃ spell', Records table (step.apply table tree) spell' (creditEnds ends step) := by
  cases step with
  | insert text payload =>
    obtain ⟨spell', hsettled⟩ := h.settled.add (Sentence.ofText table text) payload
    refine ⟨spell', ⟨hsettled, fun sentence hmem => ?_, fun hannotated => ?_⟩⟩
    · rw [TreeStep.apply, texts_add, Array.mem_push] at hmem
      exact hmem.elim (h.prepared sentence) fun heq => ⟨text, heq⟩
    · rw [TreeStep.apply, annotated_add] at hannotated
      cases hannotated
  | annotate =>
    refine ⟨spell, ⟨h.settled.annotate, fun sentence hmem => ?_,
      fun _ => h.settled.stores.labelled.upToDate_annotate.2⟩⟩
    rw [TreeStep.apply, texts_annotate] at hmem
    exact h.prepared sentence hmem

/-- The records hold after any steps. -/
theorem exists_records (table : SymbolTable) (steps : List (TreeStep P)) :
    ∃ spell, Records table (ofSteps table steps) spell (endsAfter steps) := by
  induction steps using List.reverseRecOn with
  | nil => exact ⟨_, records_empty⟩
  | append_singleton steps step ih =>
    obtain ⟨spell, h⟩ := ih
    rw [ofSteps, endsAfter, List.foldl_append, List.foldl_append]
    exact h.apply step

/-- A tree after any insertions and annotations, whatever masks the texts carry. -/
inductive Reachable : SuffixTree P → Prop where
  | empty : Reachable .empty
  | add {tree : SuffixTree P} (sentence : Sentence) (payload : P) :
      Reachable tree → Reachable (tree.add sentence payload)
  | annotate {tree : SuffixTree P} : Reachable tree → Reachable tree.annotate

/-- A tree with any history is a suffix tree. -/
theorem Reachable.exists_settled (h : Reachable tree) : ∃ spell ends, Settled tree spell ends := by
  induction h with
  | empty => exact ⟨_, _, settled_empty⟩
  | add sentence payload _ ih =>
    obtain ⟨spell, ends, hsettled⟩ := ih
    obtain ⟨spell', hadd⟩ := hsettled.add sentence payload
    exact ⟨spell', _, hadd⟩
  | annotate _ ih =>
    obtain ⟨spell, ends, hsettled⟩ := ih
    exact ⟨spell, ends, hsettled.annotate⟩

/-! ### The ends of strings -/

/-- The payloads of a string are those of the inserted texts that it is a proper suffix of. -/
theorem mem_endsAfter :
    p ∈ endsAfter steps x ↔ x ≠ [] ∧ ∃ text, (text, p) ∈ inserted steps ∧ x <:+ text := by
  induction steps using List.reverseRecOn with
  | nil => simp [endsAfter, inserted]
  | append_singleton steps step ih =>
    rw [endsAfter, List.foldl_append]
    change p ∈ creditEnds (endsAfter steps) step x ↔ _
    rw [inserted, List.filterMap_append]
    cases step with
    | insert text payload =>
      rw [creditEnds, mem_creditedUpTo le_rfl, exists_drop_iff, ih]
      simp only [List.filterMap_cons, List.filterMap_nil, inserted?, List.mem_append,
        List.mem_singleton, Prod.mk.injEq]
      constructor
      · rintro (⟨hne, text', hmem, hx⟩ | ⟨rfl, hne, hx⟩)
        · exact ⟨hne, text', Or.inl hmem, hx⟩
        · exact ⟨hne, text, Or.inr ⟨rfl, rfl⟩, hx⟩
      · rintro ⟨hne, text', hmem | ⟨rfl, rfl⟩, hx⟩
        · exact Or.inl ⟨hne, text', hmem, hx⟩
        · exact Or.inr ⟨rfl, hne, hx⟩
    | annotate => simpa [creditEnds, inserted?, inserted] using ih

end SuffixTree

end SentenceSearch
