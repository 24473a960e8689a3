import Mathlib.Data.List.Destutter
import SentenceSearch.Proofs.SuffixTree.Add
import SentenceSearch.Proofs.SuffixTree.Paths

/-!
# The strings that end in a suffix tree

A tree comes about by inserting texts, each with a payload. The strings that end in it are the
suffixes of these texts. Each of them has a node of its own, with the payloads of the texts that it
is a suffix of, in the order in which they came. A payload that comes again at once is not repeated.

## Main definitions

* `SuffixTree.ofInserts` — the tree after some texts have been inserted
* `IsEnding` — a string is a suffix of one of some texts
* `payloadsEnding` — the payloads of the texts that a string is a suffix of

## Main results

* `exists_settled` — what holds after any insertions
* `toList_endsOf` — the payloads of a string are those of the texts that it is a suffix of
* `payloads_ofInserts` — where the payloads of a tree are
-/

namespace SentenceSearch

/-! ### Endings of texts -/

/-- The string is a suffix of one of the texts, and not the empty one. -/
def IsEnding (texts : List (List Char)) (x : List Char) : Prop :=
  x ≠ [] ∧ ∃ text ∈ texts, x <:+ text

instance (texts : List (List Char)) : DecidablePred (IsEnding texts) := fun _ =>
  inferInstanceAs (Decidable (_ ∧ _))

section Inserts

variable {P : Type} {inserts : List (Sentence × P)} {x : List Char}

/-- The texts that are inserted. -/
def textsOf (inserts : List (Sentence × P)) : List (List Char) :=
  inserts.map fun insert => insert.1.chars.toList

/-- The payloads of the inserted texts that have a string as a suffix, in the order of insertion. Of
equal payloads that follow each other one is kept. -/
def payloadsEnding [DecidableEq P] (inserts : List (Sentence × P)) (x : List Char) : List P :=
  ((inserts.filter fun insert => x <:+ insert.1.chars.toList).map Prod.snd).destutter (· ≠ ·)

end Inserts

/-! ### Payloads without repetition -/

section Destutter

variable {α : Type} [DecidableEq α]

private theorem destutter'_concat (a b : α) (l : List α) :
    (l ++ [b]).destutter' (· ≠ ·) a = if (l.destutter' (· ≠ ·) a).getLast? = some b
      then l.destutter' (· ≠ ·) a else l.destutter' (· ≠ ·) a ++ [b] := by
  induction l generalizing a with
  | nil =>
    by_cases hab : a = b
    · simp [hab]
    · simp [hab]
  | cons c l ih =>
    by_cases hac : a = c
    · rw [List.cons_append, List.destutter'_cons_neg _ (not_not.mpr hac),
        List.destutter'_cons_neg _ (not_not.mpr hac)]
      exact ih a
    · rw [List.cons_append, List.destutter'_cons_pos _ hac, List.destutter'_cons_pos _ hac, ih c,
        List.getLast?_cons_of_ne_nil (List.destutter'_ne_nil _ _)]
      split <;> rfl

/-- One more value is kept unless it is the last one that was kept. -/
theorem destutter_concat (l : List α) (b : α) :
    (l ++ [b]).destutter (· ≠ ·) = if (l.destutter (· ≠ ·)).getLast? = some b
      then l.destutter (· ≠ ·) else l.destutter (· ≠ ·) ++ [b] := by
  cases l with
  | nil => simp
  | cons a l => exact destutter'_concat a b l

end Destutter

namespace SuffixTree

variable {P : Type} [DecidableEq P] {tree : SuffixTree P} {spell : Nat → List Char}
  {before : List Char → Array P} {text x : List Char} {p : P} {v : Nat}
  {inserts : List (Sentence × P)}

/-- The tree after some texts have been inserted, each with its payload. -/
def ofInserts (inserts : List (Sentence × P)) : SuffixTree P :=
  inserts.foldl (fun tree insert => tree.add insert.1 insert.2) .empty

/-- The payloads of the strings that end in the tree after some texts have been inserted. -/
def endsOf (inserts : List (Sentence × P)) : List Char → Array P :=
  inserts.foldl (fun ends insert =>
    creditedUpTo ends insert.1.chars.toList insert.2 insert.1.size) fun _ => #[]

/-- After any insertions the tree is a suffix tree in which the suffixes of the texts end. -/
theorem exists_settled (inserts : List (Sentence × P)) :
    ∃ spell, Settled (ofInserts inserts) spell (endsOf inserts) := by
  induction inserts using List.reverseRecOn with
  | nil => exact ⟨_, settled_empty⟩
  | append_singleton inserts insert ih =>
    obtain ⟨spell, h⟩ := ih
    rw [ofInserts, endsOf, List.foldl_append, List.foldl_append]
    exact h.add insert.1 insert.2

/-! ### What ends -/

/-- An insertion credits the proper suffixes of its text. -/
theorem creditedUpTo_size (sentence : Sentence) :
    creditedUpTo before sentence.chars.toList p sentence.size x =
      if x ≠ [] ∧ x <:+ sentence.chars.toList then credit (before x) p else before x := by
  have hsize : sentence.size = sentence.chars.toList.length := Array.length_toList.symm
  rw [creditedUpTo_eq hsize.le, hsize]
  simp only [exists_drop_iff]

theorem toList_credit (payloads : Array P) (p : P) :
    (credit payloads p).toList =
      if payloads.toList.getLast? = some p then payloads.toList else payloads.toList ++ [p] := by
  rw [credit, Array.getLast?_toList]
  split
  · rfl
  · exact Array.toList_push

/-- The payloads of a string are those of the texts that it is a suffix of. -/
theorem toList_endsOf (inserts : List (Sentence × P)) (hx : x ≠ []) :
    (endsOf inserts x).toList = payloadsEnding inserts x := by
  induction inserts using List.reverseRecOn with
  | nil => rfl
  | append_singleton inserts insert ih =>
    rw [endsOf, List.foldl_append]
    change (creditedUpTo (endsOf inserts) _ _ _ x).toList = _
    rw [creditedUpTo_size, payloadsEnding, List.filter_append, List.map_append]
    by_cases hsuffix : x <:+ insert.1.chars.toList
    · rw [if_pos ⟨hx, hsuffix⟩, toList_credit, ih,
        List.filter_cons_of_pos (by simpa using hsuffix)]
      exact (destutter_concat _ _).symm
    · rw [if_neg fun h => hsuffix h.2, ih,
        List.filter_cons_of_neg (by simpa using hsuffix), List.filter_nil, List.map_nil,
        List.append_nil]
      rfl

/-- The strings that end in a tree are the suffixes of its texts. -/
theorem endsOf_ne_empty_iff : endsOf inserts x ≠ #[] ↔ IsEnding (textsOf inserts) x := by
  induction inserts using List.reverseRecOn with
  | nil => simp [endsOf, IsEnding, textsOf]
  | append_singleton inserts insert ih =>
    rw [endsOf, List.foldl_append]
    change creditedUpTo (endsOf inserts) _ _ _ x ≠ #[] ↔ _
    have hsize : insert.1.size = insert.1.chars.toList.length := Array.length_toList.symm
    rw [creditedUpTo_ne_empty_iff, ih, hsize, exists_drop_iff]
    simp [IsEnding, textsOf, or_and_right, exists_or, and_or_left]

/-! ### Where the payloads are -/

/-- Each suffix of an inserted text leads to one node, and the payloads there are those of the texts
that it is a suffix of. No other node has a payload. -/
theorem payloads_ofInserts (inserts : List (Sentence × P)) :
    (∀ x, IsEnding (textsOf inserts) x → ∃ v, (∀ u, (ofInserts inserts).Leads x u ↔ u = v) ∧
      ((ofInserts inserts).payloads v).toList = payloadsEnding inserts x) ∧
    (ofInserts inserts).payloads root = #[] ∧
    ∀ v < (ofInserts inserts).nodeCount,
      (∀ x, (ofInserts inserts).Leads x v → ¬ IsEnding (textsOf inserts) x) →
        (ofInserts inserts).payloads v = #[] := by
  obtain ⟨spell, hsettled⟩ := exists_settled inserts
  have h := hsettled.stores
  refine ⟨?_, ?_, ?_⟩
  · intro x hx
    obtain ⟨v, hv, rfl⟩ := h.ended (endsOf_ne_empty_iff.mpr hx)
    refine ⟨v, ?_, ?_⟩
    · intro u
      rw [h.labelled.leads_iff]
      constructor
      · rintro ⟨hu, hspell⟩
        exact h.labelled.spell_inj hu hv hspell
      · rintro rfl
        exact ⟨hv, rfl⟩
    · rw [h.payloads hv, toList_endsOf inserts hx.1]
  · rw [h.payloads h.labelled.root_lt, h.labelled.spell_root, h.ends_nil]
  · intro v hv hnone
    rw [h.payloads hv]
    by_contra hends
    exact hnone _ (h.labelled.leads_spell hv) (endsOf_ne_empty_iff.mp hends)

/-- A text that is inserted twice leaves its payload twice, unless the two come at once. -/
theorem payloads_ofInserts_repeated :
    IsEnding ["ab".toList, "b".toList, "cab".toList, "ab".toList] "b".toList ∧
      ∃ v, (∀ u, (ofInserts [(.ofText .empty "ab".toList, 3), (.ofText .empty "b".toList, 3),
          (.ofText .empty "cab".toList, 7), (.ofText .empty "ab".toList, 3)]).Leads "b".toList u ↔
            u = v) ∧
        ((ofInserts [(.ofText .empty "ab".toList, 3), (.ofText .empty "b".toList, 3),
          (.ofText .empty "cab".toList, 7), (.ofText .empty "ab".toList, 3)]).payloads v).toList =
            [3, 7, 3] := by
  have hending : IsEnding ["ab".toList, "b".toList, "cab".toList, "ab".toList] "b".toList := by
    decide
  refine ⟨hending, ?_⟩
  exact (payloads_ofInserts _).1 "b".toList hending

end SuffixTree

end SentenceSearch
