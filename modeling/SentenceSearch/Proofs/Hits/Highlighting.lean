import Mathlib.Order.Bounds.Basic
import SentenceSearch.Hits
import SentenceSearch.Proofs.Search.KeyOrder

/-!
# Marked keys

The keys of a query are marked one after another, each as early as possible. Where the keys occur in
order at all, an early choice never costs a later key its place: what is left of the text after the
first occurrence of a key has what is left after any other one as a suffix.

## Main definitions

* `TextSpan.slice` — the characters of a span

## Main results

* `firstPosition?_eq_some_iff` — the first position of a key is the least one
* `pairwise_keySpans` — spans do not overlap
* `isGreatest_length_keySpans` — as many of the first keys are marked as occur in order
* `OccursInOrder.map_slice_keySpans` — keys that occur in order are all marked
-/

namespace SentenceSearch

variable {key text whole : List Char} {keys : List (List Char)} {offset i : Nat}

/-- The characters of a span. -/
def TextSpan.slice (span : TextSpan) (text : List Char) : List Char :=
  (text.take span.stop).drop span.start

/-! ### The first position of a key -/

/-- The first position of a key is the least one at which the text goes on with the key. -/
theorem firstPosition?_eq_some_iff :
    firstPosition? key text = some i ↔
      i ≤ text.length ∧ key <+: text.drop i ∧ ∀ j < i, ¬ key <+: text.drop j := by
  induction text generalizing i with
  | nil =>
    rw [firstPosition?]
    cases key with
    | nil =>
      rw [List.isEmpty_nil, if_pos rfl, Option.some.injEq]
      constructor
      · rintro rfl
        exact ⟨le_rfl, List.nil_prefix, nofun⟩
      · exact fun h => (Nat.le_zero.mp h.1).symm
    | cons c key => simp
  | cons c text ih =>
    rw [firstPosition?]
    split
    · rename_i hprefix
      rw [List.isPrefixOf_iff_prefix] at hprefix
      constructor
      · rintro ⟨⟩
        exact ⟨Nat.zero_le _, hprefix, fun j hj => absurd hj (Nat.not_lt_zero j)⟩
      · rintro ⟨-, -, hleast⟩
        by_contra hne
        exact hleast 0 (Nat.pos_of_ne_zero fun hzero => hne (hzero ▸ rfl)) hprefix
    · rename_i hprefix
      rw [List.isPrefixOf_iff_prefix] at hprefix
      rw [Option.map_eq_some_iff]
      constructor
      · rintro ⟨i, hfirst, rfl⟩
        obtain ⟨hle, hhere, hleast⟩ := ih.mp hfirst
        refine ⟨Nat.succ_le_succ hle, hhere, fun j hj => ?_⟩
        cases j with
        | zero => exact hprefix
        | succ j => exact hleast j (Nat.lt_of_succ_lt_succ hj)
      · rintro ⟨hle, hhere, hleast⟩
        cases i with
        | zero => exact absurd hhere hprefix
        | succ i =>
          refine ⟨i, ih.mpr ⟨Nat.le_of_succ_le_succ hle, hhere, fun j hj => ?_⟩, rfl⟩
          exact hleast (j + 1) (Nat.succ_lt_succ hj)

/-- The first position of a key is not after any other one. -/
theorem exists_firstPosition?_le (before key after : List Char) :
    ∃ i ≤ before.length, firstPosition? key (before ++ key ++ after) = some i := by
  induction before with
  | nil =>
    refine ⟨0, le_rfl, firstPosition?_eq_some_iff.mpr ⟨Nat.zero_le _, ?_, nofun⟩⟩
    exact List.prefix_append key after
  | cons c before ih =>
    rw [List.cons_append, List.cons_append, firstPosition?]
    split
    -- The text may go on with the key already here.
    · exact ⟨0, Nat.zero_le _, rfl⟩
    · obtain ⟨i, hle, hfirst⟩ := ih
      exact ⟨i + 1, Nat.succ_le_succ hle, congrArg (Option.map (· + 1)) hfirst⟩

/-- Marking a key as early as possible leaves the later ones in what is left of the text. -/
theorem OccursInOrder.exists_firstPosition? (h : OccursInOrder (key :: keys) text) :
    ∃ i, firstPosition? key text = some i ∧ OccursInOrder keys (text.drop (i + key.length)) := by
  obtain ⟨before, after, rfl, hafter⟩ := h
  obtain ⟨i, hle, hfirst⟩ := exists_firstPosition?_le before key after
  -- The first occurrence ends no later than the one in front of `after`.
  refine ⟨i, hfirst, hafter.of_suffix ⟨(before ++ key).drop (i + key.length), ?_⟩⟩
  have hlength : i + key.length ≤ (before ++ key).length := by
    rw [List.length_append]
    omega
  exact (List.drop_append_of_le_length hlength).symm

/-! ### Spans -/

theorem start_le_of_mem_keySpansFrom {span : TextSpan}
    (hspan : span ∈ keySpansFrom offset text keys) : offset ≤ span.start := by
  induction keys generalizing offset text with
  | nil => cases hspan
  | cons key keys ih =>
    rw [keySpansFrom] at hspan
    split at hspan
    · cases hspan
    · rcases List.mem_cons.mp hspan with rfl | hlater
      · exact Nat.le_add_right _ _
      · have hstart := ih hlater
        omega

theorem pairwise_keySpansFrom :
    (keySpansFrom offset text keys).Pairwise fun a b => a.stop ≤ b.start := by
  induction keys generalizing offset text with
  | nil => exact List.Pairwise.nil
  | cons key keys ih =>
    rw [keySpansFrom]
    split
    · exact List.Pairwise.nil
    · exact List.Pairwise.cons (fun span hspan => start_le_of_mem_keySpansFrom hspan) ih

/-- Each span ends before the next one starts. -/
theorem pairwise_keySpans (text : List Char) (keys : List (List Char)) :
    (keySpans text keys).Pairwise fun a b => a.stop ≤ b.start :=
  pairwise_keySpansFrom

/-- The span of a key at a position of what is left of a text is the key. -/
theorem slice_span (hhere : key <+: (whole.drop offset).drop i) :
    TextSpan.slice ⟨offset + i, offset + i + key.length⟩ whole = key := by
  rw [List.drop_drop] at hhere
  rw [TextSpan.slice, List.drop_take, Nat.add_sub_cancel_left]
  exact (List.prefix_iff_eq_take.mp hhere).symm

/-! ### The number of spans -/

theorem map_slice_keySpansFrom_prefix :
    (keySpansFrom offset (whole.drop offset) keys).map (·.slice whole) <+: keys := by
  induction keys generalizing offset with
  | nil => exact List.prefix_rfl
  | cons key keys ih =>
    rw [keySpansFrom]
    split
    · exact List.nil_prefix
    · rename_i i hfirst
      have hhere := (firstPosition?_eq_some_iff.mp hfirst).2.1
      rw [List.map_cons, slice_span hhere, List.drop_drop, ← Nat.add_assoc, List.prefix_cons_inj]
      exact ih

theorem length_keySpansFrom_le : (keySpansFrom offset text keys).length ≤ keys.length := by
  induction keys generalizing offset text with
  | nil => exact le_rfl
  | cons key keys ih =>
    rw [keySpansFrom]
    split
    · exact Nat.zero_le _
    · exact Nat.succ_le_succ ih

/-- The keys that are marked occur in order. -/
theorem occursInOrder_take_keySpansFrom :
    OccursInOrder (keys.take (keySpansFrom offset text keys).length) text := by
  induction keys generalizing offset text with
  | nil => trivial
  | cons key keys ih =>
    rw [keySpansFrom]
    split
    · trivial
    · rename_i i hfirst
      obtain ⟨after, hafter⟩ := (firstPosition?_eq_some_iff.mp hfirst).2.1
      refine ⟨text.take i, after, ?_, ?_⟩
      · rw [List.append_assoc, hafter, List.take_append_drop]
      · have hdrop : text.drop (i + key.length) = after := by
          rw [← List.drop_drop, ← hafter, List.drop_left]
        rw [hdrop]
        exact ih

/-- No more of the first keys can be placed than are marked. -/
theorem OccursInOrder.le_length_keySpansFrom {m : Nat} (hm : m ≤ keys.length)
    (h : OccursInOrder (keys.take m) text) : m ≤ (keySpansFrom offset text keys).length := by
  induction m generalizing offset text keys with
  | zero => exact Nat.zero_le _
  | succ m ih =>
    cases keys with
    | nil => exact absurd hm (Nat.not_succ_le_zero m)
    | cons key keys =>
      rw [List.take_succ_cons] at h
      -- Where the keys are placed does not matter: the first occurrences leave room for the others.
      obtain ⟨i, hfirst, hlater⟩ := h.exists_firstPosition?
      rw [keySpansFrom, hfirst]
      exact Nat.succ_le_succ (ih (Nat.le_of_succ_le_succ hm) hlater)

/-- The spans spell the first of the keys that are not empty. -/
theorem map_slice_keySpans (text : List Char) (keys : List (List Char)) :
    (keySpans text keys).map (·.slice text) =
      (keys.filter (!·.isEmpty)).take (keySpans text keys).length := by
  have hprefix : (keySpans text keys).map (·.slice text) <+: keys.filter (!·.isEmpty) :=
    map_slice_keySpansFrom_prefix
  rw [List.prefix_iff_eq_take.mp hprefix, List.length_map]

/-- There are as many spans as first keys that occur in order. -/
theorem isGreatest_length_keySpans (text : List Char) (keys : List (List Char)) :
    IsGreatest {m | m ≤ (keys.filter (!·.isEmpty)).length ∧
      OccursInOrder ((keys.filter (!·.isEmpty)).take m) text} (keySpans text keys).length :=
  ⟨⟨length_keySpansFrom_le, occursInOrder_take_keySpansFrom⟩,
    fun _ h => h.2.le_length_keySpansFrom h.1⟩

/-- The non-empty keys are all marked, each by one span, where they occur in order. -/
theorem OccursInOrder.map_slice_keySpans (h : OccursInOrder (keys.filter (!·.isEmpty)) text) :
    (keySpans text keys).map (·.slice text) = keys.filter (!·.isEmpty) := by
  have hwhole : OccursInOrder ((keys.filter (!·.isEmpty)).take (keys.filter (!·.isEmpty)).length)
      text := by rwa [List.take_length]
  have hall : (keySpans text keys).length = (keys.filter (!·.isEmpty)).length :=
    (isGreatest_length_keySpans text keys).unique ⟨⟨le_rfl, hwhole⟩, fun _ hm => hm.1⟩
  rw [SentenceSearch.map_slice_keySpans, hall, List.take_length]

end SentenceSearch
