import SentenceSearch.Proofs.Hits.Highlighting
import SentenceSearch.Proofs.Text.Boundaries

/-!
# Marked keys in bytes

A text is bytes, and its keys can be looked for among the bytes, without a thought about where
characters start. What is found are the spans of the keys in the characters: the first occurrence
among the bytes is the first one among the characters, and it ends where a character ends.

## Main definitions

* `firstByte?` — the first position at which some bytes occur among others
* `byteSpans` — the spans of keys among bytes
* `TextSpan.inBytes` — a span of characters, counted in bytes

## Main results

* `firstByte?_utf8` — the first occurrence among the bytes is that among the characters
* `byteSpans_utf8` — the spans among the bytes are those among the characters
-/

namespace SentenceSearch

variable {key text whole : List Char} {keys : List (List Char)} {offset i : Nat}

open Text

/-- The first position at which some bytes occur among others. -/
def firstByte? (key bytes : List UInt8) : Option Nat :=
  (List.range (bytes.length + 1)).find? fun p => key.isPrefixOf (bytes.drop p)

/-- The spans of keys in what is left of some bytes after `offset` of them, each as early as
possible after the one before it, up to the first key that does not occur. -/
def byteSpansFrom (offset : Nat) (bytes : List UInt8) : List (List UInt8) → List TextSpan
  | [] => []
  | key :: keys =>
    match firstByte? key bytes with
    | none => []
    | some p =>
      ⟨offset + p, offset + p + key.length⟩ ::
        byteSpansFrom (offset + p + key.length) (bytes.drop (p + key.length)) keys

/-- The spans of the keys that are not empty among some bytes. -/
def byteSpans (bytes : List UInt8) (keys : List (List UInt8)) : List TextSpan :=
  byteSpansFrom 0 bytes (keys.filter (!·.isEmpty))

/-- A span of characters of a text, counted in bytes. -/
def TextSpan.inBytes (text : List Char) (span : TextSpan) : TextSpan :=
  ⟨byteOffset text span.start, byteOffset text span.stop⟩

/-- The first occurrence among the bytes starts where the first one among the characters does. -/
theorem firstByte?_utf8 (hne : key ≠ []) :
    firstByte? (utf8 key) (utf8 text) = (firstPosition? key text).map (byteOffset text) := by
  cases hfirst : firstPosition? key text with
  | none =>
    rw [Option.map_none, firstByte?, List.find?_eq_none]
    intro p _ hp
    obtain ⟨i, -, -, after, hafter⟩ :=
      (utf8_prefix_drop_iff hne).mp (List.isPrefixOf_iff_prefix.mp hp)
    obtain ⟨j, -, hj⟩ := exists_firstPosition?_le (text.take i) key after
    rw [List.append_assoc, hafter, List.take_append_drop, hfirst] at hj
    cases hj
  | some i =>
    obtain ⟨hi, hhere, hleast⟩ := firstPosition?_eq_some_iff.mp hfirst
    rw [Option.map_some, firstByte?, List.find?_range_eq_some]
    refine ⟨?_, ?_, fun p hp => ?_⟩
    · exact List.isPrefixOf_iff_prefix.mpr ((utf8_prefix_drop_iff hne).mpr ⟨i, hi, rfl, hhere⟩)
    · have hle : byteOffset text i ≤ byteOffset text text.length := byteOffset_mono text hi
      rw [byteOffset_length List.prefix_rfl] at hle
      exact List.mem_range.mpr (Nat.lt_succ_of_le hle)
    · rw [Bool.not_eq_true', ← Bool.not_eq_true, List.isPrefixOf_iff_prefix,
        utf8_prefix_drop_iff hne]
      -- An earlier occurrence among the bytes would be an earlier one among the characters.
      rintro ⟨j, -, rfl, hprefix⟩
      have hlt : j < i := by
        by_contra hge
        exact absurd (byteOffset_mono text (Nat.le_of_not_lt hge)) (Nat.not_le_of_lt hp)
      exact hleast j hlt hprefix

theorem byteSpansFrom_utf8 (hkeys : ∀ key ∈ keys, key ≠ []) :
    byteSpansFrom (byteOffset whole offset) (utf8 (whole.drop offset)) (keys.map utf8) =
      (keySpansFrom offset (whole.drop offset) keys).map (TextSpan.inBytes whole) := by
  induction keys generalizing offset with
  | nil => rfl
  | cons key keys ih =>
    obtain ⟨hne, hkeys⟩ := List.forall_mem_cons.mp hkeys
    rw [List.map_cons, byteSpansFrom, keySpansFrom, firstByte?_utf8 hne]
    cases hfirst : firstPosition? key (whole.drop offset) with
    | none => rfl
    | some i =>
      have hhere := (firstPosition?_eq_some_iff.mp hfirst).2.1
      have hstart : byteOffset whole offset + byteOffset (whole.drop offset) i =
          byteOffset whole (offset + i) := (byteOffset_add whole offset i).symm
      have hstop : byteOffset whole (offset + i) + (utf8 key).length =
          byteOffset whole (offset + i + key.length) := by
        rw [byteOffset_add whole (offset + i), ← List.drop_drop, byteOffset_length hhere]
      have hrest : (utf8 (whole.drop offset)).drop
          (byteOffset (whole.drop offset) i + (utf8 key).length) =
            utf8 (whole.drop (offset + i + key.length)) := by
        rw [← byteOffset_length hhere, ← byteOffset_add, drop_byteOffset, List.drop_drop,
          Nat.add_assoc]
      dsimp only [Option.map_some]
      rw [hstart, hstop, hrest, ih hkeys, List.map_cons, List.drop_drop, ← Nat.add_assoc]
      rfl

/-- The spans that are found among the bytes are those of the keys among the characters. -/
theorem byteSpans_utf8 (text : List Char) (keys : List (List Char)) :
    byteSpans (utf8 text) (keys.map utf8) = (keySpans text keys).map (TextSpan.inBytes text) := by
  have hfilter : (keys.map utf8).filter (!·.isEmpty) = (keys.filter (!·.isEmpty)).map utf8 := by
    rw [List.filter_map]
    congr 1
    refine List.filter_congr fun key _ => ?_
    cases key with
    | nil => rfl
    | cons c key => simpa using utf8_ne_nil (List.cons_ne_nil c key)
  have hspans : byteSpansFrom (byteOffset text 0) (utf8 (text.drop 0)) _ = _ :=
    byteSpansFrom_utf8 (ne_nil_of_mem_filter keys)
  rw [byteSpans, hfilter]
  exact hspans

end SentenceSearch
