import Mathlib.Data.List.Basic
import Mathlib.Tactic.SplitIfs
import SentenceSearch.Text.Lines

/-!
# Texts as lines of bytes

Lines are cut at bytes and not at characters. Without control characters a text has no byte below
that of a blank, in particular no end of a line, so that texts that are written one a line come back
as they are.

## Main definitions

* `Text.IsPrintable` — a text without control characters

## Main results

* `Text.decode?_encode` — a text is the one that its bytes spell
* `Text.lines_encode_join` — the lines of texts that are written one a line
-/

namespace SentenceSearch.Text

/-- A text without the control characters, which come before the blank. -/
def IsPrintable (text : List Char) : Prop := ∀ c ∈ text, 0x20 ≤ c.toNat

/-- The bytes of a text. -/
def bytes (text : String) : List UInt8 := (encode text).data.toList

theorem bytes_eq (text : String) : bytes text = text.toList.flatMap String.utf8EncodeChar := by
  have hencode : encode text = text.toList.utf8Encode := by
    rw [encode, String.toUTF8_eq_toByteArray, ← String.toByteArray_ofList, String.ofList_toList]
  rw [bytes, hencode, List.utf8Encode, List.toList_data_toByteArray]

theorem bytes_append (text text' : String) : bytes (text ++ text') = bytes text ++ bytes text' := by
  rw [bytes_eq, bytes_eq, bytes_eq, String.toList_append, List.flatMap_append]

/-- A text is the one that its bytes spell. -/
theorem decode?_encode (text : String) : decode? (bytes text) = some text.toList := by
  have hvalid : text.toByteArray.IsValidUTF8 := text.isValidUTF8
  have hread : String.fromUTF8? text.toByteArray = some text := dif_pos hvalid
  have hbytes : (⟨(bytes text).toArray⟩ : ByteArray) = text.toByteArray := rfl
  rw [decode?, hbytes, hread]
  rfl

/-! ### Bytes -/

/-- A character that is no control character has no byte below that of a blank. -/
theorem le_of_mem_utf8EncodeChar {c : Char} (h : 0x20 ≤ c.toNat) {b : UInt8}
    (hb : b ∈ String.utf8EncodeChar c) : 0x20 ≤ b.toNat := by
  have hc : c.toNat = c.val.toNat := rfl
  rw [hc] at h
  rw [String.utf8EncodeChar] at hb
  split_ifs at hb <;> simp only [List.mem_cons, List.not_mem_nil, or_false] at hb
  · subst hb
    rw [UInt8.toNat_ofNat']
    omega
  · rcases hb with rfl | rfl <;> rw [UInt8.toNat_ofNat'] <;> omega
  · rcases hb with rfl | rfl | rfl <;> rw [UInt8.toNat_ofNat'] <;> omega
  · rcases hb with rfl | rfl | rfl | rfl <;> rw [UInt8.toNat_ofNat'] <;> omega

theorem IsPrintable.le_of_mem_bytes {text : String} (h : IsPrintable text.toList) {b : UInt8}
    (hb : b ∈ bytes text) : 0x20 ≤ b.toNat := by
  rw [bytes_eq, List.mem_flatMap] at hb
  obtain ⟨c, hc, hb⟩ := hb
  exact le_of_mem_utf8EncodeChar (h c hc) hb

theorem IsPrintable.lineFeed_not_mem {text : String} (h : IsPrintable text.toList) :
    lineFeed ∉ bytes text := fun hb => absurd (h.le_of_mem_bytes hb) (by decide)

theorem IsPrintable.dropReturn {text : String} (h : IsPrintable text.toList) :
    Text.dropReturn (bytes text) = bytes text := by
  refine if_neg fun hlast => ?_
  exact absurd (h.le_of_mem_bytes (List.mem_of_getLast? hlast)) (by decide)

/-! ### Lines -/

/-- Texts, one a line. -/
theorem splitOn_join {rows : List String} (h : ∀ row ∈ rows, IsPrintable row.toList) :
    (bytes (String.join (rows.map (· ++ "\n")))).splitOn lineFeed = rows.map bytes ++ [[]] := by
  induction rows with
  | nil => rfl
  | cons row rows ih =>
    obtain ⟨hrow, hrows⟩ := List.forall_mem_cons.mp h
    have hfeed : bytes "\n" = [lineFeed] := rfl
    rw [List.map_cons, String.join_cons, bytes_append, bytes_append, hfeed, List.append_assoc,
      List.singleton_append, List.splitOn_append_cons_self_of_not_mem hrow.lineFeed_not_mem,
      ih hrows]
    rfl

/-- The lines of texts that are written one a line. -/
theorem lines_encode_join {rows : List String} (h : ∀ row ∈ rows, IsPrintable row.toList) :
    lines (encode (String.join (rows.map (· ++ "\n")))) = rows.map bytes := by
  have hsplit := splitOn_join h
  rw [bytes] at hsplit
  rw [lines, hsplit, List.dropLast_concat, List.getLastD_concat]
  have hdrop : (rows.map bytes).map Text.dropReturn = rows.map bytes := by
    rw [List.map_map]
    exact List.map_congr_left fun row hrow => (h row hrow).dropReturn
  simp [hdrop]

end SentenceSearch.Text
