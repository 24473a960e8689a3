import Mathlib.Data.List.Basic
import Mathlib.Data.List.Infix

/-!
# Characters in bytes

The first byte of a character in UTF-8 is never one of its later bytes. So a text is found among the
bytes of another one only where it starts with one of the characters there, and not in the middle of
one.

## Main definitions

* `Text.utf8` — the bytes of some characters
* `Text.byteOffset` — where a character starts among the bytes

## Main results

* `Text.utf8_prefix_iff` — bytes go on with a text where its characters come next
* `Text.utf8_prefix_drop_iff` — what occurs among the bytes occurs among the characters
-/

namespace SentenceSearch.Text

variable {c : Char} {key text : List Char} {i j p : Nat}

/-- The bytes of some characters. -/
def utf8 (text : List Char) : List UInt8 := text.flatMap String.utf8EncodeChar

/-- Number of bytes in front of a character. -/
def byteOffset (text : List Char) (i : Nat) : Nat := (utf8 (text.take i)).length

theorem utf8_cons (c : Char) (text : List Char) :
    utf8 (c :: text) = String.utf8EncodeChar c ++ utf8 text := rfl

theorem utf8_append (text text' : List Char) : utf8 (text ++ text') = utf8 text ++ utf8 text' :=
  List.flatMap_append

theorem utf8_ne_nil (hne : text ≠ []) : utf8 text ≠ [] := by
  obtain ⟨c, text, rfl⟩ := List.exists_cons_of_ne_nil hne
  exact List.append_ne_nil_of_left_ne_nil String.utf8EncodeChar_ne_nil _

/-- The bytes of a character tell where they end. -/
theorem utf8EncodeChar_append_inj {d : Char} {bytes bytes' : List UInt8}
    (h : String.utf8EncodeChar c ++ bytes = String.utf8EncodeChar d ++ bytes') :
    c = d ∧ bytes = bytes' := by
  have hdecode (e : Char) (rest : List UInt8) :
      ByteArray.utf8DecodeChar? (String.utf8EncodeChar e ++ rest).toByteArray 0 = some e := by
    rw [List.toByteArray_append]
    exact ByteArray.utf8DecodeChar?_utf8EncodeChar_append
  obtain rfl : c = d := by
    have hd := hdecode d bytes'
    rw [← h, hdecode c bytes] at hd
    exact Option.some.inj hd
  exact ⟨rfl, List.append_cancel_left h⟩

/-- The bytes of a text start with those of another one only if its characters do. -/
theorem utf8_prefix_iff : utf8 key <+: utf8 text ↔ key <+: text := by
  constructor
  · intro h
    induction key generalizing text with
    | nil => exact List.nil_prefix
    | cons c key ih =>
      obtain ⟨rest, hrest⟩ := h
      cases text with
      | nil =>
        exact absurd (List.append_eq_nil_iff.mp hrest).1 (utf8_ne_nil (List.cons_ne_nil c key))
      | cons d text =>
        rw [utf8_cons, utf8_cons, List.append_assoc] at hrest
        obtain ⟨rfl, hlater⟩ := utf8EncodeChar_append_inj hrest
        exact (List.prefix_cons_inj c).mpr (ih ⟨rest, hlater⟩)
  · rintro ⟨rest, rfl⟩
    rw [utf8_append]
    exact List.prefix_append _ _

/-- No character starts in the middle of another one. -/
theorem not_prefix_drop_utf8EncodeChar {d : Char} {rest : List UInt8} (hp : 0 < p)
    (hlt : p < (String.utf8EncodeChar d).length) :
    ¬ String.utf8EncodeChar c <+: (String.utf8EncodeChar d).drop p ++ rest := by
  intro h
  have hpos : 0 < (String.utf8EncodeChar c).length :=
    List.length_pos_iff.mpr String.utf8EncodeChar_ne_nil
  have hfirst : (String.utf8EncodeChar c)[0] = (String.utf8EncodeChar d)[p] := by
    have hsame := h.getElem hpos
    rw [List.getElem_append_left (by rw [List.length_drop]; omega), List.getElem_drop] at hsame
    simpa using hsame
  have hbyte : (String.utf8EncodeChar c)[0].IsUTF8FirstByte :=
    UInt8.isUTF8FirstByte_getElem_utf8EncodeChar.mpr rfl
  rw [hfirst, UInt8.isUTF8FirstByte_getElem_utf8EncodeChar] at hbyte
  omega

theorem byteOffset_mono (text : List Char) (h : i ≤ j) : byteOffset text i ≤ byteOffset text j := by
  obtain ⟨rest, hrest⟩ := List.take_prefix_take_left h (l := text)
  rw [byteOffset, byteOffset, ← hrest, utf8_append, List.length_append]
  exact Nat.le_add_right _ _

theorem byteOffset_cons_succ (c : Char) (text : List Char) (i : Nat) :
    byteOffset (c :: text) (i + 1) = (String.utf8EncodeChar c).length + byteOffset text i := by
  rw [byteOffset, List.take_succ_cons, utf8_cons, List.length_append]
  rfl

theorem drop_byteOffset (text : List Char) (i : Nat) :
    (utf8 text).drop (byteOffset text i) = utf8 (text.drop i) := by
  have hsplit : utf8 text = utf8 (text.take i) ++ utf8 (text.drop i) := by
    rw [← utf8_append, List.take_append_drop]
  rw [hsplit, byteOffset, List.drop_left]

theorem byteOffset_add (text : List Char) (i j : Nat) :
    byteOffset text (i + j) = byteOffset text i + byteOffset (text.drop i) j := by
  rw [byteOffset, byteOffset, byteOffset, ← List.length_append, ← utf8_append, List.take_add]

/-- After a part of a text the next character starts where the bytes of the part end. -/
theorem byteOffset_length (h : key <+: text) : byteOffset text key.length = (utf8 key).length := by
  rw [byteOffset, ← List.prefix_iff_eq_take.mp h]

/-- Where a text occurs among bytes, it occurs among their characters. -/
theorem utf8_prefix_drop_iff (hne : key ≠ []) :
    utf8 key <+: (utf8 text).drop p ↔
      ∃ i ≤ text.length, byteOffset text i = p ∧ key <+: text.drop i := by
  constructor
  · intro h
    induction text generalizing p with
    | nil =>
      have hnone : utf8 key <+: [] := by simpa [utf8] using h
      exact absurd (List.prefix_nil.mp hnone) (utf8_ne_nil hne)
    | cons d text ih =>
      by_cases hp : p = 0
      · subst hp
        exact ⟨0, Nat.zero_le _, rfl, utf8_prefix_iff.mp h⟩
      rw [utf8_cons, List.drop_append] at h
      by_cases hlt : p < (String.utf8EncodeChar d).length
      · obtain ⟨c, key, rfl⟩ := List.exists_cons_of_ne_nil hne
        rw [utf8_cons] at h
        exact absurd ((List.prefix_append _ _).trans h)
          (not_prefix_drop_utf8EncodeChar (Nat.pos_of_ne_zero hp) hlt)
      · have hle := Nat.le_of_not_lt hlt
        rw [List.drop_eq_nil_of_le hle, List.nil_append] at h
        obtain ⟨i, hi, hoffset, hprefix⟩ := ih h
        refine ⟨i + 1, Nat.succ_le_succ hi, ?_, hprefix⟩
        rw [byteOffset_cons_succ, hoffset, Nat.add_sub_cancel' hle]
  · rintro ⟨i, -, rfl, hprefix⟩
    rw [drop_byteOffset]
    exact utf8_prefix_iff.mpr hprefix

end SentenceSearch.Text
