import Mathlib.Data.List.Basic
import Mathlib.Data.List.TakeDrop
import Mathlib.Tactic.SplitIfs
import SentenceSearch.Json.Reader
import SentenceSearch.Json.Writer

/-!
# Texts and numbers in JSON

The lexical parts that are written are read back: each character of a text, however it is escaped,
and each natural number, as long as what follows it does not go on with it.

## Main definitions

* `Json.natTree` — what a number is read as
* `JsonTree.Follows` — what may follow a number

## Main results

* `JsonTree.readUnit_escapeChar` — an escaped character is one unit
* `JsonTree.readString_quote` — a text is read up to its closing quote
* `JsonTree.readNumber_digits` — a number is read up to what follows it
-/

namespace SentenceSearch

/-- What a number is read as: numbers beyond the words of 64 bits are like those with a fraction. -/
def Json.natTree (n : Nat) : JsonTree :=
  if n < JsonTree.longWordBound then .nat n
  else .number (JsonTree.inDoubleRange (Json.digits n) 0)

namespace JsonTree

/-! ### Texts -/

theorem hexValue?_hexDigit {n : Nat} (h : n < 16) : hexValue? (Json.hexDigit n) = some n := by
  revert n
  decide

/-- The escape of a control character without a letter of its own. -/
theorem readUnit_control {c : Char} (h : c.toNat < 0x20) (rest : List Char) :
    readUnit ('\\' :: 'u' :: '0' :: '0' :: Json.hexDigit (c.toNat / 16) ::
      Json.hexDigit (c.toNat % 16) :: rest) = some (.char c, rest) := by
  have hzero : hexValue? '0' = some 0 := rfl
  have hhigh := hexValue?_hexDigit (show c.toNat / 16 < 16 by omega)
  have hlow := hexValue?_hexDigit (Nat.mod_lt c.toNat (show 0 < 16 by decide))
  have hunit : ((0 * 16 + 0) * 16 + c.toNat / 16) * 16 + c.toNat % 16 = c.toNat := by omega
  have hplain : (isHighSurrogate c.toNat || isLowSurrogate c.toNat) = false := by
    simp only [isHighSurrogate, isLowSurrogate, Bool.or_eq_false_iff, Bool.and_eq_false_iff,
      decide_eq_false_iff_not]
    omega
  simp only [readUnit, readHex4, hzero, hhigh, hlow, Option.bind_eq_bind, Option.bind_some,
    Option.pure_def, hunit, hplain, Char.ofNat_toNat]
  rfl

/-- An escaped character is one unit. -/
theorem readUnit_escapeChar (c : Char) (rest : List Char) :
    readUnit (Json.escapeChar c ++ rest) = some (.char c, rest) := by
  unfold Json.escapeChar
  split_ifs with hquote hbackslash hb hf hn hr ht hcontrol
  · subst hquote; rfl
  · subst hbackslash; rfl
  · subst hb; rfl
  · subst hf; rfl
  · subst hn; rfl
  · subst hr; rfl
  · subst ht; rfl
  · exact readUnit_control hcontrol rest
  · rw [List.singleton_append, readUnit.eq_def]
    split <;> simp_all

theorem readUnits_escape {chars rest : List Char} {fuel : Nat} (h : chars.length < fuel) :
    readUnits fuel (chars.flatMap Json.escapeChar ++ '"' :: rest) =
      some (chars.map .char, rest) := by
  induction chars generalizing fuel with
  | nil =>
    obtain ⟨fuel, rfl⟩ := Nat.exists_eq_add_one.mpr h
    rfl
  | cons c chars ih =>
    obtain ⟨fuel, rfl⟩ := Nat.exists_eq_add_one.mpr (Nat.zero_lt_of_lt h)
    rw [List.flatMap_cons, List.append_assoc, readUnits, readUnit_escapeChar]
    change ((readUnits fuel _).bind _ : Option _) = _
    rw [ih (Nat.lt_of_succ_lt_succ h)]
    rfl

theorem joinUnits_char (chars : List Char) : joinUnits (chars.map .char) = some chars := by
  induction chars with
  | nil => rfl
  | cons c chars ih =>
    rw [List.map_cons, joinUnits, ih]
    rfl

theorem length_le_length_escape (chars : List Char) :
    chars.length ≤ (chars.flatMap Json.escapeChar).length := by
  induction chars with
  | nil => exact Nat.le_refl 0
  | cons c chars ih =>
    have hone : 1 ≤ (Json.escapeChar c).length := by
      unfold Json.escapeChar
      split_ifs <;> simp
    rw [List.flatMap_cons, List.length_append, List.length_cons]
    omega

/-- A text is read up to its closing quote. -/
theorem readString_quote (s : String) (rest : List Char) :
    readString (s.toList.flatMap Json.escapeChar ++ '"' :: rest) = some (some s, rest) := by
  have hfuel : s.toList.length < (s.toList.flatMap Json.escapeChar ++ '"' :: rest).length + 1 := by
    have hle := length_le_length_escape s.toList
    rw [List.length_append]
    omega
  rw [readString, readUnits_escape hfuel]
  simp [joinUnits_char]

/-! ### Numbers -/

/-- What may follow a number: nothing that goes on with it. -/
def Follows (rest : List Char) : Prop :=
  ∀ c ∈ rest.head?, c.isDigit = false ∧ c ≠ '.' ∧ c ≠ 'e' ∧ c ≠ 'E'

theorem spanDigits_append {digits rest : List Char} (hdigits : ∀ c ∈ digits, c.isDigit = true)
    (hrest : Follows rest) : spanDigits (digits ++ rest) = (digits, rest) := by
  rw [spanDigits, List.span_eq_takeWhile_dropWhile, List.takeWhile_append_of_pos hdigits,
    List.dropWhile_append_of_pos hdigits]
  cases rest with
  | nil => simp
  | cons c rest =>
    have hc := (hrest c rfl).1
    simp [hc]

theorem ofDigits_digits (n : Nat) : ofDigits (Json.digits n) = n := by
  rw [ofDigits, Json.digits, ← Nat.ofDigitChars_eq_foldl, Nat.ofDigitChars_ten_toDigits]

theorem isDigit_of_mem_digits {n : Nat} {c : Char} (h : c ∈ Json.digits n) : c.isDigit = true :=
  Nat.isDigit_of_mem_toDigits (by decide) (by decide) h

/-- Only zero is written with a zero in front. -/
theorem head?_digits_ne_zero {n : Nat} (h : 0 < n) : (Json.digits n).head? ≠ some '0' := by
  have hdigit : ∀ d < 10, 0 < d → Nat.digitChar d ≠ '0' := by decide
  induction n using Nat.strongRecOn with
  | ind n ih =>
    rcases Nat.lt_or_ge n 10 with hlt | hge
    · rw [Json.digits, Nat.toDigits_of_lt_base hlt]
      exact fun hhead => hdigit n hlt h (Option.some.inj hhead)
    · have hhead := ih (n / 10) (Nat.div_lt_self h (by decide)) (Nat.div_pos hge (by decide))
      rw [Json.digits, Nat.toDigits_of_base_le (by decide) hge]
      rwa [List.head?_append_of_ne_nil _ Nat.toDigits_ne_nil]

theorem readWhole_digits (n : Nat) {rest : List Char} (hrest : Follows rest) :
    readWhole (Json.digits n ++ rest) = some (Json.digits n, rest) := by
  have hspan := spanDigits_append (fun _ => isDigit_of_mem_digits (n := n)) hrest
  rw [readWhole, hspan]
  rcases Nat.eq_zero_or_pos n with rfl | hpos
  · rfl
  · have hhead := head?_digits_ne_zero hpos
    cases hdigits : Json.digits n with
    | nil => exact absurd hdigits Nat.toDigits_ne_nil
    | cons c digits =>
      rw [hdigits] at hhead
      split <;> simp_all

theorem readFraction_of_follows {rest : List Char} (hrest : Follows rest) :
    readFraction rest = some ([], rest) := by
  rw [readFraction.eq_def]
  split
  · exact absurd rfl (hrest '.' rfl).2.1
  · rfl

theorem readExponent_of_follows {rest : List Char} (hrest : Follows rest) :
    readExponent rest = some (none, rest) := by
  cases rest with
  | nil => rfl
  | cons c rest =>
    obtain ⟨-, -, hlower, hupper⟩ := hrest c rfl
    simp [readExponent, hlower, hupper]

/-- A number is read up to what follows it. -/
theorem readNumber_digits (n : Nat) {rest : List Char} (hrest : Follows rest) :
    readNumber (Json.digits n ++ rest) = some (Json.natTree n, rest) := by
  have hsign : ∀ text, Json.digits n ++ rest ≠ '-' :: text := by
    intro text htext
    cases hdigits : Json.digits n with
    | nil => exact absurd hdigits Nat.toDigits_ne_nil
    | cons c digits =>
      rw [hdigits, List.cons_append, List.cons.injEq] at htext
      have hc := isDigit_of_mem_digits (hdigits ▸ List.mem_cons_self)
      rw [htext.1] at hc
      exact absurd hc (by decide)
  rw [readNumber]
  · simp only [readWhole_digits n hrest, readFraction_of_follows hrest,
      readExponent_of_follows hrest, Option.bind_eq_bind, Option.bind_some, ofDigits_digits,
      Json.natTree]
    split <;> simp_all
  · exact hsign

end JsonTree

end SentenceSearch
