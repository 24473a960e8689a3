import Std.Data.ExtTreeMap

/-!
# Character frequencies

How often each character occurs in a list of texts. Counts of parts can be merged in any order.

## Main definitions

* `Frequencies` — a finite map from characters to counts
* `Frequencies.ofText`, `Frequencies.ofTexts` — the counts of one text and of many
* `Frequencies.merge` — the counts of two parts together
-/

namespace SentenceSearch

/-- A finite map from characters to the number of their occurrences. -/
abbrev Frequencies := Std.ExtTreeMap Char Nat

namespace Frequencies

/-- The number of occurrences of `c`. -/
def count (frequencies : Frequencies) (c : Char) : Nat := frequencies[c]?.getD 0

/-- Add `n` occurrences of `c`. -/
def add (frequencies : Frequencies) (c : Char) (n : Nat) : Frequencies :=
  frequencies.insert c (frequencies.count c + n)

/-- Count the characters of one text on top of `frequencies`. -/
def addText (frequencies : Frequencies) (text : List Char) : Frequencies :=
  text.foldl (fun acc c => acc.add c 1) frequencies

/-- The counts of one text. -/
def ofText (text : List Char) : Frequencies := addText ∅ text

/-- The counts of both arguments together. -/
def merge (left right : Frequencies) : Frequencies :=
  right.toList.foldl (fun acc entry => acc.add entry.1 entry.2) left

/-- The counts of many texts. -/
def ofTexts (texts : List (List Char)) : Frequencies := texts.foldl addText ∅

@[simp] theorem count_empty (c : Char) : count ∅ c = 0 := by
  simp [count]

/-- Adding occurrences changes the count of that character alone. -/
theorem count_add (frequencies : Frequencies) (c d : Char) (n : Nat) :
    (frequencies.add c n).count d = frequencies.count d + if c = d then n else 0 := by
  rw [count, add, Std.ExtTreeMap.getElem?_insert]
  by_cases h : c = d
  · simp [h]
  · simp [h, count]

/-- The count grows by the number of occurrences in the text. -/
theorem count_addText (frequencies : Frequencies) (text : List Char) (d : Char) :
    (frequencies.addText text).count d = frequencies.count d + text.count d := by
  induction text generalizing frequencies with
  | nil => simp [addText]
  | cons c text ih =>
    have step := ih (frequencies.add c 1)
    rw [addText] at step
    rw [addText, List.foldl_cons, step, count_add, List.count_cons]
    by_cases h : c = d
    · simp [h]; omega
    · simp [h]

end Frequencies

end SentenceSearch
