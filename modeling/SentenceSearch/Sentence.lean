import SentenceSearch.Symbol.Table

/-!
# Sentences

A sentence is known by the article that it comes from and by its position there. Its text is
prepared for the tree as an array of characters with the suffix mask of each position.

## Main definitions

* `SentenceId` — source and position of a sentence, ordered by source and then by position
* `Sentence` — characters and suffix masks
-/

namespace SentenceSearch

/-- The article that a sentence comes from and its position in it. -/
structure SentenceId where
  /-- The article. -/
  source : String
  /-- The position: 1 for the title, 2 and up for the body. -/
  index : Nat
  deriving DecidableEq, Repr, Inhabited

namespace SentenceId

/-- The position of an article's title. -/
def titleIndex : Nat := 1

/-- Whether this is the title of its article. -/
def isTitle (id : SentenceId) : Bool := id.index == titleIndex

instance : ToString SentenceId := ⟨fun id => s!"{id.source}:{id.index}"⟩

instance : Ord SentenceId := ⟨compareLex (compareOn (·.source)) (compareOn (·.index))⟩

instance : Std.TransOrd SentenceId :=
  inferInstanceAs (Std.TransCmp
    (compareLex (compareOn SentenceId.source) (compareOn SentenceId.index)))

instance : Std.LawfulEqOrd SentenceId where
  eq_of_compare {a b} h := by
    have h : compareLex (compareOn SentenceId.source) (compareOn SentenceId.index) a b = .eq := h
    simp only [compareLex, compareOn, Ordering.then_eq_eq, Std.compare_eq_iff_eq] at h
    cases a
    cases b
    simp_all

end SentenceId

/-- A text prepared for the tree. -/
structure Sentence where
  /-- The characters. -/
  chars : Array Char
  /-- The buckets that occur from each position on. -/
  masks : Array Mask
  deriving DecidableEq, Inhabited

namespace Sentence

/-- Prepare a text with the masks of `table`. -/
def ofText (table : SymbolTable) (text : List Char) : Sentence where
  chars := text.toArray
  masks := (table.suffixMasks text).toArray

/-- Number of characters. -/
def size (sentence : Sentence) : Nat := sentence.chars.size

/-- Whether there is no character. -/
def isEmpty (sentence : Sentence) : Bool := sentence.chars.isEmpty

/-- The suffix mask at a position; nothing is available past the end. -/
def maskAt (sentence : Sentence) (i : Nat) : Mask := sentence.masks.getD i 0

/-- The character at a position. -/
def charAt? (sentence : Sentence) (i : Nat) : Option Char := sentence.chars[i]?

/-- The characters from `start` up to, but without, `stop`. -/
def slice (sentence : Sentence) (start stop : Nat) : List Char :=
  (sentence.chars.extract start stop).toList

/-- The suffix mask of a prepared text is the mask of the text from there on. -/
theorem maskAt_ofText (table : SymbolTable) (text : List Char) (i : Nat) :
    (ofText table text).maskAt i = table.maskOf (text.drop i) := by
  by_cases h : i < text.length
  · have := table.getElem?_suffixMasks text i h
    simp [maskAt, ofText, Array.getD_eq_getD_getElem?, this]
  · have h' : text.drop i = [] := List.drop_eq_nil_of_le (Nat.le_of_not_lt h)
    have : (table.suffixMasks text)[i]? = none := by
      simpa using Nat.le_of_not_lt h
    simp [maskAt, ofText, Array.getD_eq_getD_getElem?, this, h', SymbolTable.maskOf]

end Sentence

end SentenceSearch
