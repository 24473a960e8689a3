import SentenceSearch.Sentence

/-!
# Edges as a search sees them

A search knows an edge by its label, by the node that it leads to and by the masks along it.

## Main definitions

* `EdgeRecord` — a label as a part of a text, a child and the mask below it
* `EdgeRecord.partialMask` — the buckets that can still be reached from a place on the edge
-/

namespace SentenceSearch

/-- An edge: the part of `text` from `start` up to `stop` leads to `child`. An edge is known by its
child, which has one parent. -/
structure EdgeRecord where
  /-- The node that the edge leads to. -/
  child : Nat
  /-- The text that the label is a part of. -/
  text : Sentence
  /-- Where the label starts. -/
  start : Nat
  /-- Where the label ends; the character there does not belong to it. -/
  stop : Nat
  /-- The buckets that occur below the child. -/
  childMask : Mask
  deriving DecidableEq, Inhabited

namespace EdgeRecord

/-- Number of characters on the edge. -/
def length (edge : EdgeRecord) : Nat := edge.stop - edge.start

/-- Whether the label is empty. -/
def isEmpty (edge : EdgeRecord) : Bool := edge.start == edge.stop

/-- The character at a place on the edge. -/
def charAt (edge : EdgeRecord) (offset : Nat) : Char :=
  edge.text.chars.getD (edge.start + offset) default

/-- The first character of the label. -/
def firstChar (edge : EdgeRecord) : Char := edge.charAt 0

/-- The characters on the edge. -/
def label (edge : EdgeRecord) : List Char := edge.text.slice edge.start edge.stop

/-- The buckets that can be reached from a place on the edge. Before its end these include what
follows in the text that the label is taken from. -/
def partialMask (edge : EdgeRecord) (offset : Nat) : Mask :=
  if offset < edge.length then
    edge.childMask ||| edge.text.maskAt (edge.start + offset)
  else
    edge.childMask

/-- The buckets that can be reached from the start of the edge. -/
def fullMask (edge : EdgeRecord) : Mask := edge.partialMask 0

/-- Where the mask below the child rules nothing out, no mask on the edge does. -/
theorem partialMask_eq_full {edge : EdgeRecord} (h : edge.childMask = Mask.full) (offset : Nat) :
    edge.partialMask offset = Mask.full := by
  rw [partialMask, h, Mask.full_or, ite_self]

end EdgeRecord

end SentenceSearch
