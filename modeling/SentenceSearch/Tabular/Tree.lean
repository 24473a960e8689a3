import SentenceSearch.Search.Keys
import SentenceSearch.Search.Matching
import SentenceSearch.Tabular.Rows

/-!
# Trees made of rows

A tree that is put together from rows again. Nothing is checked: rows may form cycles, share
children or lead nowhere. The masks along an edge are computed from its label alone.

## Main definitions

* `TabularTree` — rows by node, with a symbol table
* `TabularTree.ofRows` — the tree of some rows
* `TabularTree.source` — read access for searches
-/

namespace SentenceSearch

/-- The rows of a tree by node. -/
structure TabularTree (P : Type) where
  /-- The edges by the node above them. -/
  edges : Std.ExtTreeMap Nat (List EdgeRow)
  /-- The payloads by node. -/
  payloads : Std.ExtTreeMap Nat (List P)
  /-- The masks of the characters. -/
  table : SymbolTable

namespace TabularTree

variable {P : Type}

/-- Put a value into the group of a node, after those that are there. -/
def addToGroup {α : Type} (groups : Std.ExtTreeMap Nat (List α)) (id : Nat) (a : α) :
    Std.ExtTreeMap Nat (List α) :=
  groups.insert id (groups.getD id [] ++ [a])

/-- Values by node, in order of appearance. -/
def group {α : Type} (entries : List (Nat × α)) : Std.ExtTreeMap Nat (List α) :=
  entries.foldl (fun groups (id, a) => addToGroup groups id a) ∅

/-- The first character of the label of a row. -/
def firstChar (row : EdgeRow) : Char := row.text.toList.headD default

/-- Whether one row comes before another below a node: in order of first characters. -/
def before (a b : EdgeRow) : Bool := firstChar a ≤ firstChar b

/-- The tree of some rows. Edges without a label are dropped. The edges below a node are sorted by
their first characters; edges with the same one keep their order. -/
def ofRows (edges : List EdgeRow) (payloads : List (PayloadRow P)) (table : SymbolTable) :
    TabularTree P where
  -- An empty label has no first character to be found by.
  edges :=
    (group ((edges.filter fun row => row.text ≠ "").map fun row => (row.source, row))).map
      fun _ rows => rows.mergeSort before
  payloads := group (payloads.map fun row => (row.node, row.payload))
  table := table

/-- Number of edges. -/
def edgeCount (tree : TabularTree P) : Nat := tree.edges.values.flatten.length

/-- An edge as a search sees it. -/
def record (tree : TabularTree P) (row : EdgeRow) : EdgeRecord :=
  let text := Sentence.ofText tree.table row.text.toList
  ⟨row.target, text, 0, text.size, row.childMask⟩

/-- The edges below a node, as a search sees them. -/
def recordsBelow (tree : TabularTree P) (id : Nat) : List EdgeRecord :=
  (tree.edges.getD id []).map tree.record

/-- The payloads at a node. -/
def payloadsAt (tree : TabularTree P) (id : Nat) : List P := tree.payloads.getD id []

/-- Read access for searches. -/
def source {m : Type → Type} [Monad m] (tree : TabularTree P) : TreeSource m P where
  root := SuffixTree.root
  edgesFrom id := pure (tree.recordsBelow id)
  edgeStarting id c := pure (firstStarting c (tree.recordsBelow id))
  payloadsAt id := pure (tree.payloadsAt id)
  edgeCount := tree.edgeCount
  placeCount := countPlaces (tree.edges.values.flatten.map tree.record)

end TabularTree

end SentenceSearch
