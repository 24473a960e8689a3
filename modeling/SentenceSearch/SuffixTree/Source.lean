import SentenceSearch.Search.Source
import SentenceSearch.SuffixTree.Annotate

/-!
# Searching a suffix tree

A suffix tree is a source for searches. Until it is annotated, everything has to be expected below
an edge.

## Main definitions

* `SuffixTree.record` — an edge as a search sees it
* `SuffixTree.source` — read access for searches
-/

namespace SentenceSearch

namespace SuffixTree

variable {P : Type}

/-- An edge as a search sees it. -/
def record (tree : SuffixTree P) (edge : TreeEdge) : EdgeRecord where
  child := edge.child
  text := tree.text edge.text
  start := edge.start
  stop := edge.stop
  childMask := tree.reliableMask edge

/-- The edges below a node, as a search sees them. -/
def recordsBelow (tree : SuffixTree P) (id : Nat) : List EdgeRecord :=
  (tree.edgesBelow id).map tree.record

/-- The edge below a node that starts with a character, as a search sees it. -/
def recordStarting (tree : SuffixTree P) (id : Nat) (c : Char) : Option EdgeRecord :=
  (tree.node id).edges[c]?.map fun e => tree.record (tree.edge e)

/-- Read access for searches. -/
def source {m : Type → Type} [Monad m] (tree : SuffixTree P) : TreeSource m P where
  root := root
  edgesFrom id := pure (tree.recordsBelow id)
  edgeStarting id c := pure (tree.recordStarting id c)
  payloadsAt id := pure (tree.node id).payloads.toList
  edgeCount := tree.edgeCount
  placeCount := countPlaces (tree.edges.toList.map tree.record)

end SuffixTree

end SentenceSearch
