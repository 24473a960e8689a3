import SentenceSearch.SuffixTree.Basic

/-!
# Annotation of a suffix tree

Every edge gets the mask of the buckets that occur below its child. The masks are computed from
the leaves up.

## Main definitions

* `SuffixTree.fullMask` — the buckets on an edge and below it
* `SuffixTree.annotate` — the tree with up-to-date masks
-/

namespace SentenceSearch

namespace SuffixTree

variable {P : Type}

/-- The buckets on an edge and below it. The text that owns the edge goes on below it, so its
suffix mask adds nothing that is not there. -/
def fullMask (tree : SuffixTree P) (edge : TreeEdge) : Mask :=
  edge.childMask ||| (tree.text edge.text).maskAt edge.start

/-- The buckets below a node. -/
def maskBelow (tree : SuffixTree P) (id : Nat) : Mask :=
  (tree.edgesBelow id).foldl (fun acc edge => acc ||| tree.fullMask edge) 0

/-- Compute the mask of one edge from those of the edges below its child. -/
def annotateEdge (tree : SuffixTree P) (id : Nat) : SuffixTree P :=
  let mask := tree.maskBelow (tree.edge id).child
  { tree with edges := tree.edges.modify id fun edge => { edge with childMask := mask } }

/-- The edges from the root down: every edge comes before those below its child. -/
def edgeOrder (tree : SuffixTree P) : List Nat :=
  tree.visit.flatMap fun id => (tree.node id).edges.values

/-- The tree with up-to-date masks. -/
def annotate (tree : SuffixTree P) : SuffixTree P :=
  -- In the reverse order every edge comes after those below its child.
  { tree.edgeOrder.reverse.foldl annotateEdge tree with annotated := true }

/-- The masks of the edges as they are stored. -/
def edgeMasks (tree : SuffixTree P) : List Mask := tree.edges.toList.map TreeEdge.childMask

/-- The mask below an edge that a search may rely on. Without annotation nothing is known. -/
def reliableMask (tree : SuffixTree P) (edge : TreeEdge) : Mask :=
  if tree.annotated then edge.childMask else Mask.full

end SuffixTree

end SentenceSearch
