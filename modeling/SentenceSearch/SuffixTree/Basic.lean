import Std.Data.ExtTreeMap
import SentenceSearch.Sentence

/-!
# Suffix trees

A tree that spells every suffix of many texts. Nodes, edges and texts are kept in arrays and refer
to each other by position. The label of an edge is a range of one of the texts. The payloads of a
text sit on the nodes where its suffixes end.

## Main definitions

* `TreeNode`, `TreeEdge`, `SuffixTree` — the arrays of a tree
* `SuffixTree.label` — the characters along an edge
* `SuffixTree.traverse` — the nodes from the root down, with a value carried along the edges
* `SuffixTree.paths` — the string that each node spells
-/

namespace SentenceSearch

/-- A node of a suffix tree. -/
structure TreeNode (P : Type) where
  /-- The edges below the node, by the first character of their labels. -/
  edges : Std.ExtTreeMap Char Nat
  /-- The payloads of the suffixes that end here. -/
  payloads : Array P
  /-- The node that spells the same string without its first character. -/
  link : Option Nat

/-- The node without edges, payloads and link. -/
def TreeNode.blank {P : Type} : TreeNode P := ⟨∅, #[], none⟩

instance {P : Type} : Inhabited (TreeNode P) := ⟨.blank⟩

/-- An edge of a suffix tree. Its label is the part of a text from `start` up to `stop`. -/
structure TreeEdge where
  /-- The text that the label is taken from. -/
  text : Nat
  /-- Where the label starts. -/
  start : Nat
  /-- Where the label ends; the character there does not belong to it. -/
  stop : Nat
  /-- The node that the edge leads to. -/
  child : Nat
  /-- The buckets that occur below that node, as of the last annotation. -/
  childMask : Mask
  deriving DecidableEq, Repr, Inhabited

/-- Number of characters on the edge. -/
def TreeEdge.length (edge : TreeEdge) : Nat := edge.stop - edge.start

/-- A suffix tree over many texts. -/
structure SuffixTree (P : Type) where
  /-- The nodes; the root comes first. -/
  nodes : Array (TreeNode P)
  /-- The edges. -/
  edges : Array TreeEdge
  /-- The texts in order of insertion. -/
  texts : Array Sentence
  /-- Whether the masks of the edges are up to date. -/
  annotated : Bool

namespace SuffixTree

variable {P : Type}

/-- The position of the root among the nodes. -/
def root : Nat := 0

/-- The tree without texts. -/
def empty : SuffixTree P := ⟨#[.blank], #[], #[], false⟩

instance : Inhabited (SuffixTree P) := ⟨empty⟩

/-- A node by position. -/
def node (tree : SuffixTree P) (id : Nat) : TreeNode P := tree.nodes.getD id .blank

/-- An edge by position. -/
def edge (tree : SuffixTree P) (id : Nat) : TreeEdge := tree.edges.getD id default

/-- A text by position. -/
def text (tree : SuffixTree P) (id : Nat) : Sentence := tree.texts.getD id default

/-- Number of nodes, the root included. -/
def nodeCount (tree : SuffixTree P) : Nat := tree.nodes.size

/-- Number of edges. -/
def edgeCount (tree : SuffixTree P) : Nat := tree.edges.size

/-- Number of texts. -/
def textCount (tree : SuffixTree P) : Nat := tree.texts.size

/-- Whether the tree spells nothing but the empty string. -/
def isEmpty (tree : SuffixTree P) : Bool := tree.edges.isEmpty

/-- The character at a position of a text. -/
def charAt (tree : SuffixTree P) (text i : Nat) : Char := (tree.text text).chars.getD i default

/-- The characters along an edge. -/
def label (tree : SuffixTree P) (edge : TreeEdge) : List Char :=
  (tree.text edge.text).slice edge.start edge.stop

/-- The edges below a node, in ascending order of their first characters. -/
def edgesBelow (tree : SuffixTree P) (id : Nat) : List TreeEdge :=
  (tree.node id).edges.values.map tree.edge

/-- First character, child and label of each edge below a node. -/
def children (tree : SuffixTree P) (id : Nat) : List (Char × Nat × List Char) :=
  (tree.node id).edges.toList.map fun (c, e) => (c, (tree.edge e).child, tree.label (tree.edge e))

/-- The nodes at and below those of a stack, each with the value that `carry` makes along the
edges that lead there. The last child of a node comes first. -/
def traverse {α : Type} (tree : SuffixTree P) (carry : α → TreeEdge → α) :
    Nat → List (Nat × α) → List (Nat × α)
  | 0, _ => []
  | _, [] => []
  | fuel + 1, (id, a) :: stack =>
    (id, a) :: tree.traverse carry fuel
      ((tree.edgesBelow id).foldl (fun stack edge => (edge.child, carry a edge) :: stack) stack)

/-- The nodes from the root down, each with the value that is carried there. Every node has one
edge that leads to it, so the number of nodes bounds the visits. -/
def walk {α : Type} (tree : SuffixTree P) (carry : α → TreeEdge → α) (a : α) : List (Nat × α) :=
  tree.traverse carry tree.nodeCount [(root, a)]

/-- The nodes from the root down. -/
def visit (tree : SuffixTree P) : List Nat := (tree.walk (fun _ _ => ()) ()).map Prod.fst

/-- The depth of each node in characters. -/
def depths (tree : SuffixTree P) : List (Nat × Nat) :=
  tree.walk (fun depth edge => depth + edge.length) 0

/-- The string that each node spells. -/
def paths (tree : SuffixTree P) : List (Nat × List Char) :=
  tree.walk (fun path edge => path ++ tree.label edge) []

end SuffixTree

end SentenceSearch
