import SentenceSearch.SuffixTree.Basic
import SentenceSearch.Text.DotLabel

/-!
# Drawing a suffix tree

The graph of a tree in the DOT language: nodes show their payloads, edges their labels and masks
in octal, and suffix links are dashed.

## Main definitions

* `SuffixTree.dot` — the text of the drawing
-/

namespace SentenceSearch

namespace SuffixTree

variable {P : Type} [ToString P]

/-- Number of payloads that a node shows. -/
def payloadsShown : Nat := 3

/-- The label of a node: its number, and on a line of their own its first payloads and how many
there are beyond those. -/
def dotNodeLabel (id : Nat) (payloads : List P) : String :=
  if payloads.isEmpty then
    toString id
  else
    let shown := (payloads.take payloadsShown).map fun p => DotLabel.escape (toString p)
    let rest :=
      if payloadsShown < payloads.length then [s!"+{payloads.length - payloadsShown}"] else []
    -- The line break is written as an escape of the language.
    s!"{id}\\n" ++ String.intercalate "," (shown ++ rest)

/-- The lines of one node, of the edges below it and of its suffix link. -/
def dotNode (tree : SuffixTree P) (id : Nat) : String :=
  let node := tree.node id
  let label := dotNodeLabel id node.payloads.toList
  let edges := (tree.edgesBelow id).map fun edge =>
    let text := DotLabel.escape (String.ofList (tree.label edge))
    s!"  n{id} -> n{edge.child} [label=\"{text} {edge.childMask.octal}\"];\n"
  let links := node.link.toList.map fun link =>
    s!"  n{id} -> n{link} [style=dashed, color=gray, constraint=false];\n"
  String.join (s!"  n{id} [label=\"{label}\"];\n" :: (edges ++ links))

/-- The drawing of a tree, from the root down. -/
def dot (tree : SuffixTree P) : String :=
  let header := "digraph suffix_tree \x7b\n  node [shape=circle];\n"
  String.join (header :: tree.visit.map tree.dotNode ++ ["\x7d\n"])

end SuffixTree

end SentenceSearch
