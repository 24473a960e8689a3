import SentenceSearch.Json.Writer
import SentenceSearch.SuffixTree.Basic

/-!
# Statistics of a suffix tree

The shape of a tree and how its alphabet is spread over buckets.

## Main definitions

* `TreeStats` — the numbers
* `TreeStats.ofTree` — the numbers of a tree
* `TreeStats.report` — the numbers as a text
-/

namespace SentenceSearch

/-- The shape of a tree and how its alphabet is spread over buckets. -/
structure TreeStats where
  /-- Number of texts. -/
  sentences : Nat
  /-- Number of nodes. -/
  nodes : Nat
  /-- Number of edges. -/
  edges : Nat
  /-- Number of nodes without edges below them, the root not counted. -/
  leaves : Nat
  /-- Number of nodes with a payload. -/
  dataNodes : Nat
  /-- Number of payloads on all nodes. -/
  payloads : Nat
  /-- Number of suffix links. -/
  suffixLinks : Nat
  /-- Length of the longest string that a node spells. -/
  maxDepth : Nat
  /-- Number of characters in the symbol table. -/
  symbols : Nat
  /-- Number of characters in each bucket. -/
  bucketSizes : List Nat
  deriving DecidableEq, Repr

namespace TreeStats

/-- The numbers of a tree and its symbol table. -/
def ofTree {P : Type} (tree : SuffixTree P) (table : SymbolTable) : TreeStats :=
  let depths := tree.depths
  let nodes := depths.map fun (id, _) => (id, tree.node id)
  { sentences := tree.textCount
    nodes := tree.nodeCount
    edges := tree.edgeCount
    leaves := nodes.countP fun (id, node) => id != SuffixTree.root && node.edges.isEmpty
    dataNodes := nodes.countP fun (_, node) => !node.payloads.isEmpty
    payloads := nodes.foldr (fun (_, node) count => node.payloads.size + count) 0
    suffixLinks := nodes.countP fun (_, node) => node.link.isSome
    maxDepth := (depths.map Prod.snd).foldl max 0
    symbols := table.size
    bucketSizes := table.buckets.map fun (_, symbols) => symbols.length }

/-- A bucket number, padded to two places. -/
def paddedBucket (bucket : Nat) : String :=
  let digits := toString bucket
  if digits.length < 2 then " " ++ digits else digits

/-- The numbers as a text. -/
def report (stats : TreeStats) : String :=
  let lines :=
    ["Tree Statistics", "===============", "",
      s!"Sentences:        {stats.sentences}",
      s!"Nodes:            {stats.nodes}",
      s!"Edges:            {stats.edges}",
      s!"Leaves:           {stats.leaves}",
      s!"Data nodes:       {stats.dataNodes}",
      s!"Payloads:         {stats.payloads}",
      s!"Suffix links:     {stats.suffixLinks}",
      s!"Max depth:        {stats.maxDepth}", "",
      s!"Symbols:          {stats.symbols} in {stats.bucketSizes.length} buckets"]
  let buckets := stats.bucketSizes.zipIdx.map fun (size, bucket) =>
    s!"  bucket {paddedBucket bucket}       {size}"
  String.join ((lines ++ buckets).map (· ++ "\n"))

/-- The numbers as a JSON object. -/
def toJson (stats : TreeStats) : Json :=
  .object
    [("sentences", .nat stats.sentences),
      ("nodes", .nat stats.nodes),
      ("edges", .nat stats.edges),
      ("leaves", .nat stats.leaves),
      ("data_nodes", .nat stats.dataNodes),
      ("payloads", .nat stats.payloads),
      ("suffix_links", .nat stats.suffixLinks),
      ("max_depth", .nat stats.maxDepth),
      ("symbols", .nat stats.symbols),
      ("bucket_sizes", .array (stats.bucketSizes.map Json.nat))]

end TreeStats

end SentenceSearch
