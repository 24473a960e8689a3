import SentenceSearch.Json.Codec
import SentenceSearch.SuffixTree.Annotate

/-!
# Rows of a tree

A tree as two tables: one row for each edge and one for each payload. Rows have a JSON form.

## Main definitions

* `EdgeRow`, `PayloadRow` — the rows
* `TreeRows` — the tables
* `SuffixTree.rows` — the tables of a suffix tree
-/

namespace SentenceSearch

/-- An edge: `text` leads from the node `source` to the node `target`. -/
structure EdgeRow where
  /-- The node above the edge. -/
  source : Nat
  /-- The node below the edge. -/
  target : Nat
  /-- The label. -/
  text : String
  /-- The buckets that occur below the edge. -/
  childMask : Mask
  deriving DecidableEq, Repr, Inhabited

namespace EdgeRow

/-- The fields of the JSON form. -/
def fieldNames : List String := ["from", "to", "text", "child_mask"]

/-- The row that a tree stands for. -/
def ofTree? (tree : JsonTree) : Option EdgeRow :=
  match tree.fields? fieldNames with
  | some [some source, some target, some text, some childMask] => do
    pure
      { source := ← source.nat? wordBound
        target := ← target.nat? wordBound
        text := ← text.string?
        childMask := UInt32.ofNat (← childMask.nat? wordBound) }
  | _ => none

instance : JsonForm EdgeRow where
  toJson row :=
    .object [("from", .nat row.source), ("to", .nat row.target), ("text", .string row.text),
      ("child_mask", .nat row.childMask.toNat)]
  ofTree? := ofTree?

end EdgeRow

/-- A payload at a node. -/
structure PayloadRow (P : Type) where
  /-- The node. -/
  node : Nat
  /-- The payload. -/
  payload : P
  deriving DecidableEq, Repr, Inhabited

namespace PayloadRow

/-- The fields of the JSON form. -/
def fieldNames : List String := ["node", "payload"]

variable {P : Type} [JsonForm P]

/-- The row that a tree stands for. -/
def ofTree? (tree : JsonTree) : Option (PayloadRow P) :=
  match tree.fields? fieldNames with
  | some [some node, some payload] => do
    pure ⟨← node.nat? wordBound, ← JsonForm.ofTree? payload⟩
  | _ => none

instance : JsonForm (PayloadRow P) where
  toJson row := .object [("node", .nat row.node), ("payload", JsonForm.toJson row.payload)]
  ofTree? := ofTree?

end PayloadRow

/-- The tables of a tree. -/
structure TreeRows (P : Type) where
  /-- The edges. -/
  edges : List EdgeRow
  /-- The payloads. -/
  payloads : List (PayloadRow P)
  deriving DecidableEq, Repr, Inhabited

namespace SuffixTree

variable {P : Type}

/-- The row of an edge below a node. -/
def edgeRow (tree : SuffixTree P) (id : Nat) (edge : TreeEdge) : EdgeRow where
  source := id
  target := edge.child
  text := String.ofList (tree.label edge)
  childMask := tree.reliableMask edge

/-- The tables of a tree, node by node. -/
def rows (tree : SuffixTree P) : TreeRows P :=
  let ids := List.range tree.nodeCount
  { edges := ids.flatMap fun id => (tree.edgesBelow id).map (tree.edgeRow id)
    payloads := ids.flatMap fun id => (tree.node id).payloads.toList.map fun p => ⟨id, p⟩ }

end SuffixTree

end SentenceSearch
