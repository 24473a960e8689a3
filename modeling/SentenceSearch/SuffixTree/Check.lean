import SentenceSearch.SuffixTree.Basic

/-!
# Soundness check of a suffix tree

The check reports what is wrong with the structure of a tree: nodes out of reach, empty or
misfiled edges, leaves without payload, and suffix links that are wrong or missing.

## Main definitions

* `TreeProblem` — something wrong with a tree
* `SuffixTree.problems` — everything that is wrong with a tree
-/

namespace SentenceSearch

/-- Something wrong with the structure of a suffix tree. -/
inductive TreeProblem where
  /-- Some nodes cannot be reached from the root. -/
  | unreachable (reached total : Nat)
  /-- An edge has an empty label. -/
  | emptyEdge (edge node : Nat)
  /-- An edge is filed under another character than its first one. -/
  | misfiledEdge (edge node : Nat) (key : Char)
  /-- A leaf carries no payload. -/
  | bareLeaf (node : Nat)
  /-- A suffix link leads to a node that spells something else. -/
  | wrongLink (node link : Nat)
  /-- A node has no suffix link, although its string has a shorter suffix. -/
  | missingLink (node depth : Nat)
  deriving DecidableEq, Repr

/-- The text of a problem in reports. -/
def TreeProblem.message : TreeProblem → String
  | .unreachable reached total => s!"{reached} nodes reachable of {total}"
  | .emptyEdge edge node => s!"edge {edge} below node {node} is empty"
  | .misfiledEdge edge node key => s!"edge {edge} below node {node} filed under '{key}'"
  | .bareLeaf node => s!"leaf {node} has no payload"
  | .wrongLink node link => s!"node {node} has a wrong suffix link to {link}"
  | .missingLink node depth => s!"node {node} of depth {depth} has no suffix link"

namespace SuffixTree

variable {P : Type}

/-- The string that each node spells, by node. -/
def pathMap (tree : SuffixTree P) : Std.ExtTreeMap Nat (List Char) :=
  tree.paths.foldl (fun acc (id, path) => acc.insert id path) ∅

/-- What is wrong with the edges below a node. -/
def edgeProblems (tree : SuffixTree P) (id : Nat) : List TreeProblem :=
  (tree.node id).edges.toList.flatMap fun (key, e) =>
    let edge := tree.edge e
    if edge.length = 0 then [.emptyEdge e id]
    else if tree.charAt edge.text edge.start ≠ key then [.misfiledEdge e id key]
    else []

/-- Whether a node is a leaf without payload. -/
def leafProblems (tree : SuffixTree P) (id : Nat) : List TreeProblem :=
  let node := tree.node id
  if id ≠ root ∧ node.edges.isEmpty ∧ node.payloads.isEmpty then [.bareLeaf id] else []

/-- What is wrong with the suffix link of a node. -/
def linkProblems (tree : SuffixTree P) (paths : Std.ExtTreeMap Nat (List Char)) (id : Nat) :
    List TreeProblem :=
  match paths[id]? with
  | none => []
  | some path =>
    match (tree.node id).link with
    | some link =>
      -- The root spells the empty string, which has no shorter suffix.
      if path ≠ [] ∧ paths[link]? = some path.tail then [] else [.wrongLink id link]
    | none => if 2 ≤ path.length then [.missingLink id path.length] else []

/-- Everything that is wrong with a tree. -/
def problems (tree : SuffixTree P) : List TreeProblem :=
  let paths := tree.pathMap
  let reached := paths.size
  (if reached = tree.nodeCount then [] else [.unreachable reached tree.nodeCount]) ++
    (List.range tree.nodeCount).flatMap fun id =>
      tree.edgeProblems id ++ tree.leafProblems id ++ tree.linkProblems paths id

end SuffixTree

end SentenceSearch
