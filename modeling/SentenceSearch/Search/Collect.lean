import SentenceSearch.Search.Source

/-!
# Collecting payloads

Once a match is complete, every payload below it is a result. Subtrees are collected whole, and no
node is visited twice in a search.

## Main definitions

* `Collection` — the payloads found and the nodes visited
* `Collection.collect` — take the payloads at and below some nodes
-/

namespace SentenceSearch

/-- The payloads that have been found and the nodes that have been visited for them. -/
structure Collection (P : Type) [Ord P] where
  /-- The payloads. -/
  results : Std.ExtTreeSet P
  /-- The nodes. -/
  visited : Std.ExtTreeSet Nat

namespace Collection

variable {m : Type → Type} [Monad m] {P : Type} [Ord P]

/-- Nothing found yet. -/
def empty : Collection P := ⟨∅, ∅⟩

instance : Inhabited (Collection P) := ⟨empty⟩

variable [Std.TransOrd P]

/-- Whether the limits say that enough has been found. -/
def isFull (collection : Collection P) (limits : SearchLimits) : Bool :=
  limits.isFull collection.results.size

/-- Visit a node and take its payloads. -/
def visit (collection : Collection P) (id : Nat) (payloads : List P) : Collection P where
  results := payloads.foldl (fun acc p => acc.insert p) collection.results
  visited := collection.visited.insert id

/-- The children of a visited node that have not been visited, the last one first. -/
def unvisited (collection : Collection P) (edges : List EdgeRecord) : List Nat :=
  ((edges.map EdgeRecord.child).filter fun id => !collection.visited.contains id).reverse

/-- Take the payloads at and below the nodes of a stack, until enough has been found. The fuel
bounds the number of nodes that are put on the stack. -/
def collectFrom (source : TreeSource m P) (limits : SearchLimits) :
    Nat → List Nat → Collection P → m (Collection P)
  | 0, _, collection => pure collection
  | _, [], collection => pure collection
  | fuel + 1, id :: stack, collection =>
    if collection.isFull limits then
      pure collection
    else if collection.visited.contains id then
      -- Two edges of a tree made of rows may lead to one node.
      collectFrom source limits fuel stack collection
    else do
      let payloads ← source.payloadsAt id
      let edges ← source.edgesFrom id
      let collection := collection.visit id payloads
      collectFrom source limits fuel (collection.unvisited edges ++ stack) collection

/-- Take the payloads at and below a node, until enough has been found. Every edge puts at most one
node on the stack. -/
def collect (source : TreeSource m P) (limits : SearchLimits) (id : Nat)
    (collection : Collection P) : m (Collection P) :=
  collectFrom source limits (source.edgeCount + 1) [id] collection

end Collection

end SentenceSearch
