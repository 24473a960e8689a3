import Std.Data.ExtTreeSet
import SentenceSearch.Search.Edge

/-!
# What a search reads and reports

A search reads a tree through a source, which hands out the edges below a node and the payloads at
a node. Reading may have an effect, such as keeping pages. A search is limited by a number of
results and by a deadline, and it counts what it does.

## Main definitions

* `TreeSource` — read access to a tree
* `SearchLimits` — when to stop early
* `SearchOutcome` — the payloads found and how the search went
-/

namespace SentenceSearch

/-- Read access to a tree. -/
structure TreeSource (m : Type → Type) (P : Type) where
  /-- The node where a search starts. -/
  root : Nat
  /-- The edges below a node, in ascending order of their first characters. -/
  edgesFrom : Nat → m (List EdgeRecord)
  /-- The edge below a node whose label starts with a character. -/
  edgeStarting : Nat → Char → m (Option EdgeRecord)
  /-- The payloads at a node. -/
  payloadsAt : Nat → m (List P)
  /-- Number of edges of the tree. -/
  edgeCount : Nat
  /-- Number of places on the edges of the tree, both ends of each edge included. -/
  placeCount : Nat

/-- The edge with a given first character among the edges below a node. -/
def firstStarting (c : Char) (edges : List EdgeRecord) : Option EdgeRecord :=
  edges.find? fun edge => edge.firstChar == c

/-- Number of places on some edges, both ends of each edge included. -/
def countPlaces (edges : List EdgeRecord) : Nat :=
  edges.foldr (fun edge count => edge.length + 1 + count) 0

/-- When a search stops early. -/
structure SearchLimits where
  /-- Stop once this many payloads have been found, or never if it is zero. The payloads of a node
  are always taken together. -/
  maxResults : Nat
  /-- The answers of a clock: whether the deadline has passed when it is looked at for the `k`-th
  time. Without a deadline nobody looks. -/
  deadline : Option (Nat → Bool)

namespace SearchLimits

/-- Never stop early. -/
def unlimited : SearchLimits := ⟨0, none⟩

instance : Inhabited SearchLimits := ⟨unlimited⟩

/-- Stop once `max` payloads have been found, or never if `max` is zero. -/
def ofMax (max : Nat) : SearchLimits := ⟨max, none⟩

/-- Number of steps between two looks at the clock. -/
def stepsPerLook : Nat := 256

/-- Whether a search stops after `found` payloads. -/
def isFull (limits : SearchLimits) (found : Nat) : Bool :=
  0 < limits.maxResults && limits.maxResults ≤ found

/-- Whether a search gives up before its `step`-th step. -/
def expiredAt (limits : SearchLimits) (step : Nat) : Bool :=
  match limits.deadline with
  | none => false
  -- Looking at a clock costs more than a step.
  | some clock => step % stepsPerLook == 0 && clock (step / stepsPerLook)

end SearchLimits

/-- What a search has counted. -/
structure SearchStats where
  /-- Number of steps. -/
  states : Nat
  /-- Number of moves that a mask ruled out. -/
  pruned : Nat
  /-- Number of nodes whose payloads were taken. -/
  collected : Nat
  deriving DecidableEq, Repr, Inhabited

/-- The payloads that a search has found and how it went. -/
structure SearchOutcome (P : Type) [Ord P] where
  /-- The payloads. -/
  results : Std.ExtTreeSet P
  /-- What was counted. -/
  stats : SearchStats
  /-- Whether the deadline passed. -/
  timedOut : Bool

/-- The outcome of a search that did nothing but rule out `pruned` moves. -/
def SearchOutcome.nothing {P : Type} [Ord P] (pruned : Nat) : SearchOutcome P :=
  ⟨∅, ⟨0, pruned, 0⟩, false⟩

end SentenceSearch
