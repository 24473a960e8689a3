import SentenceSearch.Automaton.Basic
import SentenceSearch.Search.Collect

/-!
# Search with an automaton

The search for texts with a part that an automaton accepts. States of the automaton and places in
the tree are followed in step, breadth first. Once the accepting state is reached, every path below
goes on from a suffix whose front has been accepted, so the whole subtree is a match.

## Main definitions

* `MatchCursor`, `MatchSpot` — a state of the automaton and a place in the tree
* `TreeSource.moves` — the ways on from a cursor
* `TreeSource.findMatching` — the payloads of the texts with an accepted part
-/

namespace SentenceSearch

/-- A state of the automaton and a place on an edge. -/
structure MatchCursor where
  /-- The state. -/
  state : Nat
  /-- The edge. -/
  edge : EdgeRecord
  /-- Number of characters passed on the edge. -/
  offset : Nat
  deriving Inhabited

/-- What tells two cursors apart. -/
structure MatchSpot where
  state : Nat
  child : Nat
  offset : Nat
  deriving DecidableEq, Repr

namespace MatchSpot

/-- Spots are compared field by field. -/
def order : MatchSpot → MatchSpot → Ordering :=
  compareLex (compareOn state) (compareLex (compareOn child) (compareOn offset))

instance : Std.TransCmp order :=
  inferInstanceAs (Std.TransCmp (compareLex _ _))

instance : Std.LawfulEqCmp order where
  eq_of_compare {a b} h := by
    simp only [order, compareLex, compareOn, Ordering.then_eq_eq, Std.compare_eq_iff_eq] at h
    cases a
    cases b
    simp_all

end MatchSpot

/-- What tells the cursor apart from others. -/
def MatchCursor.spot (cursor : MatchCursor) : MatchSpot :=
  ⟨cursor.state, cursor.edge.child, cursor.offset⟩

/-- A way on from a cursor. -/
structure MatchMove where
  /-- Where it leads. -/
  cursor : MatchCursor
  /-- Whether the masks allow it. -/
  allowed : Bool

namespace MatchCursor

/-- Take a transition to a place on the same edge. -/
def take (cursor : MatchCursor) (offset : Nat) (t : Transition) : MatchMove where
  cursor := { cursor with state := t.target, offset }
  allowed := t.allowed (cursor.edge.partialMask cursor.offset)

/-- The moves along empty transitions. -/
def emptyMoves (cursor : MatchCursor) (automaton : Automaton) : List MatchMove :=
  (automaton.epsilons cursor.state).map (cursor.take cursor.offset)

/-- The moves over the next character on the edge. -/
def consumingMoves (cursor : MatchCursor) (automaton : Automaton) : List MatchMove :=
  (automaton.step cursor.state (cursor.edge.charAt cursor.offset)).map
    (cursor.take (cursor.offset + 1))

/-- The moves to the start of the edges below. No mask rules them out. -/
def movesBelow (cursor : MatchCursor) (edges : List EdgeRecord) : List MatchMove :=
  edges.map fun edge => ⟨⟨cursor.state, edge, 0⟩, true⟩

end MatchCursor

/-- The state of a search with an automaton. The cursors form a queue. -/
structure MatchSearch (P : Type) [Ord P] where
  /-- The cursors of this generation, the next one first. -/
  front : List MatchCursor
  /-- The cursors of the next generation, the last one first. -/
  back : List MatchCursor
  /-- The spots that have been in the queue. -/
  seen : Std.ExtTreeSet MatchSpot MatchSpot.order
  /-- What has been found. -/
  collection : Collection P
  /-- Number of steps. -/
  states : Nat
  /-- Number of moves that a mask ruled out. -/
  pruned : Nat

namespace MatchSearch

variable {P : Type} [Ord P]

/-- Put a move into the queue, unless it is ruled out or has been there. -/
def push (search : MatchSearch P) (move : MatchMove) : MatchSearch P :=
  if !move.allowed then
    { search with pruned := search.pruned + 1 }
  else if search.seen.contains move.cursor.spot then
    search
  else
    { search with
      back := move.cursor :: search.back
      seen := search.seen.insert move.cursor.spot }

/-- The next cursor and the search without it. A generation starts when the one before it has come
to an end. -/
def next? (search : MatchSearch P) : Option (MatchCursor × MatchSearch P) :=
  match search.front with
  | cursor :: front => some (cursor, { search with front })
  | [] =>
    -- The last one added goes last, so the next generation is turned around.
    match search.back.reverse with
    | cursor :: front => some (cursor, { search with front, back := [] })
    | [] => none

variable [Std.TransOrd P]

/-- The outcome of a search that has come to an end. -/
def outcome (search : MatchSearch P) (timedOut : Bool) : SearchOutcome P where
  results := search.collection.results
  stats := ⟨search.states, search.pruned, search.collection.visited.size⟩
  timedOut := timedOut

end MatchSearch

namespace TreeSource

variable {m : Type → Type} [Monad m] {P : Type}

/-- The ways on from a cursor: empty transitions first, then the next character or, at the end of
an edge, the edges below. -/
def moves (source : TreeSource m P) (automaton : Automaton) (cursor : MatchCursor) :
    m (List MatchMove) := do
  let empty := cursor.emptyMoves automaton
  if cursor.offset = cursor.edge.length then
    let edges ← source.edgesFrom cursor.edge.child
    pure (empty ++ cursor.movesBelow edges)
  else
    pure (empty ++ cursor.consumingMoves automaton)

variable [Ord P] [Std.TransOrd P]

/-- Go on until the queue is empty or a limit is reached. The fuel bounds the number of steps. -/
def searchMatching (source : TreeSource m P) (automaton : Automaton) (limits : SearchLimits) :
    Nat → MatchSearch P → m (SearchOutcome P)
  | 0, search => pure (search.outcome false)
  | fuel + 1, search =>
    match search.next? with
    | none => pure (search.outcome false)
    | some (cursor, rest) =>
      if search.collection.isFull limits then
        pure (search.outcome false)
      else if limits.expiredAt (search.states + 1) then
        pure (search.outcome true)
      else do
        let rest := { rest with states := rest.states + 1 }
        -- What follows an accepted part does not matter.
        if cursor.state = automaton.accept then
          let collection ← rest.collection.collect source limits cursor.edge.child
          source.searchMatching automaton limits fuel { rest with collection }
        else
          let moves ← source.moves automaton cursor
          source.searchMatching automaton limits fuel (moves.foldl MatchSearch.push rest)

/-- The payloads of the texts with a part that the automaton accepts. A cursor is in the queue at
most once for each of its spots. -/
def findMatching (source : TreeSource m P) (automaton : Automaton) (limits : SearchLimits) :
    m (SearchOutcome P) := do
  let edges ← source.edgesFrom source.root
  -- A match may start at any suffix, and every suffix starts at the root.
  let starts := edges.map fun edge => ⟨⟨automaton.start, edge, 0⟩, true⟩
  let search : MatchSearch P := starts.foldl MatchSearch.push ⟨[], [], ∅, .empty, 0, 0⟩
  source.searchMatching automaton limits (automaton.stateCount * source.placeCount + 1) search

end TreeSource

end SentenceSearch
