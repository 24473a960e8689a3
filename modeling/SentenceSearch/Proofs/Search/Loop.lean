import SentenceSearch.Proofs.Search.Matching
import SentenceSearch.Search.Keys

/-!
# Searches as loops

Both searches look at one cursor after another. At some cursors they collect what is below a node,
and from the others they go on. They stop early in the same way. What holds of every such loop holds
of both.

## Main definitions

* `SearchTurn` — what a search does with its next cursor
* `SearchLoop`, `SearchLoop.run` — a search as a loop of turns
* `TreeSource.keyLoop`, `TreeSource.matchLoop` — the two searches
* `TreeSource.searchAfter` — a search for keys from the place where the first one ends

## Main results

* `run_of_none`, `run_of_isFull`, `run_of_expired`, `run_of_collect`, `run_of_expand` — all that a
  loop does
* `searchKeys_eq_run`, `searchMatching_eq_run` — the searches are these loops
* `findKeys_eq`, `findKeys_cases`, `findMatching_eq_run` — how they start
-/

namespace SentenceSearch

/-- What a search does with its next cursor. -/
inductive SearchTurn (m : Type → Type) (P S : Type) [Ord P] where
  /-- It collects at and below a node and goes on with what it has found. -/
  | collect (id : Nat) (resume : Collection P → S)
  /-- It goes on with the cursors that come after this one. -/
  | expand (next : m S)

/-- A search that takes a turn for each cursor, with what can be read off its state. -/
structure SearchLoop (m : Type → Type) (P S : Type) [Ord P] where
  /-- The turn for the next cursor, if there is one. -/
  turn? : S → Option (SearchTurn m P S)
  /-- What has been found. -/
  collection : S → Collection P
  /-- Number of turns so far. -/
  states : S → Nat
  /-- Number of moves that a mask ruled out. -/
  pruned : S → Nat

namespace SearchLoop

variable {m : Type → Type} [Monad m] {P S : Type} [Ord P] [Std.TransOrd P]

/-- The outcome of a search that has come to an end. -/
def outcome (loop : SearchLoop m P S) (search : S) (timedOut : Bool) : SearchOutcome P where
  results := (loop.collection search).results
  stats := ⟨loop.states search, loop.pruned search, (loop.collection search).visited.size⟩
  timedOut := timedOut

/-- Take turns until there is no cursor left or a limit is reached. The fuel bounds the number of
turns. -/
def run (loop : SearchLoop m P S) (source : TreeSource m P) (limits : SearchLimits) :
    Nat → S → m (SearchOutcome P)
  | 0, search => pure (loop.outcome search false)
  | fuel + 1, search =>
    match loop.turn? search with
    | none => pure (loop.outcome search false)
    | some turn =>
      if (loop.collection search).isFull limits then
        pure (loop.outcome search false)
      else if limits.expiredAt (loop.states search + 1) then
        pure (loop.outcome search true)
      else
        match turn with
        | .collect id resume => do
          let collection ← (loop.collection search).collect source limits id
          loop.run source limits fuel (resume collection)
        | .expand next => do loop.run source limits fuel (← next)

variable {loop : SearchLoop m P S} {source : TreeSource m P} {limits : SearchLimits} {fuel : Nat}
  {search : S}

theorem run_of_none (hturn : loop.turn? search = none) :
    loop.run source limits fuel search = pure (loop.outcome search false) := by
  cases fuel with
  | zero => rfl
  | succ fuel => rw [run, hturn]

/-- A search that has found enough comes to an end. -/
theorem run_of_isFull (hfull : (loop.collection search).isFull limits = true) :
    loop.run source limits fuel search = pure (loop.outcome search false) := by
  cases fuel with
  | zero => rfl
  | succ fuel =>
    rw [run]
    split
    · rfl
    · rw [if_pos hfull]

theorem run_of_expired {turn : SearchTurn m P S} (hturn : loop.turn? search = some turn)
    (hfull : (loop.collection search).isFull limits = false)
    (htime : limits.expiredAt (loop.states search + 1) = true) :
    loop.run source limits (fuel + 1) search = pure (loop.outcome search true) := by
  rw [run, hturn]
  simp only [hfull, htime, Bool.false_eq_true, if_false, if_true]

theorem run_of_collect {id : Nat} {resume : Collection P → S}
    (hturn : loop.turn? search = some (.collect id resume))
    (hfull : (loop.collection search).isFull limits = false)
    (htime : limits.expiredAt (loop.states search + 1) = false) :
    loop.run source limits (fuel + 1) search =
      (loop.collection search).collect source limits id >>= fun collection =>
        loop.run source limits fuel (resume collection) := by
  rw [run, hturn]
  simp only [hfull, htime, Bool.false_eq_true, if_false]

theorem run_of_expand {next : m S} (hturn : loop.turn? search = some (.expand next))
    (hfull : (loop.collection search).isFull limits = false)
    (htime : limits.expiredAt (loop.states search + 1) = false) :
    loop.run source limits (fuel + 1) search = next >>= loop.run source limits fuel := by
  rw [run, hturn]
  simp only [hfull, htime, Bool.false_eq_true, if_false]

end SearchLoop

/-- The state in which a search with an automaton starts: a match may start on each edge. -/
def MatchSearch.initial {P : Type} [Ord P] (automaton : Automaton) (edges : List EdgeRecord) :
    MatchSearch P :=
  (edges.map fun edge => (⟨⟨automaton.start, edge, 0⟩, true⟩ : MatchMove)).foldl MatchSearch.push
    ⟨[], [], ∅, .empty, 0, 0⟩

namespace TreeSource

variable {m : Type → Type} [Monad m] {P : Type} [Ord P] [Std.TransOrd P]

/-- The moves of a search for keys, those included that a mask rules out. -/
def keyWays (source : TreeSource m P) (keys : SearchKeys) (cursor : KeyCursor) :
    m (List KeyCursor) :=
  if cursor.offset = cursor.edge.length then do
    pure (cursor.movesBelow keys (← source.edgesFrom cursor.edge.child))
  else
    pure (cursor.movesInside keys)

/-- The turn of a search for keys at a cursor that has been taken off the stack: it collects after
the last key. -/
def keyTurn (source : TreeSource m P) (keys : SearchKeys) (cursor : KeyCursor)
    (search : KeySearch P) : SearchTurn m P (KeySearch P) :=
  if cursor.key = keys.count then
    .collect cursor.edge.child fun collection => { search with collection }
  else
    .expand do pure ((← source.keyWays keys cursor).foldl (·.push keys ·) search)

/-- The search for keys. -/
def keyLoop (source : TreeSource m P) (keys : SearchKeys) : SearchLoop m P (KeySearch P) where
  turn? search :=
    match search.stack with
    | [] => none
    | cursor :: stack =>
      some (source.keyTurn keys cursor { search with stack, states := search.states + 1 })
  collection := KeySearch.collection
  states := KeySearch.states
  pruned := KeySearch.pruned

/-- The turn of a search with an automaton at a cursor that has been taken off the queue: it
collects in the accepting state. -/
def matchTurn (source : TreeSource m P) (automaton : Automaton) (cursor : MatchCursor)
    (search : MatchSearch P) : SearchTurn m P (MatchSearch P) :=
  if cursor.state = automaton.accept then
    .collect cursor.edge.child fun collection => { search with collection }
  else
    .expand do pure ((← source.moves automaton cursor).foldl MatchSearch.push search)

/-- The search with an automaton. -/
def matchLoop (source : TreeSource m P) (automaton : Automaton) :
    SearchLoop m P (MatchSearch P) where
  turn? search := search.next?.map fun (cursor, rest) =>
    source.matchTurn automaton cursor { rest with states := rest.states + 1 }
  collection := MatchSearch.collection
  states := MatchSearch.states
  pruned := MatchSearch.pruned

/-- The outcome of a search for keys, once it is known where the first one ends. -/
def searchAfter (source : TreeSource m P) (keys : SearchKeys) (limits : SearchLimits) :
    Descent → m (SearchOutcome P)
  | .missing => pure (.nothing 0)
  | .pruned => pure (.nothing 1)
  | .found edge offset =>
    (source.keyLoop keys).run source limits (source.placeCount * keys.placeCount + 2)
      ⟨[⟨edge, offset, 1, 0⟩], ∅, .empty, 0, 0⟩

variable [LawfulMonad m]

/-- The search for keys is a loop. -/
theorem searchKeys_eq_run (source : TreeSource m P) (keys : SearchKeys) (limits : SearchLimits)
    (fuel : Nat) (search : KeySearch P) :
    source.searchKeys keys limits fuel search =
      (source.keyLoop keys).run source limits fuel search := by
  induction fuel generalizing search with
  | zero => rfl
  | succ fuel ih =>
    rw [searchKeys, SearchLoop.run]
    cases hstack : search.stack with
    | nil =>
      have hturn : (source.keyLoop keys).turn? search = none := by
        simp only [keyLoop, hstack]
      rw [hturn]
      rfl
    | cons cursor stack =>
      have hturn : (source.keyLoop keys).turn? search = some (source.keyTurn keys cursor
          { search with stack, states := search.states + 1 }) := by
        simp only [keyLoop, hstack]
      rw [hturn]
      simp only [ih, keyTurn]
      by_cases hfinal : cursor.key = keys.count
      · simp only [if_pos hfinal]
        rfl
      · simp only [if_neg hfinal, keyWays]
        by_cases hend : cursor.offset = cursor.edge.length
        · simp only [if_pos hend, bind_assoc, pure_bind]
          rfl
        · simp only [if_neg hend, pure_bind]
          rfl

/-- The search with an automaton is a loop. -/
theorem searchMatching_eq_run (source : TreeSource m P) (automaton : Automaton)
    (limits : SearchLimits) (fuel : Nat) (search : MatchSearch P) :
    source.searchMatching automaton limits fuel search =
      (source.matchLoop automaton).run source limits fuel search := by
  induction fuel generalizing search with
  | zero => rfl
  | succ fuel ih =>
    rw [searchMatching, SearchLoop.run]
    cases hnext : search.next? with
    | none =>
      have hturn : (source.matchLoop automaton).turn? search = none := by
        simp only [matchLoop, hnext, Option.map_none]
      rw [hturn]
      rfl
    | some next =>
      obtain ⟨cursor, rest⟩ := next
      have hturn : (source.matchLoop automaton).turn? search =
          some (source.matchTurn automaton cursor { rest with states := rest.states + 1 }) := by
        simp only [matchLoop, hnext, Option.map_some]
      have hcollection : rest.collection = (source.matchLoop automaton).collection search :=
        (MatchSearch.agenda_next? hnext).2
      rw [hturn]
      simp only [ih, matchTurn]
      by_cases hfinal : cursor.state = automaton.accept
      · simp only [if_pos hfinal, hcollection]
        rfl
      · simp only [if_neg hfinal, bind_assoc, pure_bind]
        rfl

/-- A search for keys starts where the first one ends, if it has a key and knows all characters. -/
theorem findKeys_eq (source : TreeSource m P) (table : SymbolTable) (limits : SearchLimits)
    (keys : List (List Char)) :
    source.findKeys table limits keys =
      match SearchKeys.ofList? table keys with
      | none => pure (.nothing 0)
      | some found =>
        if found.count = 0 then pure (.nothing 0)
        else source.descend found >>= source.searchAfter found limits := by
  unfold findKeys
  cases SearchKeys.ofList? table keys with
  | none => rfl
  | some found =>
    by_cases hcount : found.count = 0
    · simp only [if_pos hcount]
    · simp only [if_neg hcount]
      congr 1
      funext descent
      cases descent with
      | missing => rfl
      | pruned => rfl
      | found edge offset => exact source.searchKeys_eq_run found limits _ _

/-- A search for keys gives up before it reads the tree, or it looks for the first key. -/
theorem findKeys_cases (table : SymbolTable) (keys : List (List Char)) :
    (∀ (source : TreeSource m P) limits, source.findKeys table limits keys = pure (.nothing 0)) ∨
      ∃ found : SearchKeys, ∀ (source : TreeSource m P) limits,
        source.findKeys table limits keys =
          source.descend found >>= source.searchAfter found limits := by
  simp only [findKeys_eq]
  cases SearchKeys.ofList? table keys with
  | none => exact Or.inl fun _ _ => rfl
  | some found =>
    by_cases hcount : found.count = 0
    · exact Or.inl fun _ _ => if_pos hcount
    · exact Or.inr ⟨found, fun _ _ => if_neg hcount⟩

/-- A search with an automaton starts on the edges below the root. -/
theorem findMatching_eq_run (source : TreeSource m P) (automaton : Automaton)
    (limits : SearchLimits) :
    source.findMatching automaton limits = source.edgesFrom source.root >>= fun edges =>
      (source.matchLoop automaton).run source limits
        (automaton.stateCount * source.placeCount + 1) (.initial automaton edges) := by
  unfold findMatching
  simp only [searchMatching_eq_run]
  rfl

end TreeSource

end SentenceSearch
