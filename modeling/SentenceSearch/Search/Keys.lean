import SentenceSearch.Search.Collect
import SentenceSearch.Symbol.Table

/-!
# Search for keys in order

The search for texts that contain some keys one after another, with anything in between. The first
key is matched exactly from the root. The later ones are searched in the subtree below, where the
characters between two keys are gaps.

## Main definitions

* `SearchKeys` — keys, with the buckets that are needed from each of their characters on
* `KeyCursor`, `KeySpot` — a place in the tree and the progress through the keys
* `TreeSource.descend` — the place where the first key ends
* `TreeSource.findKeys` — the payloads of the texts that contain the keys
-/

namespace SentenceSearch

/-- Keys to be found in order. None of them is empty. -/
structure SearchKeys where
  /-- The characters of each key. -/
  chars : Array (Array Char)
  /-- For each character the buckets of everything that is to be matched from there on. -/
  required : Array (Array Mask)
  deriving DecidableEq, Inhabited

namespace SearchKeys

/-- The buckets of everything that is to be matched from each character on. -/
def requiredMasks (table : SymbolTable) : List (List Char) → List (List Mask)
  | [] => []
  | key :: keys =>
    -- Inside a key its own rest and all the later keys are still to come.
    let later := table.maskOf keys.flatten
    ((table.suffixMasks key).map (· ||| later)) :: requiredMasks table keys

/-- The keys without the empty ones, unless the table does not know one of their characters. -/
def ofList? (table : SymbolTable) (keys : List (List Char)) : Option SearchKeys :=
  let keys := keys.filter (!·.isEmpty)
  if keys.all fun key => key.all table.contains then
    some
      { chars := (keys.map List.toArray).toArray
        required := ((requiredMasks table keys).map List.toArray).toArray }
  else
    none

/-- Number of keys. -/
def count (keys : SearchKeys) : Nat := keys.chars.size

/-- A key by position. -/
def key (keys : SearchKeys) (k : Nat) : Array Char := keys.chars.getD k #[]

/-- The buckets needed from a character of a key on; nothing is needed after the last key. -/
def requiredAt (keys : SearchKeys) (k pos : Nat) : Mask := (keys.required.getD k #[]).getD pos 0

/-- Number of ways to stand before a character of a key or after all of them. -/
def placeCount (keys : SearchKeys) : Nat :=
  keys.chars.toList.foldr (fun key count => key.size + count) 1

end SearchKeys

/-- A place on an edge and the progress through the keys. -/
structure KeyCursor where
  /-- The edge. -/
  edge : EdgeRecord
  /-- Number of characters passed on the edge. -/
  offset : Nat
  /-- Number of keys matched. -/
  key : Nat
  /-- Number of characters matched of the next key. -/
  pos : Nat
  deriving Inhabited

/-- What tells two cursors apart. -/
structure KeySpot where
  child : Nat
  offset : Nat
  key : Nat
  pos : Nat
  deriving DecidableEq, Repr

namespace KeySpot

/-- Spots are compared field by field. -/
def order : KeySpot → KeySpot → Ordering :=
  compareLex (compareOn child) (compareLex (compareOn offset)
    (compareLex (compareOn key) (compareOn pos)))

instance : Std.TransCmp order :=
  inferInstanceAs (Std.TransCmp (compareLex _ _))

instance : Std.LawfulEqCmp order where
  eq_of_compare {a b} h := by
    simp only [order, compareLex, compareOn, Ordering.then_eq_eq, Std.compare_eq_iff_eq] at h
    cases a
    cases b
    simp_all

end KeySpot

namespace KeyCursor

/-- What tells the cursor apart from others. -/
def spot (cursor : KeyCursor) : KeySpot :=
  ⟨cursor.edge.child, cursor.offset, cursor.key, cursor.pos⟩

/-- Whether the buckets that are still needed can be reached from here. -/
def isFeasible (cursor : KeyCursor) (keys : SearchKeys) : Bool :=
  keys.count ≤ cursor.key ||
    (keys.requiredAt cursor.key cursor.pos).allows (cursor.edge.partialMask cursor.offset)

/-- Match the next character of the key. -/
def advance (cursor : KeyCursor) (keys : SearchKeys) : KeyCursor :=
  if cursor.pos + 1 = (keys.key cursor.key).size then
    { cursor with offset := cursor.offset + 1, key := cursor.key + 1, pos := 0 }
  else
    { cursor with offset := cursor.offset + 1, pos := cursor.pos + 1 }

/-- Pass a character of the gap before the next key. -/
def skip (cursor : KeyCursor) : KeyCursor := { cursor with offset := cursor.offset + 1 }

/-- Go on at the start of an edge below. -/
def enter (cursor : KeyCursor) (edge : EdgeRecord) : KeyCursor :=
  { cursor with edge, offset := 0 }

/-- The moves inside an edge: match the character here, or let it be part of a gap. -/
def movesInside (cursor : KeyCursor) (keys : SearchKeys) : List KeyCursor :=
  let c := cursor.edge.charAt cursor.offset
  (if c = (keys.key cursor.key).getD cursor.pos default then [cursor.advance keys] else []) ++
    if cursor.pos = 0 then [cursor.skip] else []

/-- The moves at the end of an edge. In the middle of a key only the edge that goes on with its
next character can help. -/
def movesBelow (cursor : KeyCursor) (keys : SearchKeys) (edges : List EdgeRecord) :
    List KeyCursor :=
  let c := (keys.key cursor.key).getD cursor.pos default
  (edges.filter fun edge => cursor.pos == 0 || edge.firstChar == c).map cursor.enter

end KeyCursor

/-- The state of a search for keys. -/
structure KeySearch (P : Type) [Ord P] where
  /-- The cursors to go on from, the next one first. -/
  stack : List KeyCursor
  /-- The spots that have been on the stack. -/
  seen : Std.ExtTreeSet KeySpot KeySpot.order
  /-- What has been found. -/
  collection : Collection P
  /-- Number of steps. -/
  states : Nat
  /-- Number of moves that a mask ruled out. -/
  pruned : Nat

namespace KeySearch

variable {P : Type} [Ord P]

/-- Put a cursor on the stack, unless it is not feasible or has been there. -/
def push (search : KeySearch P) (keys : SearchKeys) (cursor : KeyCursor) : KeySearch P :=
  if !cursor.isFeasible keys then
    { search with pruned := search.pruned + 1 }
  else if search.seen.contains cursor.spot then
    search
  else
    { search with stack := cursor :: search.stack, seen := search.seen.insert cursor.spot }

variable [Std.TransOrd P]

/-- The outcome of a search that has come to an end. -/
def outcome (search : KeySearch P) (timedOut : Bool) : SearchOutcome P where
  results := search.collection.results
  stats := ⟨search.states, search.pruned, search.collection.visited.size⟩
  timedOut := timedOut

end KeySearch

/-- Where matching the first key from the root ends. -/
inductive Descent where
  /-- The tree does not spell the key. -/
  | missing
  /-- A mask rules the key out. -/
  | pruned
  /-- The key ends `offset` characters into `edge`. -/
  | found (edge : EdgeRecord) (offset : Nat)

/-- What is left of a key after a label, unless the two differ. When the key ends first, nothing is
left. -/
def remainderAfter : List Char → List Char → Option (List Char)
  | [], key => some key
  | _, [] => some []
  | a :: label, c :: key => if a = c then remainderAfter label key else none

namespace TreeSource

variable {m : Type → Type} [Monad m] {P : Type}

/-- Match the rest of the first key, of which `pos` characters have been matched, below a node. The
fuel bounds the number of edges on the way. -/
def descendFrom (source : TreeSource m P) (keys : SearchKeys) :
    Nat → Nat → Nat → List Char → m Descent
  | fuel + 1, id, pos, c :: rest => do
    match ← source.edgeStarting id c with
    | none => pure .missing
    | some edge =>
      if !(keys.requiredAt 0 pos).allows edge.fullMask then
        pure .pruned
      else
        match remainderAfter edge.label (c :: rest) with
        | none => pure .missing
        -- The key ends on this edge, as far down as it is long.
        | some [] => pure (.found edge (rest.length + 1))
        | some left =>
          source.descendFrom keys fuel edge.child (pos + (rest.length + 1 - left.length)) left
  | _, _, _, _ => pure .missing

/-- Match the first key from the root. Every edge on the way matches a character. -/
def descend (source : TreeSource m P) (keys : SearchKeys) : m Descent :=
  let first := (keys.key 0).toList
  source.descendFrom keys first.length source.root 0 first

variable [Ord P] [Std.TransOrd P]

/-- Go on until the stack is empty or a limit is reached. The fuel bounds the number of steps. -/
def searchKeys (source : TreeSource m P) (keys : SearchKeys) (limits : SearchLimits) :
    Nat → KeySearch P → m (SearchOutcome P)
  | 0, search => pure (search.outcome false)
  | fuel + 1, search =>
    match search.stack with
    | [] => pure (search.outcome false)
    | cursor :: stack =>
      if search.collection.isFull limits then
        pure (search.outcome false)
      else if limits.expiredAt (search.states + 1) then
        pure (search.outcome true)
      else do
        let search := { search with stack, states := search.states + 1 }
        -- After the last key everything below contains all keys.
        if cursor.key = keys.count then
          let collection ← search.collection.collect source limits cursor.edge.child
          source.searchKeys keys limits fuel { search with collection }
        else if cursor.offset = cursor.edge.length then
          let edges ← source.edgesFrom cursor.edge.child
          let moves := cursor.movesBelow keys edges
          source.searchKeys keys limits fuel (moves.foldl (·.push keys ·) search)
        else
          let moves := cursor.movesInside keys
          source.searchKeys keys limits fuel (moves.foldl (·.push keys ·) search)

/-- The payloads of the texts that contain the keys in order, each after the end of the one before
it. Empty keys are left out. Without a key, and with a character that the table does not know,
nothing is found. A cursor is on the stack at most once for each of its spots, and the first one
once more. -/
def findKeys (source : TreeSource m P) (table : SymbolTable) (limits : SearchLimits)
    (keys : List (List Char)) : m (SearchOutcome P) :=
  match SearchKeys.ofList? table keys with
  | none => pure (.nothing 0)
  | some keys =>
    if keys.count = 0 then
      pure (.nothing 0)
    else do
      match ← source.descend keys with
      | .missing => pure (.nothing 0)
      | .pruned => pure (.nothing 1)
      | .found edge offset =>
        -- The first cursor is not put among the spots that have been seen.
        let start : KeyCursor := ⟨edge, offset, 1, 0⟩
        source.searchKeys keys limits (source.placeCount * keys.placeCount + 2)
          ⟨[start], ∅, .empty, 0, 0⟩

end TreeSource

end SentenceSearch
