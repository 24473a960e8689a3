import SentenceSearch.Proofs.Search.Loop

/-!
# Searches and the effects of reading

A search is written for any monad: it asks a source for edges and payloads and does not know what
else happens when it asks. So if two sources give answers that are related, whatever they do beside
that, then every search is related on both. A relation of computations has to go with `pure` and with
`>>=`, and that is all.

## Main definitions

* `EffectRelation` — a relation of computations in two monads
* `TreeSource.Related` — the answers of two sources are related
* `SearchCall`, `runAll` — a search that is asked for, and some of them one after the other

## Main results

* `Related.run` — loops with related turns are related
* `Related.findKeys`, `Related.findMatching`, `Related.runAll` — searches on related sources
-/

namespace SentenceSearch

variable {m n : Type → Type} [Monad m] [Monad n] {P S : Type} [Ord P]

/-- A relation of computations in two monads that goes with `pure` and `>>=`. -/
structure EffectRelation (m n : Type → Type) [Monad m] [Monad n] where
  /-- The relation. -/
  Rel : {α : Type} → m α → n α → Prop
  /-- Doing nothing is related to doing nothing. -/
  pure : ∀ {α : Type} (a : α), Rel (Pure.pure a) (Pure.pure a)
  /-- What is done one after the other is related step by step. -/
  bind : ∀ {α β : Type} {x : m α} {y : n α} {f : α → m β} {g : α → n β},
    Rel x y → (∀ a, Rel (f a) (g a)) → Rel (x >>= f) (y >>= g)

/-- The answers of two sources are related. -/
structure TreeSource.Related (R : EffectRelation m n) (source : TreeSource m P)
    (source' : TreeSource n P) : Prop where
  root : source.root = source'.root
  edgesFrom : ∀ id, R.Rel (source.edgesFrom id) (source'.edgesFrom id)
  edgeStarting : ∀ id c, R.Rel (source.edgeStarting id c) (source'.edgeStarting id c)
  payloadsAt : ∀ id, R.Rel (source.payloadsAt id) (source'.payloadsAt id)
  edgeCount : source.edgeCount = source'.edgeCount
  placeCount : source.placeCount = source'.placeCount

/-- Two turns of a search do the same, up to effects. -/
inductive SearchTurn.Related (R : EffectRelation m n) : SearchTurn m P S → SearchTurn n P S → Prop
  | collect (id : Nat) (resume : Collection P → S) : Related R (.collect id resume)
      (.collect id resume)
  | expand {next : m S} {next' : n S} (h : R.Rel next next') : Related R (.expand next)
      (.expand next')

/-- Two loops have related turns and look the same from outside. -/
structure SearchLoop.Related (R : EffectRelation m n) (loop : SearchLoop m P S)
    (loop' : SearchLoop n P S) : Prop where
  turn? : ∀ search, Option.Rel (SearchTurn.Related R) (loop.turn? search) (loop'.turn? search)
  collection : loop.collection = loop'.collection
  states : loop.states = loop'.states
  pruned : loop.pruned = loop'.pruned

variable {R : EffectRelation m n} {source : TreeSource m P} {source' : TreeSource n P}
  {keys : SearchKeys} {automaton : Automaton}

/-! ### Loops -/

section Loops

variable [Std.TransOrd P]

/-- Collecting is related on related sources. -/
theorem TreeSource.Related.collectFrom (h : source.Related R source') (limits : SearchLimits)
    (fuel : Nat) (stack : List Nat) (collection : Collection P) :
    R.Rel (Collection.collectFrom source limits fuel stack collection)
      (Collection.collectFrom source' limits fuel stack collection) := by
  induction fuel generalizing stack collection with
  | zero => exact R.pure _
  | succ fuel ih =>
    cases stack with
    | nil => exact R.pure _
    | cons id stack =>
      rw [Collection.collectFrom, Collection.collectFrom]
      split
      · exact R.pure _
      · split
        · exact ih _ _
        · exact R.bind (h.payloadsAt id) fun payloads =>
            R.bind (h.edgesFrom id) fun edges => ih _ _

theorem TreeSource.Related.collect (h : source.Related R source') (limits : SearchLimits)
    (id : Nat) (collection : Collection P) :
    R.Rel (collection.collect source limits id) (collection.collect source' limits id) := by
  rw [Collection.collect, Collection.collect, h.edgeCount]
  exact h.collectFrom limits _ _ _

variable {loop : SearchLoop m P S} {loop' : SearchLoop n P S}

omit [Std.TransOrd P] in
theorem SearchLoop.Related.outcome_eq (h : loop.Related R loop') :
    loop.outcome = loop'.outcome := by
  funext search timedOut
  rw [outcome, outcome, h.collection, h.states, h.pruned]

/-- Loops with related turns are related. -/
theorem SearchLoop.Related.run (h : loop.Related R loop') (hsource : source.Related R source')
    (limits : SearchLimits) (fuel : Nat) (search : S) :
    R.Rel (loop.run source limits fuel search) (loop'.run source' limits fuel search) := by
  induction fuel generalizing search with
  | zero =>
    rw [SearchLoop.run, SearchLoop.run, h.outcome_eq]
    exact R.pure _
  | succ fuel ih =>
    have hturn := h.turn? search
    rw [SearchLoop.run, SearchLoop.run, h.outcome_eq, h.collection, h.states]
    generalize loop.turn? search = turn at hturn ⊢
    generalize loop'.turn? search = turn' at hturn ⊢
    cases hturn with
    | none => exact R.pure _
    | some hturn =>
      dsimp only
      split
      · exact R.pure _
      · split
        · exact R.pure _
        · cases hturn with
          | collect id resume =>
            exact R.bind (hsource.collect limits id _) fun collection => ih _
          | expand hnext => exact R.bind hnext ih

end Loops

/-! ### Both searches -/

omit [Ord P] in
theorem TreeSource.Related.keyWays (h : source.Related R source') (keys : SearchKeys)
    (cursor : KeyCursor) :
    R.Rel (source.keyWays keys cursor) (source'.keyWays keys cursor) := by
  rw [TreeSource.keyWays, TreeSource.keyWays]
  split
  · exact R.bind (h.edgesFrom _) fun edges => R.pure _
  · exact R.pure _

omit [Ord P] in
theorem TreeSource.Related.moves (h : source.Related R source') (automaton : Automaton)
    (cursor : MatchCursor) :
    R.Rel (source.moves automaton cursor) (source'.moves automaton cursor) := by
  rw [TreeSource.moves, TreeSource.moves]
  split
  · exact R.bind (h.edgesFrom _) fun edges => R.pure _
  · exact R.pure _

theorem TreeSource.Related.keyLoop (h : source.Related R source') (keys : SearchKeys) :
    SearchLoop.Related R (source.keyLoop keys) (source'.keyLoop keys) := by
  refine ⟨fun search => ?_, rfl, rfl, rfl⟩
  cases hstack : search.stack with
  | nil =>
    simp only [TreeSource.keyLoop, hstack]
    exact .none
  | cons cursor stack =>
    simp only [TreeSource.keyLoop, hstack]
    refine .some ?_
    rw [keyTurn, keyTurn]
    split
    · exact .collect _ _
    · exact .expand (R.bind (h.keyWays keys cursor) fun ways => R.pure _)

theorem TreeSource.Related.matchLoop (h : source.Related R source') (automaton : Automaton) :
    SearchLoop.Related R (source.matchLoop automaton) (source'.matchLoop automaton) := by
  refine ⟨fun search => ?_, rfl, rfl, rfl⟩
  cases hnext : search.next? with
  | none =>
    simp only [TreeSource.matchLoop, hnext]
    exact .none
  | some next =>
    simp only [TreeSource.matchLoop, hnext, Option.map_some]
    refine .some ?_
    unfold matchTurn
    split
    · exact .collect _ _
    · exact .expand (R.bind (h.moves automaton _) fun moves => R.pure _)

omit [Ord P] in
theorem TreeSource.Related.descendFrom (h : source.Related R source') (keys : SearchKeys)
    (fuel id pos : Nat) (rest : List Char) :
    R.Rel (source.descendFrom keys fuel id pos rest)
      (source'.descendFrom keys fuel id pos rest) := by
  induction fuel generalizing id pos rest with
  | zero => exact R.pure _
  | succ fuel ih =>
    cases rest with
    | nil => exact R.pure _
    | cons c rest =>
      rw [TreeSource.descendFrom, TreeSource.descendFrom]
      refine R.bind (h.edgeStarting id c) fun edge => ?_
      cases edge with
      | none => exact R.pure _
      | some edge =>
        dsimp only
        split
        · exact R.pure _
        · cases remainderAfter edge.label (c :: rest) with
          | none => exact R.pure _
          | some left =>
            cases left with
            | nil => exact R.pure _
            | cons d left => exact ih _ _ _

omit [Ord P] in
theorem TreeSource.Related.descend (h : source.Related R source') (keys : SearchKeys) :
    R.Rel (source.descend keys) (source'.descend keys) := by
  rw [TreeSource.descend, TreeSource.descend, h.root]
  exact h.descendFrom keys _ _ _ _

variable [Std.TransOrd P]

theorem TreeSource.Related.searchAfter (h : source.Related R source') (keys : SearchKeys)
    (limits : SearchLimits) (descent : Descent) :
    R.Rel (source.searchAfter keys limits descent) (source'.searchAfter keys limits descent) := by
  cases descent with
  | missing => exact R.pure _
  | pruned => exact R.pure _
  | found edge offset =>
    rw [TreeSource.searchAfter, TreeSource.searchAfter, h.placeCount]
    exact (h.keyLoop keys).run h limits _ _

variable [LawfulMonad m] [LawfulMonad n]

/-- A search for keys is related on related sources. -/
theorem TreeSource.Related.findKeys (h : source.Related R source') (table : SymbolTable)
    (limits : SearchLimits) (keys : List (List Char)) :
    R.Rel (source.findKeys table limits keys) (source'.findKeys table limits keys) := by
  rw [findKeys_eq, findKeys_eq]
  split
  · exact R.pure _
  · split
    · exact R.pure _
    · exact R.bind (h.descend _) (h.searchAfter _ limits)

/-- A search with an automaton is related on related sources. -/
theorem TreeSource.Related.findMatching (h : source.Related R source') (automaton : Automaton)
    (limits : SearchLimits) :
    R.Rel (source.findMatching automaton limits) (source'.findMatching automaton limits) := by
  rw [findMatching_eq_run, findMatching_eq_run, h.root, h.placeCount]
  exact R.bind (h.edgesFrom _) fun edges => (h.matchLoop automaton).run h limits _ _

/-! ### Searches one after the other -/

/-- A search that is asked for. -/
inductive SearchCall where
  /-- A search for keys, with a table for their characters. -/
  | keys (table : SymbolTable) (limits : SearchLimits) (keys : List (List Char))
  /-- A search with an automaton. -/
  | matching (automaton : Automaton) (limits : SearchLimits)

/-- Make a search. -/
def SearchCall.run (source : TreeSource m P) : SearchCall → m (SearchOutcome P)
  | .keys table limits keys => source.findKeys table limits keys
  | .matching automaton limits => source.findMatching automaton limits

/-- Make some searches one after the other. -/
def runAll (source : TreeSource m P) : List SearchCall → m (List (SearchOutcome P))
  | [] => pure []
  | call :: calls => do
    let outcome ← call.run source
    let outcomes ← runAll source calls
    pure (outcome :: outcomes)

theorem TreeSource.Related.runAll (h : source.Related R source') (calls : List SearchCall) :
    R.Rel (SentenceSearch.runAll source calls) (SentenceSearch.runAll source' calls) := by
  induction calls with
  | nil => exact R.pure _
  | cons call calls ih =>
    have hcall : R.Rel (call.run source) (call.run source') := by
      cases call with
      | keys table limits keys => exact h.findKeys table limits keys
      | matching automaton limits => exact h.findMatching automaton limits
    exact R.bind hcall fun outcome => R.bind ih fun outcomes => R.pure _

end SentenceSearch
