import Mathlib.Data.List.Forall2
import SentenceSearch.Proofs.Search.KeyOrder
import SentenceSearch.Proofs.Search.Loop

/-!
# Sources that a search cannot tell apart

An edge may be kept as a part of a long text or as a text of its own. A search does not notice when
its label, its child and the masks along it are the same. On two sources with such edges in the same
order it takes the same turns, so that it finds the same and counts the same under any limits.

## Main definitions

* `EdgeRecord.Alike` — two edges that look the same
* `TreeSource.Alike` — two sources that look the same
* `SearchLoop.Simulates` — two loops that take the same turns from related states

## Main results

* `Simulates.run_eq` — two such loops have the same outcome
* `Alike.findKeys_eq`, `Alike.findMatching_eq` — two such sources give the same outcomes
-/

namespace SentenceSearch

/-! ### Edges -/

namespace EdgeRecord

variable {edge edge' : EdgeRecord} {offset : Nat}

/-- The label is a part of the text that is not empty. -/
structure Fits (edge : EdgeRecord) : Prop where
  start_lt : edge.start < edge.stop
  stop_le : edge.stop ≤ edge.text.size

namespace Fits

theorem length_pos (h : edge.Fits) : 0 < edge.length := Nat.sub_pos_of_lt h.start_lt

theorem length_label (h : edge.Fits) : edge.label.length = edge.length := by
  have hstop := h.stop_le
  unfold Sentence.size at hstop
  simp only [label, Sentence.slice, Array.length_toList, Array.size_extract, length]
  omega

theorem getElem?_label (h : edge.Fits) (hoffset : offset < edge.length) :
    edge.label[offset]? = some (edge.charAt offset) := by
  have hstop := h.stop_le
  unfold Sentence.size at hstop
  unfold length at hoffset
  have hlt : edge.start + offset < edge.text.chars.size := by omega
  simp only [label, Sentence.slice, charAt, Array.getElem?_toList, Array.getElem?_extract,
    Array.getD_eq_getD_getElem?, Array.getElem?_eq_getElem hlt]
  rw [if_pos (by omega)]
  rfl

end Fits

/-- Two edges that look the same to a search, wherever their labels are kept. -/
structure Alike (edge edge' : EdgeRecord) : Prop where
  child : edge.child = edge'.child
  label : edge.label = edge'.label
  fits : edge.Fits
  fits' : edge'.Fits
  partialMask : ∀ offset ≤ edge.length, edge.partialMask offset = edge'.partialMask offset

namespace Alike

theorem length_eq (h : edge.Alike edge') : edge.length = edge'.length := by
  rw [← h.fits.length_label, h.label, h.fits'.length_label]

theorem charAt_eq (h : edge.Alike edge') (hoffset : offset < edge.length) :
    edge.charAt offset = edge'.charAt offset := by
  apply Option.some.inj
  rw [← h.fits.getElem?_label hoffset, h.label, h.fits'.getElem?_label (h.length_eq ▸ hoffset)]

theorem firstChar_eq (h : edge.Alike edge') : edge.firstChar = edge'.firstChar :=
  h.charAt_eq h.fits.length_pos

theorem fullMask_eq (h : edge.Alike edge') : edge.fullMask = edge'.fullMask :=
  h.partialMask 0 (Nat.zero_le _)

end Alike

theorem firstStarting_rel {records records' : List EdgeRecord}
    (h : List.Forall₂ EdgeRecord.Alike records records') (c : Char) :
    Option.Rel EdgeRecord.Alike (firstStarting c records) (firstStarting c records') := by
  induction h with
  | nil => exact .none
  | @cons edge edge' _ _ hedge _ ih =>
    rw [firstStarting, firstStarting, List.find?_cons, List.find?_cons, ← hedge.firstChar_eq]
    split
    · exact .some hedge
    · exact ih

end EdgeRecord

/-! ### Sources -/

/-- Two sources that look the same to a search. -/
structure TreeSource.Alike {P : Type} (source source' : TreeSource Id P) : Prop where
  root : source.root = source'.root
  edgesFrom : ∀ v, List.Forall₂ EdgeRecord.Alike (source.edgesFrom v).run (source'.edgesFrom v).run
  edgeStarting : ∀ v c,
    Option.Rel EdgeRecord.Alike (source.edgeStarting v c).run (source'.edgeStarting v c).run
  payloadsAt : ∀ v p, p ∈ (source.payloadsAt v).run ↔ p ∈ (source'.payloadsAt v).run
  edgeCount : source.edgeCount = source'.edgeCount
  placeCount : source.placeCount = source'.placeCount

section Collecting

variable {P : Type} [Ord P] [Std.TransOrd P] [Std.LawfulEqOrd P] {source source' : TreeSource Id P}

/-- The order of the payloads at a node makes no difference. -/
theorem Collection.visit_congr {payloads payloads' : List P} (collection : Collection P) (id : Nat)
    (h : ∀ p, p ∈ payloads ↔ p ∈ payloads') :
    collection.visit id payloads = collection.visit id payloads' := by
  have hresults : (collection.visit id payloads).results =
      (collection.visit id payloads').results := by
    apply Std.ExtTreeSet.ext_mem
    intro p
    rw [mem_results_visit, mem_results_visit, h]
  exact congrArg (Collection.mk · _) hresults

omit [Std.TransOrd P] [Std.LawfulEqOrd P] in
theorem TreeSource.Alike.unvisited_eq (h : source.Alike source') (collection : Collection P)
    (id : Nat) :
    collection.unvisited (source.edgesFrom id).run =
      collection.unvisited (source'.edgesFrom id).run := by
  have hchildren : (source.edgesFrom id).run.map EdgeRecord.child =
      (source'.edgesFrom id).run.map EdgeRecord.child := by
    have hmap := List.rel_map (P := Eq) (fun _ _ halike => EdgeRecord.Alike.child halike)
      (h.edgesFrom id)
    exact List.forall₂_eq_eq_eq ▸ hmap
  rw [Collection.unvisited, Collection.unvisited, hchildren]

/-- A collection takes the same nodes in the same order. -/
theorem TreeSource.Alike.collectFrom_eq (h : source.Alike source') (limits : SearchLimits)
    (fuel : Nat) (stack : List Nat) (collection : Collection P) :
    (Collection.collectFrom source limits fuel stack collection).run =
      (Collection.collectFrom source' limits fuel stack collection).run := by
  induction fuel generalizing stack collection with
  | zero => rfl
  | succ fuel ih =>
    cases stack with
    | nil => rfl
    | cons id stack =>
      rw [Collection.collectFrom, Collection.collectFrom]
      split
      · rfl
      · split
        · exact ih stack collection
        · have hvisit := collection.visit_congr id (h.payloadsAt id)
          set visited := collection.visit id (source'.payloadsAt id).run
          have hunvisited := h.unvisited_eq visited id
          calc
            _ = (Collection.collectFrom source limits fuel
                  (visited.unvisited (source.edgesFrom id).run ++ stack) visited).run :=
                hvisit ▸ rfl
            _ = _ := by rw [hunvisited, ih]; rfl

theorem TreeSource.Alike.collect_eq (h : source.Alike source') (limits : SearchLimits) (id : Nat)
    (collection : Collection P) :
    (collection.collect source limits id).run = (collection.collect source' limits id).run := by
  rw [Collection.collect, Collection.collect, h.edgeCount]
  exact h.collectFrom_eq limits _ _ collection

end Collecting

/-! ### Loops -/

/-- Two turns that do the same and go on from related states. -/
inductive SearchTurn.Alike {P S : Type} [Ord P] (related : S → S → Prop) :
    SearchTurn Id P S → SearchTurn Id P S → Prop
  | collect (id : Nat) (resume resume' : Collection P → S)
      (h : ∀ collection, related (resume collection) (resume' collection)) :
      Alike related (.collect id resume) (.collect id resume')
  | expand (next next' : Id S) (h : related next.run next'.run) :
      Alike related (.expand next) (.expand next')

namespace SearchLoop

variable {P S : Type} [Ord P] {loop loop' : SearchLoop Id P S} {related : S → S → Prop}

/-- From related states the loops take the same turns, and nothing that can be read off related
states tells them apart. -/
structure Simulates (loop loop' : SearchLoop Id P S) (related : S → S → Prop) : Prop where
  turn? : ∀ {search search'}, related search search' →
    Option.Rel (SearchTurn.Alike related) (loop.turn? search) (loop'.turn? search')
  collection : ∀ {search search'}, related search search' →
    loop.collection search = loop'.collection search'
  states : ∀ {search search'}, related search search' → loop.states search = loop'.states search'
  pruned : ∀ {search search'}, related search search' → loop.pruned search = loop'.pruned search'

variable [Std.TransOrd P]

omit [Std.TransOrd P] in
theorem Simulates.outcome_eq (h : loop.Simulates loop' related) {search search' : S}
    (hrelated : related search search') (timedOut : Bool) :
    loop.outcome search timedOut = loop'.outcome search' timedOut := by
  rw [outcome, outcome, h.collection hrelated, h.states hrelated, h.pruned hrelated]

/-- Two loops that take the same turns have the same outcome under any limits. -/
theorem Simulates.run_eq [Std.LawfulEqOrd P] {source source' : TreeSource Id P}
    (h : loop.Simulates loop' related) (hsource : source.Alike source') (limits : SearchLimits)
    (fuel : Nat) {search search' : S} (hrelated : related search search') :
    (loop.run source limits fuel search).run = (loop'.run source' limits fuel search').run := by
  induction fuel generalizing search search' with
  | zero => exact h.outcome_eq hrelated false
  | succ fuel ih =>
    have hturns := h.turn? hrelated
    generalize hturn : loop.turn? search = turn at hturns
    generalize hturn' : loop'.turn? search' = turn' at hturns
    cases hturns with
    | none =>
      rw [run_of_none hturn, run_of_none hturn']
      exact h.outcome_eq hrelated false
    | some halike =>
      cases hfull : (loop.collection search).isFull limits with
      | true =>
        rw [run_of_isFull hfull, run_of_isFull (h.collection hrelated ▸ hfull)]
        exact h.outcome_eq hrelated false
      | false =>
        have hfull' := h.collection hrelated ▸ hfull
        cases htime : limits.expiredAt (loop.states search + 1) with
        | true =>
          rw [run_of_expired hturn hfull htime,
            run_of_expired hturn' hfull' (h.states hrelated ▸ htime)]
          exact h.outcome_eq hrelated true
        | false =>
          have htime' := h.states hrelated ▸ htime
          cases halike with
          | expand next next' hnext =>
            rw [run_of_expand hturn hfull htime, run_of_expand hturn' hfull' htime']
            exact ih hnext
          | collect id resume resume' hresume =>
            rw [run_of_collect hturn hfull htime, run_of_collect hturn' hfull' htime']
            rw [← h.collection hrelated]
            have hcollect := congrArg (fun collection =>
              (loop'.run source' limits fuel (resume' collection)).run)
              (hsource.collect_eq limits id (loop.collection search))
            exact (ih (hresume _)).trans hcollect

end SearchLoop

/-! ### The search with an automaton -/

section Matching

variable {P : Type} [Ord P] {source source' : TreeSource Id P} {automaton : Automaton}

/-- Two cursors in the same state, at the same place on edges that look the same. -/
structure MatchCursor.Alike (cursor cursor' : MatchCursor) : Prop where
  state : cursor.state = cursor'.state
  edge : cursor.edge.Alike cursor'.edge
  offset : cursor.offset = cursor'.offset
  offset_le : cursor.offset ≤ cursor.edge.length

/-- Two moves to cursors that look the same, both of them allowed or none. -/
structure MatchMove.Alike (move move' : MatchMove) : Prop where
  cursor : move.cursor.Alike move'.cursor
  allowed : move.allowed = move'.allowed

/-- Two searches with cursors that look the same, in the same order. -/
structure MatchSearch.Alike (search search' : MatchSearch P) : Prop where
  front : List.Forall₂ MatchCursor.Alike search.front search'.front
  back : List.Forall₂ MatchCursor.Alike search.back search'.back
  seen : search.seen = search'.seen
  collection : search.collection = search'.collection
  states : search.states = search'.states
  pruned : search.pruned = search'.pruned

namespace MatchCursor.Alike

variable {cursor cursor' : MatchCursor}

theorem spot_eq (h : cursor.Alike cursor') : cursor.spot = cursor'.spot := by
  rw [spot, spot, h.state, h.edge.child, h.offset]

theorem take (h : cursor.Alike cursor') {offset : Nat} (hoffset : offset ≤ cursor.edge.length)
    (t : Transition) : (cursor.take offset t).Alike (cursor'.take offset t) := by
  refine ⟨⟨rfl, h.edge, rfl, hoffset⟩, ?_⟩
  have hmask := h.edge.partialMask cursor.offset h.offset_le
  exact congrArg t.allowed (h.offset ▸ hmask)

/-- The moves along the same transitions. -/
theorem map_take (h : cursor.Alike cursor') {offset : Nat} (hoffset : offset ≤ cursor.edge.length)
    (transitions : List Transition) :
    List.Forall₂ MatchMove.Alike (transitions.map (cursor.take offset))
      (transitions.map (cursor'.take offset)) := by
  rw [List.forall₂_map_left_iff, List.forall₂_map_right_iff, List.forall₂_same]
  exact fun t _ => h.take hoffset t

end MatchCursor.Alike

omit [Ord P] in
/-- From cursors that look the same the search goes on in the same ways. -/
theorem TreeSource.Alike.moves (h : source.Alike source') {cursor cursor' : MatchCursor}
    (hcursor : cursor.Alike cursor') :
    List.Forall₂ MatchMove.Alike (source.moves automaton cursor).run
      (source'.moves automaton cursor').run := by
  obtain ⟨state, edge, offset⟩ := cursor
  obtain ⟨_, edge', _⟩ := cursor'
  obtain ⟨rfl, hedge, rfl, hoffset⟩ := id hcursor
  have hempty := hcursor.map_take hoffset (automaton.epsilons state)
  unfold TreeSource.moves
  by_cases hend : offset = edge.length
  · have hend' : offset = edge'.length := hedge.length_eq ▸ hend
    simp only [if_pos hend, if_pos hend']
    rw [← hedge.child]
    have hbelow : List.Forall₂ MatchMove.Alike
        (MatchCursor.movesBelow ⟨state, edge, offset⟩ (source.edgesFrom edge.child).run)
        (MatchCursor.movesBelow ⟨state, edge', offset⟩ (source'.edgesFrom edge.child).run) := by
      refine List.rel_map ?_ (h.edgesFrom edge.child)
      exact fun _ _ hbelow => ⟨⟨rfl, hbelow, rfl, Nat.zero_le _⟩, rfl⟩
    exact List.rel_append hempty hbelow
  · have hend' : offset ≠ edge'.length := hedge.length_eq ▸ hend
    simp only [if_neg hend, if_neg hend']
    have hinside : offset < edge.length := Nat.lt_of_le_of_ne hoffset hend
    have hconsuming := hcursor.map_take hinside (automaton.step state (edge.charAt offset))
    refine List.rel_append hempty ?_
    rw [MatchCursor.consumingMoves, MatchCursor.consumingMoves, ← hedge.charAt_eq hinside]
    exact hconsuming

namespace MatchSearch.Alike

variable {search search' : MatchSearch P}

theorem push (h : search.Alike search') {move move' : MatchMove} (hmove : move.Alike move') :
    (search.push move).Alike (search'.push move') := by
  have hspot := hmove.cursor.spot_eq
  unfold MatchSearch.push
  rw [← hmove.allowed, ← h.seen, ← hspot]
  split
  · exact { h with seen := rfl, pruned := congrArg (· + 1) h.pruned }
  · split
    · exact h
    · exact { h with back := .cons hmove.cursor h.back, seen := rfl }

theorem pushAll (h : search.Alike search') {moves moves' : List MatchMove}
    (hmoves : List.Forall₂ MatchMove.Alike moves moves') :
    (moves.foldl MatchSearch.push search).Alike (moves'.foldl MatchSearch.push search') :=
  List.rel_foldl (fun _ _ hsearch _ _ hmove => hsearch.push hmove) h hmoves

theorem next? (h : search.Alike search') :
    Option.Rel (fun next next' => next.1.Alike next'.1 ∧ next.2.Alike next'.2)
      search.next? search'.next? := by
  obtain ⟨front, back, seen, collection, states, pruned⟩ := search
  obtain ⟨front', back', _, _, _, _⟩ := search'
  obtain ⟨hfront, hback, rfl, rfl, rfl, rfl⟩ := h
  unfold MatchSearch.next?
  cases hfront with
  | cons hcursor hfront => exact .some ⟨hcursor, hfront, hback, rfl, rfl, rfl, rfl⟩
  | nil =>
    have hreverse := List.rel_reverse hback
    dsimp only at hback hreverse ⊢
    generalize back.reverse = next at hreverse ⊢
    generalize back'.reverse = next' at hreverse ⊢
    cases hreverse with
    | nil => exact .none
    | cons hcursor hnext => exact .some ⟨hcursor, hnext, .nil, rfl, rfl, rfl, rfl⟩

theorem initial {edges edges' : List EdgeRecord}
    (hedges : List.Forall₂ EdgeRecord.Alike edges edges') :
    (MatchSearch.initial automaton edges : MatchSearch P).Alike
      (.initial automaton edges') := by
  have hmoves : List.Forall₂ MatchMove.Alike
      (edges.map fun edge => ⟨⟨automaton.start, edge, 0⟩, true⟩)
      (edges'.map fun edge => ⟨⟨automaton.start, edge, 0⟩, true⟩) :=
    List.rel_map (fun _ _ hedge => ⟨⟨rfl, hedge, rfl, Nat.zero_le _⟩, rfl⟩) hedges
  exact pushAll ⟨.nil, .nil, rfl, rfl, rfl, rfl⟩ hmoves

end MatchSearch.Alike

/-- At cursors that look the same the search with an automaton takes the same turn. -/
theorem TreeSource.Alike.matchTurn (h : source.Alike source') {cursor cursor' : MatchCursor}
    (hcursor : cursor.Alike cursor') {search search' : MatchSearch P}
    (hsearch : search.Alike search') :
    SearchTurn.Alike MatchSearch.Alike (source.matchTurn automaton cursor search)
      (source'.matchTurn automaton cursor' search') := by
  unfold TreeSource.matchTurn
  rw [← hcursor.state, ← hcursor.edge.child]
  split
  · exact .collect _ _ _ fun collection => { hsearch with collection := rfl }
  · exact .expand _ _ (hsearch.pushAll (h.moves hcursor))

/-- On sources that look the same the search with an automaton takes the same turns. -/
theorem TreeSource.Alike.simulates_matchLoop (h : source.Alike source') (automaton : Automaton) :
    (source.matchLoop automaton).Simulates (source'.matchLoop automaton) MatchSearch.Alike where
  collection hsearch := hsearch.collection
  states hsearch := hsearch.states
  pruned hsearch := hsearch.pruned
  turn? := by
    intro search search' hsearch
    have hnexts := hsearch.next?
    unfold matchLoop
    dsimp only
    generalize search.next? = next at hnexts ⊢
    generalize search'.next? = next' at hnexts ⊢
    cases hnexts with
    | none => exact .none
    | some hnext =>
      obtain ⟨hcursor, hrest⟩ := hnext
      exact .some (h.matchTurn hcursor { hrest with states := congrArg (· + 1) hrest.states })

/-- On sources that look the same the search with an automaton has the same outcome. -/
theorem TreeSource.Alike.findMatching_eq [Std.TransOrd P] [Std.LawfulEqOrd P]
    (h : source.Alike source') (automaton : Automaton) (limits : SearchLimits) :
    (source.findMatching automaton limits).run = (source'.findMatching automaton limits).run := by
  rw [findMatching_eq_run, findMatching_eq_run, h.root, h.placeCount]
  exact (h.simulates_matchLoop automaton).run_eq h limits _
    (MatchSearch.Alike.initial (h.edgesFrom source'.root))

end Matching

/-! ### The search for keys -/

section Keys

variable {P : Type} [Ord P] {source source' : TreeSource Id P} {keys : SearchKeys}

/-- Two cursors with the same progress, at the same place on edges that look the same. -/
structure KeyCursor.Alike (cursor cursor' : KeyCursor) : Prop where
  edge : cursor.edge.Alike cursor'.edge
  offset : cursor.offset = cursor'.offset
  offset_le : cursor.offset ≤ cursor.edge.length
  key : cursor.key = cursor'.key
  pos : cursor.pos = cursor'.pos

/-- Two searches with cursors that look the same, in the same order. -/
structure KeySearch.Alike (search search' : KeySearch P) : Prop where
  stack : List.Forall₂ KeyCursor.Alike search.stack search'.stack
  seen : search.seen = search'.seen
  collection : search.collection = search'.collection
  states : search.states = search'.states
  pruned : search.pruned = search'.pruned

namespace KeyCursor.Alike

variable {cursor cursor' : KeyCursor}

theorem spot_eq (h : cursor.Alike cursor') : cursor.spot = cursor'.spot := by
  rw [spot, spot, h.edge.child, h.offset, h.key, h.pos]

theorem isFeasible_eq (h : cursor.Alike cursor') (keys : SearchKeys) :
    cursor.isFeasible keys = cursor'.isFeasible keys := by
  rw [isFeasible, isFeasible, h.edge.partialMask _ h.offset_le, h.offset, h.key, h.pos]

theorem movesInside (h : cursor.Alike cursor') (hinside : cursor.offset < cursor.edge.length) :
    List.Forall₂ KeyCursor.Alike (cursor.movesInside keys) (cursor'.movesInside keys) := by
  obtain ⟨edge, offset, key, pos⟩ := cursor
  obtain ⟨edge', _, _, _⟩ := cursor'
  obtain ⟨hedge, rfl, -, rfl, rfl⟩ := h
  have hadvance : (KeyCursor.advance ⟨edge, offset, key, pos⟩ keys).Alike
      (KeyCursor.advance ⟨edge', offset, key, pos⟩ keys) := by
    unfold KeyCursor.advance
    split
    · exact ⟨hedge, rfl, hinside, rfl, rfl⟩
    · exact ⟨hedge, rfl, hinside, rfl, rfl⟩
  have hskip : (KeyCursor.skip ⟨edge, offset, key, pos⟩).Alike
      (KeyCursor.skip ⟨edge', offset, key, pos⟩) := ⟨hedge, rfl, hinside, rfl, rfl⟩
  unfold KeyCursor.movesInside
  dsimp only
  rw [← hedge.charAt_eq hinside]
  refine List.rel_append ?_ ?_
  · split
    · exact .cons hadvance .nil
    · exact .nil
  · split
    · exact .cons hskip .nil
    · exact .nil

theorem movesBelow (h : cursor.Alike cursor') {edges edges' : List EdgeRecord}
    (hedges : List.Forall₂ EdgeRecord.Alike edges edges') :
    List.Forall₂ KeyCursor.Alike (cursor.movesBelow keys edges)
      (cursor'.movesBelow keys edges') := by
  unfold KeyCursor.movesBelow
  rw [← h.key, ← h.pos]
  refine List.rel_map ?_ (List.rel_filter ?_ hedges)
  · exact fun _ _ hedge => ⟨hedge, rfl, Nat.zero_le _, h.key, h.pos⟩
  · intro edge edge' hedge
    simp only [hedge.firstChar_eq]

end KeyCursor.Alike

omit [Ord P] in
/-- From cursors that look the same the search goes on in the same ways. -/
theorem TreeSource.Alike.keyWays (h : source.Alike source') {cursor cursor' : KeyCursor}
    (hcursor : cursor.Alike cursor') :
    List.Forall₂ KeyCursor.Alike (source.keyWays keys cursor).run
      (source'.keyWays keys cursor').run := by
  have hlength := hcursor.edge.length_eq
  unfold TreeSource.keyWays
  by_cases hend : cursor.offset = cursor.edge.length
  · have hend' : cursor'.offset = cursor'.edge.length := by rw [← hcursor.offset, hend, hlength]
    rw [if_pos hend, if_pos hend', ← hcursor.edge.child]
    exact hcursor.movesBelow (h.edgesFrom cursor.edge.child)
  · have hend' : cursor'.offset ≠ cursor'.edge.length := by rwa [← hcursor.offset, ← hlength]
    rw [if_neg hend, if_neg hend']
    exact hcursor.movesInside (Nat.lt_of_le_of_ne hcursor.offset_le hend)

namespace KeySearch.Alike

variable {search search' : KeySearch P}

theorem push (h : search.Alike search') {cursor cursor' : KeyCursor}
    (hcursor : cursor.Alike cursor') :
    (search.push keys cursor).Alike (search'.push keys cursor') := by
  have hspot := hcursor.spot_eq
  unfold KeySearch.push
  rw [← hcursor.isFeasible_eq, ← h.seen, ← hspot]
  split
  · exact { h with seen := rfl, pruned := congrArg (· + 1) h.pruned }
  · split
    · exact h
    · exact { h with stack := .cons hcursor h.stack, seen := rfl }

theorem pushAll (h : search.Alike search') {moves moves' : List KeyCursor}
    (hmoves : List.Forall₂ KeyCursor.Alike moves moves') :
    (moves.foldl (·.push keys ·) search).Alike (moves'.foldl (·.push keys ·) search') :=
  List.rel_foldl (fun _ _ hsearch _ _ hcursor => hsearch.push hcursor) h hmoves

end KeySearch.Alike

/-- At cursors that look the same the search for keys takes the same turn. -/
theorem TreeSource.Alike.keyTurn (h : source.Alike source') {cursor cursor' : KeyCursor}
    (hcursor : cursor.Alike cursor') {search search' : KeySearch P}
    (hsearch : search.Alike search') :
    SearchTurn.Alike KeySearch.Alike (source.keyTurn keys cursor search)
      (source'.keyTurn keys cursor' search') := by
  unfold TreeSource.keyTurn
  rw [← hcursor.key, ← hcursor.edge.child]
  split
  · exact .collect _ _ _ fun collection => { hsearch with collection := rfl }
  · exact .expand _ _ (hsearch.pushAll (h.keyWays hcursor))

/-- On sources that look the same the search for keys takes the same turns. -/
theorem TreeSource.Alike.simulates_keyLoop (h : source.Alike source') (keys : SearchKeys) :
    (source.keyLoop keys).Simulates (source'.keyLoop keys) KeySearch.Alike where
  collection hsearch := hsearch.collection
  states hsearch := hsearch.states
  pruned hsearch := hsearch.pruned
  turn? := by
    intro search search' hsearch
    obtain ⟨stack, seen, collection, states, pruned⟩ := search
    obtain ⟨stack', _, _, _, _⟩ := search'
    obtain ⟨hstack, rfl, rfl, rfl, rfl⟩ := hsearch
    cases hstack with
    | nil => exact .none
    | cons hcursor hstack => exact .some (h.keyTurn hcursor ⟨hstack, rfl, rfl, rfl, rfl⟩)

/-! ### The first key -/

/-- The first key ends at the same place of edges that look the same, or it fails alike. -/
inductive Descent.Alike : Descent → Descent → Prop
  | missing : Alike .missing .missing
  | pruned : Alike .pruned .pruned
  | found {edge edge' : EdgeRecord} {offset : Nat} (h : edge.Alike edge')
      (hoffset : offset ≤ edge.length) : Alike (.found edge offset) (.found edge' offset)

omit [Ord P] in
theorem TreeSource.Alike.descendFrom (h : source.Alike source') (fuel id pos : Nat)
    (rest : List Char) :
    Descent.Alike (source.descendFrom keys fuel id pos rest).run
      (source'.descendFrom keys fuel id pos rest).run := by
  induction fuel generalizing id pos rest with
  | zero => exact .missing
  | succ fuel ih =>
    cases rest with
    | nil => exact .missing
    | cons c rest =>
      have hstarting : Option.Rel EdgeRecord.Alike (source.edgeStarting id c)
        (source'.edgeStarting id c) := h.edgeStarting id c
      rw [TreeSource.descendFrom, TreeSource.descendFrom]
      generalize source.edgeStarting id c = found at hstarting ⊢
      generalize source'.edgeStarting id c = found' at hstarting ⊢
      cases hstarting with
      | none => exact .missing
      | @some edge edge' hedge =>
        change Descent.Alike (Id.run (if _ then _ else _)) (Id.run (if _ then _ else _))
        rw [← hedge.fullMask_eq, ← hedge.label, ← hedge.child]
        split
        · exact .pruned
        · cases hremainder : remainderAfter edge.label (c :: rest) with
          | none => exact .missing
          | some left =>
            cases left with
            | nil =>
              have hfront := (prefix_of_remainderAfter hremainder).length_le
              exact .found hedge (hedge.fits.length_label ▸ hfront)
            | cons d left => exact ih _ _ _

omit [Ord P] in
/-- On sources that look the same the first key ends at places that look the same. -/
theorem TreeSource.Alike.descend (h : source.Alike source') (keys : SearchKeys) :
    Descent.Alike (source.descend keys).run (source'.descend keys).run := by
  unfold TreeSource.descend
  rw [h.root]
  exact h.descendFrom _ _ _ _

variable [Std.TransOrd P] [Std.LawfulEqOrd P]

theorem TreeSource.Alike.searchAfter_eq (h : source.Alike source') (limits : SearchLimits)
    {descent descent' : Descent} (hdescent : descent.Alike descent') :
    (source.searchAfter keys limits descent).run =
      (source'.searchAfter keys limits descent').run := by
  cases hdescent with
  | missing => rfl
  | pruned => rfl
  | found hedge hoffset =>
    unfold TreeSource.searchAfter
    rw [h.placeCount]
    apply (h.simulates_keyLoop keys).run_eq h
    exact ⟨.cons ⟨hedge, rfl, hoffset, rfl, rfl⟩ .nil, rfl, rfl, rfl, rfl⟩

/-- On sources that look the same the search for keys has the same outcome. -/
theorem TreeSource.Alike.findKeys_eq (h : source.Alike source') (table : SymbolTable)
    (limits : SearchLimits) (keys : List (List Char)) :
    (source.findKeys table limits keys).run = (source'.findKeys table limits keys).run := by
  rcases findKeys_cases (m := Id) (P := P) table keys with hnothing | ⟨found, hfind⟩
  · rw [hnothing, hnothing]
  · rw [hfind, hfind]
    exact h.searchAfter_eq limits (h.descend found)

end Keys

end SentenceSearch
