import SentenceSearch.Proofs.Search.Exploration
import SentenceSearch.Search.Matching

/-!
# What a search with an automaton finds

Without limits the search finds the payloads at and below the edges of those cursors in the
accepting state that its moves lead to.

## Main definitions

* `TreeSource.matchTour` — the cursors of a search with an automaton and its moves
* `MatchStep` — a way on from a cursor
* `MatchSearch.agenda` — the cursors in the queue and the spots that have been there

## Main results

* `mem_matchMoves_iff` — the moves are the steps that the masks allow
* `mem_findMatching_iff` — what the search finds
-/

namespace SentenceSearch

variable {P : Type} {source : TreeSource Id P} {automaton : Automaton}

/-- A search with an automaton: it starts on the edges below the root, and it collects where the
automaton accepts. -/
def TreeSource.matchTour (source : TreeSource Id P) (automaton : Automaton) :
    Tour MatchCursor MatchSpot where
  spot := MatchCursor.spot
  starts cursor := cursor ∈ (source.edgesFrom source.root).run.map fun edge =>
    (⟨automaton.start, edge, 0⟩ : MatchCursor)
  moves cursor := if cursor.state = automaton.accept then [] else
    ((source.moves automaton cursor).run.filter MatchMove.allowed).map MatchMove.cursor
  final cursor := cursor.state = automaton.accept
  target cursor := cursor.edge.child

/-- The ways on from a cursor that the masks allow. -/
inductive MatchStep (source : TreeSource Id P) (automaton : Automaton) (cursor : MatchCursor) :
    MatchCursor → Prop
  /-- Along an empty transition. -/
  | empty (t : Transition) (ht : t ∈ automaton.epsilons cursor.state)
      (allowed : t.allowed (cursor.edge.partialMask cursor.offset) = true) :
      MatchStep source automaton cursor ⟨t.target, cursor.edge, cursor.offset⟩
  /-- Over the next character on the edge. -/
  | read (t : Transition) (hinside : cursor.offset ≠ cursor.edge.length)
      (ht : t ∈ automaton.step cursor.state (cursor.edge.charAt cursor.offset))
      (allowed : t.allowed (cursor.edge.partialMask cursor.offset) = true) :
      MatchStep source automaton cursor ⟨t.target, cursor.edge, cursor.offset + 1⟩
  /-- From the end of the edge to the start of one below. -/
  | enter (edge : EdgeRecord) (hend : cursor.offset = cursor.edge.length)
      (hedge : edge ∈ (source.edgesFrom cursor.edge.child).run) :
      MatchStep source automaton cursor ⟨cursor.state, edge, 0⟩

theorem mem_allowedCursors {moves : List MatchMove} {next : MatchCursor} :
    next ∈ (moves.filter MatchMove.allowed).map MatchMove.cursor ↔
      ∃ move ∈ moves, move.allowed = true ∧ move.cursor = next := by
  simp [and_assoc]

/-- The moves of a cursor that is not in the accepting state. -/
theorem mem_matchMoves_iff (source : TreeSource Id P) {cursor next : MatchCursor}
    (hstate : cursor.state ≠ automaton.accept) :
    next ∈ (source.matchTour automaton).moves cursor ↔ MatchStep source automaton cursor next := by
  have hmoves : (source.matchTour automaton).moves cursor =
      ((source.moves automaton cursor).run.filter MatchMove.allowed).map MatchMove.cursor :=
    if_neg hstate
  have hrun : (source.moves automaton cursor).run = cursor.emptyMoves automaton ++
      if cursor.offset = cursor.edge.length then
        cursor.movesBelow (source.edgesFrom cursor.edge.child).run
      else cursor.consumingMoves automaton := by
    unfold TreeSource.moves
    split <;> rfl
  rw [hmoves, hrun, mem_allowedCursors]
  constructor
  · rintro ⟨move, hmove, hallowed, rfl⟩
    rcases List.mem_append.mp hmove with hmove | hmove
    · obtain ⟨t, ht, rfl⟩ := List.mem_map.mp hmove
      exact .empty t ht hallowed
    · split at hmove
      · rename_i hend
        obtain ⟨edge, hedge, rfl⟩ := List.mem_map.mp hmove
        exact .enter edge hend hedge
      · rename_i hinside
        obtain ⟨t, ht, rfl⟩ := List.mem_map.mp hmove
        exact .read t hinside ht hallowed
  · intro hstep
    cases hstep with
    | empty t ht allowed =>
      exact ⟨_, List.mem_append_left _ (List.mem_map.mpr ⟨t, ht, rfl⟩), allowed, rfl⟩
    | read t hinside ht allowed =>
      rw [if_neg hinside]
      exact ⟨_, List.mem_append_right _ (List.mem_map.mpr ⟨t, ht, rfl⟩), allowed, rfl⟩
    | enter edge hend hedge =>
      rw [if_pos hend]
      exact ⟨_, List.mem_append_right _ (List.mem_map.mpr ⟨edge, hedge, rfl⟩), rfl, rfl⟩

theorem matchStep_of_mem_moves {cursor next : MatchCursor}
    (h : next ∈ (source.matchTour automaton).moves cursor) :
    MatchStep source automaton cursor next := by
  by_cases hstate : cursor.state = automaton.accept
  · have hmoves : (source.matchTour automaton).moves cursor = [] := if_pos hstate
    rw [hmoves] at h
    cases h
  · exact (mem_matchMoves_iff source hstate).mp h

namespace MatchSearch

variable [Ord P] {search rest : MatchSearch P} {cursor : MatchCursor}

/-- The cursors in the queue and the spots that have been there. -/
def agenda (search : MatchSearch P) : Agenda MatchCursor MatchSpot where
  pending := ↑(search.front ++ search.back)
  seen := spotsOf search.seen

theorem agenda_push (search : MatchSearch P) (move : MatchMove) :
    (search.push move).agenda = (if move.allowed then
        search.agenda.push MatchCursor.spot move.cursor else search.agenda) ∧
      (search.push move).collection = search.collection := by
  unfold push
  cases move.allowed with
  | false => exact ⟨rfl, rfl⟩
  | true =>
    rcases Agenda.push_cases MatchCursor.spot search.agenda move.cursor with ⟨hseen, hpush⟩ |
      ⟨hnew, hpush⟩
    · have hcontains := mem_spotsOf.mp hseen
      simp [hpush, hcontains]
    · have hcontains := Bool.eq_false_iff.mpr (mem_spotsOf.not.mp hnew)
      simp only [Bool.not_true, Bool.false_eq_true, if_false, hcontains, if_true, hpush, and_true]
      unfold agenda
      congr 1
      · exact Multiset.coe_eq_coe.mpr List.perm_middle
      · exact spotsOf_insert

/-- Moves are put on the agenda, unless a mask rules them out. -/
theorem agenda_pushAll (search : MatchSearch P) (moves : List MatchMove) :
    (moves.foldl push search).agenda = search.agenda.pushAll MatchCursor.spot
        ((moves.filter MatchMove.allowed).map MatchMove.cursor) ∧
      (moves.foldl push search).collection = search.collection := by
  induction moves generalizing search with
  | nil => exact ⟨rfl, rfl⟩
  | cons move moves ih =>
    obtain ⟨hagenda, hcollection⟩ := search.agenda_push move
    obtain ⟨hrest, hrest'⟩ := ih (search.push move)
    rw [List.foldl_cons, hrest, hrest', hcollection, hagenda, List.filter_cons]
    refine ⟨?_, rfl⟩
    split
    · rfl
    · rfl

theorem pending_of_next?_none (h : search.next? = none) : search.agenda.pending = 0 := by
  unfold next? at h
  split at h
  · cases h
  · rename_i hfront
    split at h
    · cases h
    · rename_i hback
      rw [agenda, hfront, List.reverse_eq_nil_iff.mp hback]
      rfl

/-- The next cursor is taken off the agenda. -/
theorem agenda_next? (h : search.next? = some (cursor, rest)) :
    search.agenda = ⟨cursor ::ₘ rest.agenda.pending, rest.agenda.seen⟩ ∧
      rest.collection = search.collection := by
  unfold next? at h
  split at h
  · rename_i c front hfront
    obtain ⟨rfl, rfl⟩ := Prod.mk.inj (Option.some.inj h)
    simp [agenda, hfront]
  · rename_i hfront
    split at h
    · rename_i c front hback
      obtain ⟨rfl, rfl⟩ := Prod.mk.inj (Option.some.inj h)
      -- A new generation is the old one turned around.
      have hperm : search.back.Perm (c :: front) := hback ▸ (List.reverse_perm _).symm
      refine ⟨?_, rfl⟩
      unfold agenda
      rw [hfront, List.nil_append, Multiset.coe_eq_coe.mpr hperm]
      simp
    · cases h

end MatchSearch

namespace TreeSource

variable [Ord P] [Std.TransOrd P] [Std.LawfulEqOrd P] {limits : SearchLimits}
  {nodes : Finset Nat} {spots : Finset MatchSpot} {search : MatchSearch P} {fuel : Nat}
  {done : MatchCursor → Prop} {p : P}

/-- A search that is under way finds what is below the final cursors. -/
theorem mem_searchMatching_iff_of_underway (hbounded : source.Bounded nodes)
    (htold : (source.matchTour automaton).Told spots) (hmax : limits.maxResults = 0)
    (hdeadline : limits.deadline = none)
    (h : (source.matchTour automaton).Underway source spots fuel search.agenda search.collection
      done) :
    p ∈ (source.searchMatching automaton limits fuel search).run.results ↔
      ∃ c v, (source.matchTour automaton).Reached c ∧ c.state = automaton.accept ∧
        source.Below c.edge.child v ∧ p ∈ (source.payloadsAt v).run := by
  induction fuel generalizing search done with
  | zero =>
    rw [searchMatching]
    exact h.mem_results_iff (h.pending_eq_zero htold) htold
  | succ fuel ih =>
    rw [searchMatching]
    cases hnext : search.next? with
    | none => exact h.mem_results_iff (MatchSearch.pending_of_next?_none hnext) htold
    | some next =>
      obtain ⟨cursor, rest⟩ := next
      obtain ⟨hagenda, hcollection⟩ := MatchSearch.agenda_next? hnext
      rw [hagenda, ← hcollection] at h
      simp only [Collection.isFull_of_maxResults hmax, SearchLimits.expiredAt, hdeadline,
        Bool.false_eq_true, if_false]
      by_cases hfinal : cursor.state = automaton.accept
      · rw [if_pos hfinal]
        exact ih (h.take hbounded hmax hfinal (if_pos hfinal))
      · rw [if_neg hfinal]
        have hmoves : (source.matchTour automaton).moves cursor =
            ((source.moves automaton cursor).run.filter MatchMove.allowed).map MatchMove.cursor :=
          if_neg hfinal
        set taken : MatchSearch P := { rest with states := rest.states + 1 }
        obtain ⟨hagenda', hcollection'⟩ :=
          taken.agenda_pushAll (source.moves automaton cursor).run
        have hnext : (source.matchTour automaton).Underway source spots fuel
            ((source.moves automaton cursor).run.foldl MatchSearch.push taken).agenda
            ((source.moves automaton cursor).run.foldl MatchSearch.push taken).collection
            fun d => done d ∨ d = cursor := by
          rw [hagenda', hcollection', ← hmoves]
          exact h.expand hfinal
        exact ih hnext

/-- Without limits a search finds the payloads at and below the edges of the accepting cursors that
its moves lead to. -/
theorem mem_findMatching_iff (hbounded : source.Bounded nodes)
    (htold : (source.matchTour automaton).Told spots) (hmax : limits.maxResults = 0)
    (hdeadline : limits.deadline = none)
    (hspots : spots.card ≤ automaton.stateCount * source.placeCount + 1) :
    p ∈ (source.findMatching automaton limits).run.results ↔
      ∃ c v, (source.matchTour automaton).Reached c ∧ c.state = automaton.accept ∧
        source.Below c.edge.child v ∧ p ∈ (source.payloadsAt v).run := by
  set starts := (source.edgesFrom source.root).run.map fun edge =>
    (⟨automaton.start, edge, 0⟩ : MatchCursor) with hstarts
  set blank : MatchSearch P := ⟨[], [], ∅, .empty, 0, 0⟩ with hblank
  obtain ⟨hagenda, hcollection⟩ := blank.agenda_pushAll
    (starts.map fun cursor => ⟨cursor, true⟩)
  have hallowed : ((starts.map fun cursor => (⟨cursor, true⟩ : MatchMove)).filter
      MatchMove.allowed).map MatchMove.cursor = starts := by
    rw [List.filter_eq_self.mpr, List.map_map]
    · exact List.map_id _
    · intro move hmove
      obtain ⟨cursor, -, rfl⟩ := List.mem_map.mp hmove
      rfl
  have hempty : blank.agenda = ⟨0, ∅⟩ := by
    rw [MatchSearch.agenda, hblank, spotsOf_empty]
    rfl
  rw [hallowed, hempty] at hagenda
  set first := (starts.map fun cursor => (⟨cursor, true⟩ : MatchMove)).foldl MatchSearch.push blank
    with hfirst
  have hunder : (source.matchTour automaton).Underway source spots
      (automaton.stateCount * source.placeCount + 1) first.agenda first.collection
      fun _ => False := by
    rw [hagenda, hcollection]
    refine ⟨Tour.explores_starts htold fun _ => Iff.rfl, ?_, ?_⟩
    · exact Collection.holds_empty.congr fun r => by simp
    · have hcard := Agenda.card_pushAll MatchCursor.spot ⟨0, ∅⟩ starts
      simp at hcard ⊢
      omega
  rw [← mem_searchMatching_iff_of_underway hbounded htold hmax hdeadline hunder, findMatching,
    hfirst, hstarts, List.map_map]
  rfl

end TreeSource

end SentenceSearch
