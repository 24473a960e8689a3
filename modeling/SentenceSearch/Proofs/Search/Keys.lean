import SentenceSearch.Proofs.Search.Exploration
import SentenceSearch.Search.Keys

/-!
# What a search for keys finds

Without limits the search goes on from the place where the first key ends and finds the payloads at
and below the edges of those cursors after the last key that its moves lead to.

## Main definitions

* `TreeSource.keyTour` — the cursors of a search for keys and its moves
* `KeyStep` — a way on from a cursor
* `KeySearch.agenda` — the cursors on the stack and the spots that have been there

## Main results

* `mem_keyTour_moves_iff` — the moves are the steps that the masks allow
* `mem_searchKeys_iff` — what the search finds from a first cursor
-/

namespace SentenceSearch

variable {P : Type} {source : TreeSource Id P} {keys : SearchKeys} {start : KeyCursor}

/-- The moves from a cursor, those included that a mask rules out. -/
def TreeSource.keyMoves (source : TreeSource Id P) (keys : SearchKeys) (cursor : KeyCursor) :
    List KeyCursor :=
  if cursor.offset = cursor.edge.length then
    cursor.movesBelow keys (source.edgesFrom cursor.edge.child).run
  else
    cursor.movesInside keys

/-- A search for keys: it starts where the first key ends, and it collects after the last one. -/
def TreeSource.keyTour (source : TreeSource Id P) (keys : SearchKeys) (start : KeyCursor) :
    Tour KeyCursor KeySpot where
  spot := KeyCursor.spot
  starts cursor := cursor = start
  moves cursor := if cursor.key = keys.count then [] else
    (source.keyMoves keys cursor).filter (·.isFeasible keys)
  final cursor := cursor.key = keys.count
  target cursor := cursor.edge.child

/-- The ways on from a cursor, masks aside. -/
inductive KeyStep (source : TreeSource Id P) (keys : SearchKeys) (cursor : KeyCursor) :
    KeyCursor → Prop
  /-- Over the next character of the key. -/
  | read (hinside : cursor.offset ≠ cursor.edge.length)
      (hchar : cursor.edge.charAt cursor.offset = (keys.key cursor.key).getD cursor.pos default) :
      KeyStep source keys cursor (cursor.advance keys)
  /-- Over a character of the gap before the key. -/
  | skip (hinside : cursor.offset ≠ cursor.edge.length) (hpos : cursor.pos = 0) :
      KeyStep source keys cursor cursor.skip
  /-- From the end of the edge to the start of one below. -/
  | enter (edge : EdgeRecord) (hend : cursor.offset = cursor.edge.length)
      (hedge : edge ∈ (source.edgesFrom cursor.edge.child).run)
      (hchar : cursor.pos = 0 ∨ edge.firstChar = (keys.key cursor.key).getD cursor.pos default) :
      KeyStep source keys cursor (cursor.enter edge)

theorem mem_keyMoves_iff {cursor next : KeyCursor} :
    next ∈ source.keyMoves keys cursor ↔ KeyStep source keys cursor next := by
  unfold TreeSource.keyMoves
  constructor
  · intro h
    split at h
    · rename_i hend
      obtain ⟨edge, hedge, rfl⟩ := List.mem_map.mp h
      obtain ⟨hmem, hchar⟩ := List.mem_filter.mp hedge
      exact .enter edge hend hmem (by simpa using hchar)
    · rename_i hinside
      rcases List.mem_append.mp h with h | h
      · split at h
        · rename_i hchar
          exact List.mem_singleton.mp h ▸ .read hinside hchar
        · cases h
      · split at h
        · rename_i hpos
          exact List.mem_singleton.mp h ▸ .skip hinside hpos
        · cases h
  · intro h
    cases h with
    | read hinside hchar =>
      rw [if_neg hinside]
      exact List.mem_append_left _ (by rw [if_pos hchar]; exact List.mem_singleton_self _)
    | skip hinside hpos =>
      rw [if_neg hinside]
      exact List.mem_append_right _ (by rw [if_pos hpos]; exact List.mem_singleton_self _)
    | enter edge hend hedge hchar =>
      rw [if_pos hend]
      exact List.mem_map.mpr ⟨edge, List.mem_filter.mpr ⟨hedge, by simpa using hchar⟩, rfl⟩

/-- The moves of a cursor before the end of the keys are the steps that the masks allow. -/
theorem mem_keyTour_moves_iff {cursor next : KeyCursor} :
    next ∈ (source.keyTour keys start).moves cursor ↔
      cursor.key ≠ keys.count ∧ KeyStep source keys cursor next ∧ next.isFeasible keys = true := by
  change next ∈ ite _ _ _ ↔ _
  split
  · rename_i hfinal
    exact ⟨nofun, fun h => absurd hfinal h.1⟩
  · rename_i hfinal
    rw [List.mem_filter, mem_keyMoves_iff]
    exact ⟨fun h => ⟨hfinal, h⟩, fun h => h.2⟩

namespace KeySearch

variable [Ord P] {search : KeySearch P}

/-- The cursors on the stack and the spots that have been there. -/
def agenda (search : KeySearch P) : Agenda KeyCursor KeySpot where
  pending := ↑search.stack
  seen := spotsOf search.seen

theorem agenda_push (search : KeySearch P) (cursor : KeyCursor) :
    (search.push keys cursor).agenda = (if cursor.isFeasible keys then
        search.agenda.push KeyCursor.spot cursor else search.agenda) ∧
      (search.push keys cursor).collection = search.collection := by
  unfold push
  cases cursor.isFeasible keys with
  | false => exact ⟨rfl, rfl⟩
  | true =>
    rcases Agenda.push_cases KeyCursor.spot search.agenda cursor with ⟨hseen, hpush⟩ |
      ⟨hnew, hpush⟩
    · have hcontains := mem_spotsOf.mp hseen
      simp [hpush, hcontains]
    · have hcontains := Bool.eq_false_iff.mpr (mem_spotsOf.not.mp hnew)
      simp only [Bool.not_true, Bool.false_eq_true, if_false, hcontains, if_true, hpush, and_true]
      unfold agenda
      rw [spotsOf_insert]
      rfl

/-- Moves are put on the agenda, unless a mask rules them out. -/
theorem agenda_pushAll (search : KeySearch P) (moves : List KeyCursor) :
    (moves.foldl (·.push keys ·) search).agenda = search.agenda.pushAll KeyCursor.spot
        (moves.filter (·.isFeasible keys)) ∧
      (moves.foldl (·.push keys ·) search).collection = search.collection := by
  induction moves generalizing search with
  | nil => exact ⟨rfl, rfl⟩
  | cons cursor moves ih =>
    obtain ⟨hagenda, hcollection⟩ := search.agenda_push cursor
    obtain ⟨hrest, hrest'⟩ := ih (search.push keys cursor)
    rw [List.foldl_cons, hrest, hrest', hcollection, hagenda, List.filter_cons]
    refine ⟨?_, rfl⟩
    split
    · rfl
    · rfl

end KeySearch

namespace TreeSource

variable [Ord P] [Std.TransOrd P] [Std.LawfulEqOrd P] {limits : SearchLimits}
  {nodes : Finset Nat} {spots : Finset KeySpot} {search : KeySearch P} {fuel : Nat}
  {done : KeyCursor → Prop} {p : P}

/-- A search that is under way finds what is below the final cursors. -/
theorem mem_searchKeys_iff_of_underway (hbounded : source.Bounded nodes)
    (htold : (source.keyTour keys start).Told spots) (hmax : limits.maxResults = 0)
    (hdeadline : limits.deadline = none)
    (h : (source.keyTour keys start).Underway source spots fuel search.agenda search.collection
      done) :
    p ∈ (source.searchKeys keys limits fuel search).run.results ↔
      ∃ c v, (source.keyTour keys start).Reached c ∧ c.key = keys.count ∧
        source.Below c.edge.child v ∧ p ∈ (source.payloadsAt v).run := by
  induction fuel generalizing search done with
  | zero =>
    rw [searchKeys]
    exact h.mem_results_iff (h.pending_eq_zero htold) htold
  | succ fuel ih =>
    rw [searchKeys]
    cases hstack : search.stack with
    | nil =>
      exact h.mem_results_iff (by rw [KeySearch.agenda, hstack]; rfl) htold
    | cons cursor stack =>
      have hagenda : search.agenda = ⟨cursor ::ₘ ↑stack, spotsOf search.seen⟩ := by
        rw [KeySearch.agenda, hstack]
        rfl
      rw [hagenda] at h
      simp only [Collection.isFull_of_maxResults hmax, SearchLimits.expiredAt, hdeadline,
        Bool.false_eq_true, if_false]
      set taken : KeySearch P := { search with stack, states := search.states + 1 }
      -- Inside an edge and at its end the search goes on in the same way, with other moves.
      have hstep (moves : List KeyCursor) (hmoves : source.keyMoves keys cursor = moves)
          (hfinal : cursor.key ≠ keys.count) :
          p ∈ (source.searchKeys keys limits fuel
            (moves.foldl (·.push keys ·) taken)).run.results ↔
          ∃ c v, (source.keyTour keys start).Reached c ∧ c.key = keys.count ∧
            source.Below c.edge.child v ∧ p ∈ (source.payloadsAt v).run := by
        have hfeasible : (source.keyTour keys start).moves cursor =
            moves.filter (·.isFeasible keys) := by
          rw [← hmoves]
          exact if_neg hfinal
        obtain ⟨hagenda', hcollection'⟩ := taken.agenda_pushAll moves
        have hnext : (source.keyTour keys start).Underway source spots fuel
            (moves.foldl (·.push keys ·) taken).agenda
            (moves.foldl (·.push keys ·) taken).collection fun d => done d ∨ d = cursor := by
          rw [hagenda', hcollection', ← hfeasible]
          exact h.expand hfinal
        exact ih hnext
      by_cases hfinal : cursor.key = keys.count
      · rw [if_pos hfinal]
        exact ih (h.take hbounded hmax hfinal (if_pos hfinal))
      · rw [if_neg hfinal]
        by_cases hend : cursor.offset = cursor.edge.length
        · rw [if_pos hend]
          exact hstep _ (if_pos hend) hfinal
        · rw [if_neg hend]
          exact hstep _ (if_neg hend) hfinal

/-- Without limits a search finds the payloads at and below the edges of those cursors after the
last key that its moves lead to. -/
theorem mem_searchKeys_iff (hbounded : source.Bounded nodes)
    (htold : (source.keyTour keys start).Told spots) (hmax : limits.maxResults = 0)
    (hdeadline : limits.deadline = none) (hspots : spots.card + 1 ≤ fuel) :
    p ∈ (source.searchKeys keys limits fuel ⟨[start], ∅, .empty, 0, 0⟩).run.results ↔
      ∃ c v, (source.keyTour keys start).Reached c ∧ c.key = keys.count ∧
        source.Below c.edge.child v ∧ p ∈ (source.payloadsAt v).run := by
  set first : KeySearch P := ⟨[start], ∅, .empty, 0, 0⟩
  have hunder : (source.keyTour keys start).Underway source spots fuel first.agenda
      first.collection fun _ => False := by
    refine ⟨⟨?_, ?_, ?_, fun c hc => hc.elim⟩, ?_, ?_⟩
    · rintro c (hc | hc)
      · exact .start (List.mem_singleton.mp (Multiset.mem_coe.mp hc))
      · exact hc.elim
    · rintro c rfl
      exact Or.inl (Multiset.mem_coe.mpr (List.mem_singleton_self c))
    · intro s hs
      rw [KeySearch.agenda, spotsOf_empty] at hs
      exact absurd hs (Finset.notMem_empty s)
    · exact Collection.holds_empty.congr fun r => by simp
    · rw [KeySearch.agenda, spotsOf_empty, Multiset.coe_card, List.length_singleton,
        Finset.card_empty]
      omega
  exact mem_searchKeys_iff_of_underway hbounded htold hmax hdeadline hunder

end TreeSource

end SentenceSearch
