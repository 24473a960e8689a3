import SentenceSearch.Proofs.Search.Keys
import SentenceSearch.Proofs.Search.Loop
import SentenceSearch.Pattern.Compile
import SentenceSearch.Tabular.Tree

/-!
# What limits do to a search

A search under limits goes the same way as one without, until it stops. Since results are never
taken back, it has then found a part of what there is. It gives less than everything only when the
deadline has passed or when it has found as much as it was asked for.

The tests for a limit are nested: a search stops between two turns, and a turn that collects stops
between two nodes. The two levels agree because a collection that has stopped early is full, so that
no other turn is taken.

## Main definitions

* `Collection.CutFrom` — a collection under limits beside the one without
* `SearchLoop.Lawful` — collecting is the only way to change what has been found
* `SearchOutcome.Truncates` — what an outcome under limits has to do with the one without

## Main results

* `collect_cutFrom`, `run_truncates` — a turn that collects, and a whole search
* `searches_truncate` — both searches
-/

namespace SentenceSearch

variable {P : Type} [Ord P] [Std.TransOrd P] {source : TreeSource Id P} {limits : SearchLimits}

/-- A set with no elements outside another one is not larger. -/
theorem size_le_of_forall_mem {part whole : Std.ExtTreeSet P} (h : ∀ p ∈ part, p ∈ whole) :
    part.size ≤ whole.size := by
  have hinter : (part ∩ whole).size = part.size := Std.ExtTreeSet.size_inter_eq_size_left h
  have hright : (part ∩ whole).size ≤ whole.size := Std.ExtTreeSet.size_inter_le_size_right
  omega

namespace SearchLimits

theorem isFull_iff (limits : SearchLimits) (found : Nat) :
    limits.isFull found = true ↔ 0 < limits.maxResults ∧ limits.maxResults ≤ found := by
  rw [isFull, Bool.and_eq_true, decide_eq_true_iff, decide_eq_true_iff]

end SearchLimits

namespace Collection

variable {collection part whole : Collection P} {stack : List Nat} {fuel : Nat} {p : P}

/-! ### One node -/

theorem mem_results_visit_of_mem (id : Nat) (payloads : List P) (hp : p ∈ collection.results) :
    p ∈ (collection.visit id payloads).results := by
  change p ∈ payloads.foldl (fun acc p => acc.insert p) collection.results
  generalize collection.results = results at hp
  induction payloads generalizing results with
  | nil => exact hp
  | cons q payloads ih => exact ih _ (Std.ExtTreeSet.mem_insert.mpr (Or.inr hp))

/-- A visit adds at most one result for each payload of the node. -/
theorem size_results_visit_le (collection : Collection P) (id : Nat) (payloads : List P) :
    (collection.visit id payloads).results.size ≤ collection.results.size + payloads.length := by
  change (payloads.foldl (fun acc p => acc.insert p) collection.results).size ≤ _
  generalize collection.results = results
  induction payloads generalizing results with
  | nil => exact Nat.le_refl _
  | cons q payloads ih =>
    have hinsert : (results.insert q).size ≤ results.size + 1 := Std.ExtTreeSet.size_insert_le
    have hrest := ih (results.insert q)
    rw [List.foldl_cons, List.length_cons]
    omega

/-- A collection does not go beyond the number of results that is asked for by more than the
payloads of one node. -/
def Modest (source : TreeSource Id P) (limits : SearchLimits) (collection : Collection P) : Prop :=
  0 < limits.maxResults → ∃ v,
    collection.results.size ≤ limits.maxResults - 1 + (source.payloadsAt v).run.length

omit [Std.TransOrd P] in
theorem modest_empty : Modest source limits .empty := fun _ => ⟨0, Nat.zero_le _⟩

/-- A node is visited only while something is missing. -/
theorem modest_visit (hfull : collection.isFull limits = false) (id : Nat) :
    Modest source limits (collection.visit id (source.payloadsAt id).run) := by
  intro hmax
  have hfew : collection.results.size < limits.maxResults := by
    by_contra hmany
    exact absurd ((limits.isFull_iff _).mpr ⟨hmax, Nat.le_of_not_lt hmany⟩)
      (Bool.eq_false_iff.mp hfull)
  have hvisit := collection.size_results_visit_le id (source.payloadsAt id).run
  exact ⟨id, by omega⟩

/-! ### A subtree -/

theorem mem_results_collectFrom_of_mem (hp : p ∈ collection.results) :
    p ∈ (collectFrom source limits fuel stack collection).run.results := by
  induction fuel generalizing stack collection with
  | zero => exact hp
  | succ fuel ih =>
    cases stack with
    | nil => exact hp
    | cons id stack =>
      rw [collectFrom]
      split
      · exact hp
      · split
        · exact ih hp
        · exact ih (mem_results_visit_of_mem id _ hp)

theorem Modest.collectFrom (h : Modest source limits collection) :
    Modest source limits (collectFrom source limits fuel stack collection).run := by
  induction fuel generalizing stack collection with
  | zero => exact h
  | succ fuel ih =>
    cases stack with
    | nil => exact h
    | cons id stack =>
      rw [Collection.collectFrom]
      split
      · exact h
      · rename_i hfull
        split
        · exact ih h
        · exact ih (modest_visit (Bool.eq_false_iff.mpr hfull) id)

/-- A collection that has been made under limits beside the one without: it has not been stopped, or
it is full and holds a part. -/
def CutFrom (part : Collection P) (limits : SearchLimits) (whole : Collection P) : Prop :=
  part = whole ∨ part.isFull limits = true ∧ ∀ p ∈ part.results, p ∈ whole.results

/-- Limits stop a collection, and until then they make no difference. -/
theorem collectFrom_cutFrom (source : TreeSource Id P) (limits : SearchLimits) (fuel : Nat)
    (stack : List Nat) (collection : Collection P) :
    (collectFrom source limits fuel stack collection).run.CutFrom limits
      (collectFrom source .unlimited fuel stack collection).run := by
  induction fuel generalizing stack collection with
  | zero => exact Or.inl rfl
  | succ fuel ih =>
    cases stack with
    | nil => exact Or.inl rfl
    | cons id stack =>
      by_cases hfull : collection.isFull limits = true
      · refine Or.inr ?_
        rw [collectFrom, if_pos hfull]
        exact ⟨hfull, fun p hp => mem_results_collectFrom_of_mem hp⟩
      · have hnever : ¬ collection.isFull .unlimited = true := Bool.false_ne_true
        rw [collectFrom, collectFrom, if_neg hfull, if_neg hnever]
        split
        · exact ih stack collection
        · exact ih _ _

theorem collect_cutFrom (source : TreeSource Id P) (limits : SearchLimits) (id : Nat)
    (collection : Collection P) :
    (collection.collect source limits id).run.CutFrom limits
      (collection.collect source .unlimited id).run :=
  collectFrom_cutFrom source limits _ _ _

end Collection

/-- What an outcome under limits has to do with the one of the same search without limits. -/
structure SearchOutcome.Truncates (source : TreeSource Id P) (limits : SearchLimits)
    (part whole : SearchOutcome P) : Prop where
  /-- There are no results that are not there without limits. -/
  mem_whole : ∀ p ∈ part.results, p ∈ whole.results
  /-- Without a number of results and in time, everything is found. -/
  eq_of_uncapped : part.timedOut = false → limits.maxResults = 0 → part.results = whole.results
  /-- In time, everything is found that is less than what is asked for. -/
  eq_of_lt : part.timedOut = false → 0 < limits.maxResults →
    whole.results.size < limits.maxResults → part.results = whole.results
  /-- In time, as much is found as is asked for, where there is as much. -/
  maxResults_le : part.timedOut = false → 0 < limits.maxResults →
    limits.maxResults ≤ whole.results.size → limits.maxResults ≤ part.results.size
  /-- The last node that was visited is the only one whose payloads may be too many. -/
  size_le : 0 < limits.maxResults → ∃ v,
    part.results.size ≤ limits.maxResults - 1 + (source.payloadsAt v).run.length

namespace SearchOutcome.Truncates

variable {part whole : SearchOutcome P}

/-- It is enough that a search that is in time either finds everything or finds what it is asked
for. -/
theorem of_eq_or_isFull (hmem : ∀ p ∈ part.results, p ∈ whole.results)
    (hstop : part.timedOut = false →
      part.results = whole.results ∨ limits.isFull part.results.size = true)
    (hsize : 0 < limits.maxResults → ∃ v,
      part.results.size ≤ limits.maxResults - 1 + (source.payloadsAt v).run.length) :
    part.Truncates source limits whole := by
  have hpart := size_le_of_forall_mem hmem
  refine ⟨hmem, fun htime hmax => ?_, fun htime hmax hfew => ?_, fun htime hmax hmany => ?_, hsize⟩
  · rcases hstop htime with heq | hfull
    · exact heq
    · have hpos := ((limits.isFull_iff _).mp hfull).1
      omega
  · rcases hstop htime with heq | hfull
    · exact heq
    · have hreached := ((limits.isFull_iff _).mp hfull).2
      omega
  · rcases hstop htime with heq | hfull
    · exact heq ▸ hmany
    · exact ((limits.isFull_iff _).mp hfull).2

/-- An outcome that no limit has touched. -/
theorem of_nothing (pruned : Nat) :
    (SearchOutcome.nothing pruned : SearchOutcome P).Truncates source limits (.nothing pruned) :=
  of_eq_or_isFull (fun _ => id) (fun _ => Or.inl rfl) fun _ => ⟨0, Nat.zero_le _⟩

end SearchOutcome.Truncates

namespace SearchLoop

variable {S : Type} {loop : SearchLoop Id P S} {search : S} {fuel : Nat} {p : P}

/-- What has been found changes only where a turn collects. -/
def Keeps (loop : SearchLoop Id P S) (search : S) : SearchTurn Id P S → Prop
  | .collect _ resume => ∀ collection, loop.collection (resume collection) = collection
  | .expand next => loop.collection next.run = loop.collection search

/-- All turns keep what has been found. -/
def Lawful (loop : SearchLoop Id P S) : Prop :=
  ∀ search, ∀ turn ∈ loop.turn? search, loop.Keeps search turn

/-- Results are never taken back. -/
theorem Lawful.mem_results_run (h : loop.Lawful) (hp : p ∈ (loop.collection search).results) :
    p ∈ (loop.run source limits fuel search).run.results := by
  induction fuel generalizing search with
  | zero => exact hp
  | succ fuel ih =>
    cases hturn : loop.turn? search with
    | none => exact run_of_none hturn ▸ hp
    | some turn =>
      cases hfull : (loop.collection search).isFull limits with
      | true => exact run_of_isFull hfull ▸ hp
      | false =>
        cases htime : limits.expiredAt (loop.states search + 1) with
        | true => exact run_of_expired hturn hfull htime ▸ hp
        | false =>
          cases turn with
          | expand next =>
            have hnext : loop.collection next.run = loop.collection search := h search _ hturn
            rw [run_of_expand hturn hfull htime]
            exact ih (hnext.symm ▸ hp)
          | collect id resume =>
            have hresume : ∀ collection, loop.collection (resume collection) = collection :=
              h search _ hturn
            rw [run_of_collect hturn hfull htime]
            apply ih
            rw [hresume]
            exact Collection.mem_results_collectFrom_of_mem hp

/-- A collection that has been stopped by the limits is the last one. -/
theorem Lawful.run_truncates_of_isFull (h : loop.Lawful) {part whole : S}
    (hfull : (loop.collection part).isFull limits = true)
    (hmem : ∀ p ∈ (loop.collection part).results, p ∈ (loop.collection whole).results)
    (hmodest : Collection.Modest source limits (loop.collection part)) :
    (loop.run source limits fuel part).run.Truncates source limits
      (loop.run source .unlimited fuel whole).run := by
  rw [run_of_isFull hfull]
  exact .of_eq_or_isFull (fun p hp => h.mem_results_run (hmem p hp)) (fun _ => Or.inr hfull) hmodest

/-- Limits stop a search, and until then they make no difference. -/
theorem Lawful.run_truncates (h : loop.Lawful)
    (hmodest : Collection.Modest source limits (loop.collection search)) :
    (loop.run source limits fuel search).run.Truncates source limits
      (loop.run source .unlimited fuel search).run := by
  -- The two runs are at the same state until the first one stops.
  induction fuel generalizing search with
  | zero => exact .of_eq_or_isFull (fun _ => id) (fun _ => Or.inl rfl) hmodest
  | succ fuel ih =>
    cases hturn : loop.turn? search with
    | none =>
      rw [run_of_none hturn, run_of_none hturn]
      exact .of_eq_or_isFull (fun _ => id) (fun _ => Or.inl rfl) hmodest
    | some turn =>
      cases hfull : (loop.collection search).isFull limits with
      | true => exact h.run_truncates_of_isFull hfull (fun _ => id) hmodest
      | false =>
        cases htime : limits.expiredAt (loop.states search + 1) with
        | true =>
          rw [run_of_expired hturn hfull htime]
          exact .of_eq_or_isFull (fun _ hp => h.mem_results_run hp) nofun hmodest
        | false =>
          cases turn with
          | expand next =>
            have hnext : loop.collection next.run = loop.collection search := h search _ hturn
            rw [run_of_expand hturn hfull htime, run_of_expand hturn rfl rfl]
            exact ih (hnext.symm ▸ hmodest)
          | collect id resume =>
            have hresume : ∀ collection, loop.collection (resume collection) = collection :=
              h search _ hturn
            rw [run_of_collect hturn hfull htime, run_of_collect hturn rfl rfl]
            set part := ((loop.collection search).collect source limits id).run with hpart
            set whole := ((loop.collection search).collect source .unlimited id).run
            have hmodest : Collection.Modest source limits (loop.collection (resume part)) := by
              rw [hresume, hpart]
              exact hmodest.collectFrom
            have hcut : part.CutFrom limits whole := Collection.collect_cutFrom ..
            change (loop.run source limits fuel (resume part)).run.Truncates source limits
              (loop.run source .unlimited fuel (resume whole)).run
            rcases hcut with heq | ⟨hfull, hmem⟩
            · exact heq ▸ ih hmodest
            · refine h.run_truncates_of_isFull ?_ ?_ hmodest
              · rwa [hresume]
              · rwa [hresume, hresume]

end SearchLoop

omit [Std.TransOrd P] in
theorem MatchSearch.collection_initial (automaton : Automaton) (edges : List EdgeRecord) :
    (MatchSearch.initial automaton edges : MatchSearch P).collection = .empty :=
  (MatchSearch.agenda_pushAll _ _).2

namespace TreeSource

omit [Std.TransOrd P] in
theorem keeps_keyTurn (source : TreeSource Id P) (keys : SearchKeys) (cursor : KeyCursor)
    {search rest : KeySearch P} (hrest : rest.collection = search.collection) :
    (source.keyLoop keys).Keeps search (source.keyTurn keys cursor rest) := by
  by_cases hfinal : cursor.key = keys.count
  · rw [keyTurn, if_pos hfinal]
    exact fun collection => rfl
  · rw [keyTurn, if_neg hfinal]
    exact (KeySearch.agenda_pushAll _ _).2.trans hrest

omit [Std.TransOrd P] in
theorem lawful_keyLoop (source : TreeSource Id P) (keys : SearchKeys) :
    (source.keyLoop keys).Lawful := by
  intro search turn hturn
  cases hstack : search.stack with
  | nil =>
    simp only [keyLoop, hstack] at hturn
    cases hturn
  | cons cursor stack =>
    simp only [keyLoop, hstack] at hturn
    obtain rfl := Option.some.inj hturn
    exact source.keeps_keyTurn keys cursor rfl

omit [Std.TransOrd P] in
theorem keeps_matchTurn (source : TreeSource Id P) (automaton : Automaton) (cursor : MatchCursor)
    {search rest : MatchSearch P} (hrest : rest.collection = search.collection) :
    (source.matchLoop automaton).Keeps search (source.matchTurn automaton cursor rest) := by
  by_cases hfinal : cursor.state = automaton.accept
  · rw [matchTurn, if_pos hfinal]
    exact fun collection => rfl
  · rw [matchTurn, if_neg hfinal]
    exact (MatchSearch.agenda_pushAll _ _).2.trans hrest

omit [Std.TransOrd P] in
theorem lawful_matchLoop (source : TreeSource Id P) (automaton : Automaton) :
    (source.matchLoop automaton).Lawful := by
  intro search turn hturn
  obtain ⟨⟨cursor, rest⟩, hnext, rfl⟩ := Option.map_eq_some_iff.mp hturn
  exact source.keeps_matchTurn automaton cursor (MatchSearch.agenda_next? hnext).2

/-- From where the first key ends, limits only stop the search. -/
theorem truncates_searchAfter (source : TreeSource Id P) (keys : SearchKeys)
    (limits : SearchLimits) (descent : Descent) :
    (source.searchAfter keys limits descent).run.Truncates source limits
      (source.searchAfter keys .unlimited descent).run := by
  cases descent with
  | missing => exact .of_nothing 0
  | pruned => exact .of_nothing 1
  | found edge offset => exact (source.lawful_keyLoop keys).run_truncates Collection.modest_empty

/-- Limits only stop a search for keys. -/
theorem truncates_findKeys (source : TreeSource Id P) (table : SymbolTable)
    (limits : SearchLimits) (keys : List (List Char)) :
    (source.findKeys table limits keys).run.Truncates source limits
      (source.findKeys table .unlimited keys).run := by
  rcases findKeys_cases (m := Id) (P := P) table keys with hnothing | ⟨found, hfind⟩
  · rw [hnothing, hnothing]
    exact .of_nothing 0
  · rw [hfind, hfind]
    exact source.truncates_searchAfter found limits (source.descend found).run

/-- Limits only stop a search with an automaton. -/
theorem truncates_findMatching (source : TreeSource Id P) (automaton : Automaton)
    (limits : SearchLimits) :
    (source.findMatching automaton limits).run.Truncates source limits
      (source.findMatching automaton .unlimited).run := by
  rw [findMatching_eq_run, findMatching_eq_run]
  apply (source.lawful_matchLoop automaton).run_truncates
  have hmodest : Collection.Modest source limits (MatchSearch.initial automaton
      (source.edgesFrom source.root).run : MatchSearch P).collection := by
    rw [MatchSearch.collection_initial]
    exact Collection.modest_empty
  exact hmodest

end TreeSource

/-- Limits on a search only truncate what it finds, whatever the tree is that it reads. -/
theorem searches_truncate (source : TreeSource Id P) (limits : SearchLimits) :
    (∀ table keys, (source.findKeys table limits keys).run.Truncates source limits
      (source.findKeys table .unlimited keys).run) ∧
    ∀ automaton, (source.findMatching automaton limits).run.Truncates source limits
      (source.findMatching automaton .unlimited).run :=
  ⟨fun table keys => source.truncates_findKeys table limits keys,
    fun automaton => source.truncates_findMatching automaton limits⟩

/-- Two nodes that lead to each other. -/
private def circle : TreeSource Id Nat :=
  (TabularTree.ofRows [⟨0, 1, "a", 3⟩, ⟨1, 0, "b", 3⟩] [⟨1, 5⟩, ⟨0, 2⟩, ⟨1, 8⟩]
    (.ofList [('a', 1), ('b', 2)])).source

/-- Two results are enough, and there is time for one look at the clock. -/
private def brief : SearchLimits := ⟨2, some fun look => 1 < look⟩

/-- Rows may lead around in a circle, and the clock may run out. -/
theorem searches_truncate_circle :
    (circle.findKeys (.ofList [('a', 1), ('b', 2)]) brief ["a".toList]).run.Truncates circle brief
      (circle.findKeys (.ofList [('a', 1), ('b', 2)]) .unlimited ["a".toList]).run ∧
    (circle.findMatching (Pattern.wildcard.automaton .empty) brief).run.Truncates circle brief
      (circle.findMatching (Pattern.wildcard.automaton .empty) .unlimited).run :=
  ⟨(searches_truncate circle brief).1 _ _, (searches_truncate circle brief).2 _⟩

end SentenceSearch
