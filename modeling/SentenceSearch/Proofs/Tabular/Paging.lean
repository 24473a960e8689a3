import Mathlib.Data.Finset.Card
import SentenceSearch.Proofs.Search.Effects
import SentenceSearch.Proofs.Tabular.Export
import SentenceSearch.Tabular.PageCache

/-!
# Searches through a page cache

A cache in front of a source makes no difference to searches, however small it is and however many
searches have gone before: each page that it keeps is what the source would give. What it counts can
be told without it, from the nodes whose edges are asked for. Each of these counts as a hit or a
miss, and if there is room for all pages, a node is missed only the first time.

The state of the cache is not followed through the searches. It is enough that it is always the one
after the nodes noted so far, and that is a relation of effects.

## Main definitions

* `PageCache.fetch` — the cache after the edges below a node have been read through it
* `PageCache.Mirrors` — the pages are those of the source
* `PageCache.KeepsAll` — no page has been dropped
* `TreeSource.noted` — a source that notes the nodes whose edges are read
* `TreeSource.TransparentlyCached` — what a cache does and does not do to some searches

## Main results

* `Consistent.transparentlyCached` — a cache is transparent for every source that finds the edge
  with a first character among the edges below the node
* `transparentlyCached_source` — suffix trees and trees made of rows are such sources
-/

namespace SentenceSearch

variable {P : Type} {inner : TreeSource Id P} {cache : PageCache} {id : Nat} {ids : List Nat}
  {page : List EdgeRecord}

namespace PageCache

/-- The cache after the edges below a node have been read through it. -/
def fetch (inner : TreeSource Id P) (cache : PageCache) (id : Nat) : PageCache :=
  match cache.page? id with
  | some page => cache.hit id page
  | none => cache.miss id (inner.edgesFrom id).run

/-- The nodes whose pages are kept, the one used last in front. -/
def nodes (cache : PageCache) : List Nat := cache.pages.map Prod.fst

theorem page?_eq_none_iff : cache.page? id = none ↔ id ∉ cache.nodes := by
  rw [page?, Option.map_eq_none_iff, List.find?_eq_none, nodes, List.mem_map]
  constructor
  · rintro h ⟨entry, hentry, rfl⟩
    exact h entry hentry (beq_self_eq_true _)
  · intro h entry hentry hid
    exact h ⟨entry, hentry, eq_of_beq hid⟩

/-! ### What is kept is right -/

/-- The pages of the cache are those of the source. -/
def Mirrors (cache : PageCache) (inner : TreeSource Id P) : Prop :=
  ∀ entry ∈ cache.pages, entry.2 = (inner.edgesFrom entry.1).run

theorem mirrors_ofCapacity (inner : TreeSource Id P) (capacity : Nat) :
    (ofCapacity capacity).Mirrors inner := nofun

theorem Mirrors.page_eq (h : cache.Mirrors inner) (hpage : cache.page? id = some page) :
    page = (inner.edgesFrom id).run := by
  obtain ⟨entry, hfind, rfl⟩ := Option.map_eq_some_iff.mp hpage
  have hid := List.find?_some hfind
  rw [h entry (List.mem_of_find?_eq_some hfind), eq_of_beq hid]

/-- A page is put in front of others that have been there. -/
theorem Mirrors.use (h : cache.Mirrors inner) (id : Nat) :
    (cache.use id (inner.edgesFrom id).run).Mirrors inner := by
  intro entry hentry
  rcases List.mem_cons.mp (List.mem_of_mem_take hentry) with rfl | hother
  · rfl
  · exact h entry (List.mem_of_mem_filter hother)

theorem Mirrors.fetch (h : cache.Mirrors inner) (id : Nat) :
    (cache.fetch inner id).Mirrors inner := by
  rw [PageCache.fetch]
  cases hpage : cache.page? id with
  | none => exact h.use id
  | some page => exact h.page_eq hpage ▸ h.use id

theorem Mirrors.fetchAll (h : cache.Mirrors inner) (ids : List Nat) :
    (ids.foldl (PageCache.fetch inner) cache).Mirrors inner := by
  induction ids generalizing cache with
  | nil => exact h
  | cons id ids ih => exact ih (h.fetch id)

/-- Edges that are read through the cache are those of the source. -/
theorem Mirrors.run_cachedEdges (h : cache.Mirrors inner) (id : Nat) :
    (inner.cachedEdges id).run cache = ((inner.edgesFrom id).run, cache.fetch inner id) := by
  rw [PageCache.fetch, TreeSource.cachedEdges]
  cases hpage : cache.page? id with
  | none =>
    simp only [StateT.run_bind, StateT.run_get, pure_bind, hpage]
    rfl
  | some page =>
    simp only [StateT.run_bind, StateT.run_get, pure_bind, hpage, ← h.page_eq hpage]
    rfl

/-! ### What is counted -/

theorem capacity_fetch (inner : TreeSource Id P) (cache : PageCache) (id : Nat) :
    (cache.fetch inner id).capacity = cache.capacity := by
  rw [fetch]
  split <;> rfl

theorem hits_add_misses_fetch (inner : TreeSource Id P) (cache : PageCache) (id : Nat) :
    (cache.fetch inner id).hits + (cache.fetch inner id).misses = cache.hits + cache.misses + 1 := by
  rw [fetch]
  split
  · exact Nat.add_right_comm _ _ _
  · rfl

/-- Whatever is read counts as a hit or a miss. -/
theorem hits_add_misses_fetchAll (inner : TreeSource Id P) (cache : PageCache) (ids : List Nat) :
    (ids.foldl (fetch inner) cache).hits + (ids.foldl (fetch inner) cache).misses =
      cache.hits + cache.misses + ids.length := by
  induction ids generalizing cache with
  | nil => rfl
  | cons id ids ih =>
    rw [List.foldl_cons, ih, hits_add_misses_fetch, List.length_cons]
    omega

/-- After the edges below some nodes have been read, the pages of all of them are kept, and each was
missed once. -/
structure KeepsAll (cache : PageCache) (ids : List Nat) : Prop where
  nodup : cache.nodes.Nodup
  mem_nodes : ∀ id, id ∈ cache.nodes ↔ id ∈ ids
  misses : cache.misses = ids.toFinset.card

theorem keepsAll_ofCapacity (capacity : Nat) : (ofCapacity capacity).KeepsAll [] where
  nodup := List.nodup_nil
  mem_nodes _ := Iff.rfl
  misses := rfl

/-- With room for one more node no page is dropped. -/
theorem KeepsAll.nodes_use (h : cache.KeepsAll ids) (page : List EdgeRecord)
    (hroom : (ids ++ [id]).toFinset.card ≤ cache.capacity) :
    (cache.use id page).nodes = id :: cache.nodes.filter (· ≠ id) := by
  have hnodup : (id :: cache.nodes.filter (· ≠ id)).Nodup :=
    List.nodup_cons.mpr ⟨by simp, h.nodup.filter _⟩
  have hset : (id :: cache.nodes.filter (· ≠ id)).toFinset = (ids ++ [id]).toFinset := by
    ext other
    by_cases hother : other = id <;> simp [hother, h.mem_nodes]
  have hlength : (id :: cache.nodes.filter (· ≠ id)).length ≤ cache.capacity := by
    rwa [← List.toFinset_card_of_nodup hnodup, hset]
  have hnodes : (cache.use id page).nodes =
      (id :: cache.nodes.filter (· ≠ id)).take cache.capacity := by
    simp [use, nodes, List.map_take, List.filter_map, Function.comp_def, bne, beq_eq_decide]
  rw [hnodes, List.take_of_length_le hlength]

/-- With room for one more node, the page of a node is missed only the first time. -/
theorem KeepsAll.fetch (h : cache.KeepsAll ids) (inner : TreeSource Id P)
    (hroom : (ids ++ [id]).toFinset.card ≤ cache.capacity) :
    (cache.fetch inner id).KeepsAll (ids ++ [id]) := by
  have hmisses : (cache.fetch inner id).misses = (ids ++ [id]).toFinset.card := by
    rw [List.toFinset_append, List.toFinset_cons, List.toFinset_nil, insert_empty_eq,
      Finset.union_singleton]
    rw [PageCache.fetch]
    cases hpage : cache.page? id with
    | none =>
      have hnew : id ∉ ids.toFinset := by
        rw [List.mem_toFinset, ← h.mem_nodes]
        exact page?_eq_none_iff.mp hpage
      rw [Finset.card_insert_of_notMem hnew, ← h.misses]
      rfl
    | some page =>
      have hold : id ∈ ids.toFinset := by
        rw [List.mem_toFinset, ← h.mem_nodes]
        by_contra hnew
        rw [page?_eq_none_iff.mpr hnew] at hpage
        cases hpage
      rw [Finset.insert_eq_of_mem hold, ← h.misses]
      rfl
  have hnodes : (cache.fetch inner id).nodes = id :: cache.nodes.filter (· ≠ id) := by
    rw [PageCache.fetch]
    split <;> exact h.nodes_use _ hroom
  refine ⟨?_, fun other => ?_, hmisses⟩
  · rw [hnodes, List.nodup_cons]
    exact ⟨by simp, h.nodup.filter _⟩
  · rw [hnodes]
    by_cases hother : other = id <;> simp [hother, h.mem_nodes]

theorem capacity_fetchAll (inner : TreeSource Id P) (cache : PageCache) (ids : List Nat) :
    (ids.foldl (fetch inner) cache).capacity = cache.capacity := by
  induction ids generalizing cache with
  | nil => rfl
  | cons id ids ih => rw [List.foldl_cons, ih, capacity_fetch]

/-- With room for all nodes, the page of each is missed only the first time. -/
theorem keepsAll_fetchAll (inner : TreeSource Id P) {capacity : Nat}
    (hroom : ids.toFinset.card ≤ (ofCapacity capacity).capacity) :
    (ids.foldl (fetch inner) (ofCapacity capacity)).KeepsAll ids := by
  induction ids using List.reverseRecOn with
  | nil => exact keepsAll_ofCapacity capacity
  | append_singleton ids id ih =>
    have hsubset : ids.toFinset ⊆ (ids ++ [id]).toFinset := by simp
    have hkeeps := ih ((Finset.card_le_card hsubset).trans hroom)
    rw [List.foldl_append]
    exact hkeeps.fetch inner (by rwa [capacity_fetchAll])

end PageCache

/-! ### Reading with notes and reading through a cache -/

namespace TreeSource

/-- The edges below a node, which is noted. -/
def notedEdges (inner : TreeSource Id P) (id : Nat) : StateM (List Nat) (List EdgeRecord) := do
  modify (· ++ [id])
  pure (inner.edgesFrom id).run

/-- Read access that notes each node whose edges are read. The edge with a first character is looked
for among the edges below the node. -/
def noted (inner : TreeSource Id P) : TreeSource (StateM (List Nat)) P where
  root := inner.root
  edgesFrom := inner.notedEdges
  edgeStarting id c := do pure (firstStarting c (← inner.notedEdges id))
  payloadsAt id := pure (inner.payloadsAt id).run
  edgeCount := inner.edgeCount
  placeCount := inner.placeCount

/-- The source gives the edge with a first character that is among the edges below the node. -/
def Consistent (inner : TreeSource Id P) : Prop :=
  ∀ id c, (inner.edgeStarting id c).run = firstStarting c (inner.edgesFrom id).run

/-- Notes do not change what is computed. -/
def ignoringNotes : EffectRelation Id (StateM (List Nat)) where
  Rel x y := ∀ notes, (y.run notes).1 = x.run
  pure _ _ := rfl
  bind {α β x y f g} hx hf := by
    intro notes
    rw [StateT.run_bind]
    change ((g (y.run notes).1).run (y.run notes).2).1 = (f x.run).run
    rw [hx notes]
    exact hf x.run _

/-- What is computed is the same, and the cache is the one after the nodes that are noted. -/
def replayingNotes (inner : TreeSource Id P) :
    EffectRelation (StateM (List Nat)) (StateM PageCache) where
  Rel x y := ∃ a ids, (∀ notes, x.run notes = (a, notes ++ ids)) ∧
    ∀ cache : PageCache, cache.Mirrors inner →
      y.run cache = (a, ids.foldl (PageCache.fetch inner) cache)
  pure a := ⟨a, [], fun notes => congrArg _ (List.append_nil notes).symm, fun _ _ => rfl⟩
  bind {α β x y f g} hx hf := by
    obtain ⟨a, ids, hnotes, hcache⟩ := hx
    obtain ⟨b, ids', hnotes', hcache'⟩ := hf a
    refine ⟨b, ids ++ ids', fun notes => ?_, fun cache hmirrors => ?_⟩
    · rw [StateT.run_bind, hnotes]
      change (f a).run (notes ++ ids) = _
      rw [hnotes', List.append_assoc]
    · rw [StateT.run_bind, hcache cache hmirrors]
      change (g a).run (ids.foldl (PageCache.fetch inner) cache) = _
      rw [hcache' _ (hmirrors.fetchAll ids), List.foldl_append]

theorem Consistent.related_noted (h : inner.Consistent) :
    inner.Related ignoringNotes inner.noted where
  root := rfl
  edgesFrom _ _ := rfl
  edgeStarting id c _ := (h id c).symm
  payloadsAt _ _ := rfl
  edgeCount := rfl
  placeCount := rfl

/-- Reading through a cache is reading with notes. -/
theorem related_cached (inner : TreeSource Id P) :
    inner.noted.Related (replayingNotes inner) inner.cached where
  root := rfl
  edgesFrom id := ⟨(inner.edgesFrom id).run, [id], fun _ => rfl, fun cache hmirrors =>
    hmirrors.run_cachedEdges id⟩
  edgeStarting id c := by
    refine (replayingNotes inner).bind ?_ fun edges => (replayingNotes inner).pure _
    exact ⟨(inner.edgesFrom id).run, [id], fun _ => rfl, fun cache hmirrors =>
      hmirrors.run_cachedEdges id⟩
  payloadsAt id := (replayingNotes inner).pure _
  edgeCount := rfl
  placeCount := rfl

variable [Ord P] [Std.TransOrd P]

/-- The nodes whose edges some searches read, one after the other. -/
def nodesRead (inner : TreeSource Id P) (calls : List SearchCall) : List Nat :=
  ((runAll inner.noted calls).run []).2

/-- The cache after some searches have been made through it. -/
def cacheAfter (inner : TreeSource Id P) (capacity : Nat) (calls : List SearchCall) : PageCache :=
  ((runAll inner.cached calls).run (.ofCapacity capacity)).2

/-- Searches one after the other through a cache that starts empty: what comes out is what comes out
without a cache, and what the cache counts can be told from the nodes whose edges are read. -/
structure TransparentlyCached (inner : TreeSource Id P) (capacity : Nat)
    (calls : List SearchCall) : Prop where
  /-- Each search has the same outcome as without the cache. -/
  outcomes_eq : ((runAll inner.cached calls).run (.ofCapacity capacity)).1 =
    (runAll inner calls).run
  /-- Every time that edges are read is a hit or a miss. -/
  hits_add_misses : (inner.cacheAfter capacity calls).hits +
    (inner.cacheAfter capacity calls).misses = (inner.nodesRead calls).length
  /-- With room for the pages of all nodes, each of them is missed once. -/
  misses_eq : (inner.nodesRead calls).toFinset.card ≤ (PageCache.ofCapacity capacity).capacity →
    (inner.cacheAfter capacity calls).misses = (inner.nodesRead calls).toFinset.card

/-- A cache makes no difference to searches. -/
theorem Consistent.transparentlyCached (h : inner.Consistent) (capacity : Nat)
    (calls : List SearchCall) : inner.TransparentlyCached capacity calls := by
  have hnoted : ((runAll inner.noted calls).run []).1 = (runAll inner calls).run :=
    h.related_noted.runAll calls []
  -- The searches through the cache read the nodes that are noted without it.
  obtain ⟨outcomes, ids, hnotes, hcache⟩ := inner.related_cached.runAll calls
  have hcached := hcache _ (PageCache.mirrors_ofCapacity inner capacity)
  have hread : inner.nodesRead calls = ids := by
    rw [nodesRead, hnotes]
    rfl
  have hafter : inner.cacheAfter capacity calls =
      ids.foldl (PageCache.fetch inner) (.ofCapacity capacity) := by
    rw [cacheAfter, hcached]
  refine ⟨?_, ?_, fun hroom => ?_⟩
  · rw [hcached, ← hnoted, hnotes]
  · rw [hafter, hread, PageCache.hits_add_misses_fetchAll]
    exact Nat.zero_add _
  · rw [hread] at hroom ⊢
    rw [hafter]
    exact (PageCache.keepsAll_fetchAll inner hroom).misses

/-- A cache that starts empty makes no difference to a search. -/
theorem Consistent.run_cached (h : inner.Consistent) (capacity : Nat) (call : SearchCall) :
    ((call.run inner.cached).run (.ofCapacity capacity)).1 = (call.run inner).run := by
  have houtcomes := (h.transparentlyCached capacity [call]).outcomes_eq
  exact (List.cons.inj houtcomes).1

end TreeSource

theorem SuffixTree.Reachable.consistent [DecidableEq P] {tree : SuffixTree P}
    (h : tree.Reachable) : (tree.source (m := Id)).Consistent := by
  obtain ⟨spell, ends, hsettled⟩ := h.exists_settled
  exact hsettled.stores.labelled.recordStarting_eq

theorem TabularTree.consistent (tree : TabularTree P) : (tree.source (m := Id)).Consistent :=
  fun _ _ => rfl

variable [DecidableEq P] [Ord P] [Std.TransOrd P]

/-- A cache of any capacity makes no difference to searches, one after the other, on a suffix tree
with any history and on a tree made of any rows. It counts each time that edges are read, and with
room for all pages it misses each node once. -/
theorem transparentlyCached_source :
    (∀ tree : SuffixTree P, tree.Reachable → ∀ capacity calls,
      tree.source.TransparentlyCached capacity calls) ∧
    ∀ (edges : List EdgeRow) (payloads : List (PayloadRow P)) (table : SymbolTable) capacity calls,
      (TabularTree.ofRows edges payloads table).source.TransparentlyCached capacity calls :=
  ⟨fun _ htree capacity calls => htree.consistent.transparentlyCached capacity calls,
    fun edges payloads table capacity calls =>
      (TabularTree.ofRows edges payloads table).consistent.transparentlyCached capacity calls⟩

/-- A page at a time, two texts of which the second one carries no masks, and three searches of which
the last one stops early. -/
theorem transparentlyCached_source_single :
    ((SuffixTree.empty.add (.ofText (.ofList [('a', 1), ('b', 2)]) "abab".toList) 3).annotate.add
      ⟨"bba".toList.toArray, #[]⟩ 7).Reachable ∧
    ((SuffixTree.empty.add (.ofText (.ofList [('a', 1), ('b', 2)]) "abab".toList) 3).annotate.add
      ⟨"bba".toList.toArray, #[]⟩ 7).source.TransparentlyCached 1
        [.keys (.ofList [('a', 1), ('b', 2)]) .unlimited ["a".toList, "b".toList],
          .matching (Pattern.wildcard.automaton .empty) .unlimited,
          .keys (.ofList [('a', 1), ('b', 2)]) ⟨1, some fun look => 1 < look⟩ ["b".toList]] := by
  have htree := SuffixTree.Reachable.empty.add
    (.ofText (.ofList [('a', 1), ('b', 2)]) "abab".toList) 3 |>.annotate.add
      ⟨"bba".toList.toArray, #[]⟩ 7
  exact ⟨htree, transparentlyCached_source.1 _ htree 1 _⟩

end SentenceSearch
