import SentenceSearch.Search.Source

/-!
# Page cache

A cache of the edges below the nodes that were read most recently, in front of another source. A
page is the list of edges below a node.

## Main definitions

* `PageCache` — pages in order of last use, with counts of hits and misses
* `TreeSource.cached` — read access through a cache
-/

namespace SentenceSearch

/-- The pages that were used most recently. -/
structure PageCache where
  /-- The number of pages that are kept. -/
  capacity : Nat
  /-- The pages by node, the one used last in front. -/
  pages : List (Nat × List EdgeRecord)
  /-- How often a page was there. -/
  hits : Nat
  /-- How often a page had to be read. -/
  misses : Nat

namespace PageCache

/-- The capacity where none is given. -/
def defaultCapacity : Nat := 4096

/-- The cache without pages. A capacity of zero stands for the default one. -/
def ofCapacity (capacity : Nat) : PageCache where
  capacity := if capacity = 0 then defaultCapacity else capacity
  pages := []
  hits := 0
  misses := 0

instance : Inhabited PageCache := ⟨ofCapacity 0⟩

/-- The page of a node, if it is kept. -/
def page? (cache : PageCache) (id : Nat) : Option (List EdgeRecord) :=
  (cache.pages.find? fun entry => entry.1 == id).map Prod.snd

/-- Put a page in front. The page used longest ago goes when there are too many. -/
def use (cache : PageCache) (id : Nat) (page : List EdgeRecord) : PageCache :=
  -- A page that is used again moves to the front.
  let others := cache.pages.filter fun entry => entry.1 != id
  { cache with pages := ((id, page) :: others).take cache.capacity }

/-- Read a page that is kept. -/
def hit (cache : PageCache) (id : Nat) (page : List EdgeRecord) : PageCache :=
  { cache.use id page with hits := cache.hits + 1 }

/-- Keep a page that had to be read. -/
def miss (cache : PageCache) (id : Nat) (page : List EdgeRecord) : PageCache :=
  { cache.use id page with misses := cache.misses + 1 }

end PageCache

namespace TreeSource

variable {P : Type}

/-- The edges below a node, read through a cache. -/
def cachedEdges (inner : TreeSource Id P) (id : Nat) : StateM PageCache (List EdgeRecord) := do
  let cache ← get
  match cache.page? id with
  | some page =>
    set (cache.hit id page)
    pure page
  | none =>
    let page := (inner.edgesFrom id).run
    set (cache.miss id page)
    pure page

/-- Read access through a cache. Payloads are not kept. -/
def cached (inner : TreeSource Id P) : TreeSource (StateM PageCache) P where
  root := inner.root
  edgesFrom := inner.cachedEdges
  edgeStarting id c := do pure (firstStarting c (← inner.cachedEdges id))
  payloadsAt id := pure (inner.payloadsAt id).run
  edgeCount := inner.edgeCount
  placeCount := inner.placeCount

end TreeSource

end SentenceSearch
