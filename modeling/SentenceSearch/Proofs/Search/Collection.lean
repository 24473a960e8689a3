import Mathlib.Algebra.BigOperators.Group.Finset.Basic
import Mathlib.Algebra.Order.BigOperators.Group.Finset
import Mathlib.Logic.Relation
import SentenceSearch.Search.Collect

/-!
# What a collection holds

Without a limit a collection takes the payloads of all nodes at and below those that it is asked
for, whatever it has visited before.

## Main definitions

* `TreeSource.Below` — a node is at or below another one
* `TreeSource.Bounded` — the edges of a source are no more than it says
* `Collection.Holds` — what a collection holds while some nodes are still on the stack

## Main results

* `Holds.collect` — what it holds after one more node and all below it
* `Holds.mem_results_iff` — the payloads that it holds
-/

namespace SentenceSearch

namespace TreeSource

variable {P : Type}

/-- The nodes one edge below a node. -/
def childrenFrom (source : TreeSource Id P) (v : Nat) : List Nat :=
  (source.edgesFrom v).run.map EdgeRecord.child

/-- The second node is at or below the first one. -/
def Below (source : TreeSource Id P) : Nat → Nat → Prop :=
  Relation.ReflTransGen fun v w => w ∈ source.childrenFrom v

/-- Edges lead only from the given nodes, and there are no more of them than the source says. -/
structure Bounded (source : TreeSource Id P) (nodes : Finset Nat) : Prop where
  outside : ∀ v, v ∉ nodes → source.childrenFrom v = []
  edges_le : ∑ v ∈ nodes, (source.childrenFrom v).length ≤ source.edgeCount

end TreeSource

namespace Collection

variable {P : Type} [Ord P] [Std.TransOrd P] {source : TreeSource Id P} {limits : SearchLimits}
  {roots : Nat → Prop} {nodes : Finset Nat} {collection : Collection P} {stack : List Nat}
  {id fuel : Nat} {p : P}

/-- The collection holds the payloads of the nodes that it has visited. These are at or below the
roots, and whatever is missing there is on the stack or below it. -/
structure Holds (source : TreeSource Id P) (roots : Nat → Prop) (stack : List Nat)
    (collection : Collection P) : Prop where
  results : ∀ p, p ∈ collection.results ↔
    ∃ v ∈ collection.visited, p ∈ (source.payloadsAt v).run
  visited : ∀ v ∈ collection.visited, ∃ r, roots r ∧ source.Below r v
  stacked : ∀ v ∈ stack, ∃ r, roots r ∧ source.Below r v
  known : ∀ r, roots r → r ∈ collection.visited ∨ r ∈ stack
  closed : ∀ v ∈ collection.visited, ∀ w ∈ source.childrenFrom v,
    w ∈ collection.visited ∨ w ∈ stack

theorem holds_empty : Holds source (fun _ => False) [] (.empty : Collection P) where
  results p := by simp [empty]
  visited v hv := by simp [empty] at hv
  stacked v hv := by cases hv
  known r hr := hr.elim
  closed v hv := by simp [empty] at hv

theorem Holds.congr {roots' : Nat → Prop} (h : Holds source roots stack collection)
    (hroots : ∀ r, roots' r ↔ roots r) : Holds source roots' stack collection := by
  obtain rfl : roots' = roots := funext fun r => propext (hroots r)
  exact h

/-- When the stack is empty the payloads at and below the roots have been taken. -/
theorem Holds.mem_results_iff (h : Holds source roots [] collection) :
    p ∈ collection.results ↔
      ∃ r v, roots r ∧ source.Below r v ∧ p ∈ (source.payloadsAt v).run := by
  rw [h.results]
  constructor
  · rintro ⟨v, hv, hp⟩
    obtain ⟨r, hr, hbelow⟩ := h.visited v hv
    exact ⟨r, v, hr, hbelow, hp⟩
  · rintro ⟨r, v, hr, hbelow, hp⟩
    -- The visited nodes are closed under going down, as no child is left on the stack.
    have hv : v ∈ collection.visited := by
      clear hp
      induction hbelow with
      | refl => exact (h.known r hr).resolve_right List.not_mem_nil
      | tail _ hw ih => exact (h.closed _ ih _ hw).resolve_right List.not_mem_nil
    exact ⟨v, hv, hp⟩

/-! ### Visiting a node -/

theorem mem_visited_visit {payloads : List P} {v : Nat} :
    v ∈ (collection.visit id payloads).visited ↔ v = id ∨ v ∈ collection.visited := by
  change v ∈ collection.visited.insert id ↔ _
  rw [Std.ExtTreeSet.mem_insert, Std.compare_eq_iff_eq, eq_comm]

omit [Std.TransOrd P] in
theorem mem_unvisited {edges : List EdgeRecord} {v : Nat} :
    v ∈ collection.unvisited edges ↔
      v ∈ edges.map EdgeRecord.child ∧ v ∉ collection.visited := by
  rw [unvisited, List.mem_reverse, List.mem_filter, Bool.not_eq_true',
    Std.ExtTreeSet.mem_iff_contains, Bool.not_eq_true]

/-- Number of edges below nodes that have not been visited. -/
def edgesLeft (source : TreeSource Id P) (nodes : Finset Nat) (collection : Collection P) : Nat :=
  ∑ v ∈ nodes.filter (· ∉ collection.visited), (source.childrenFrom v).length

omit [Std.TransOrd P] in
theorem edgesLeft_le (collection : Collection P) (hbounded : source.Bounded nodes) :
    edgesLeft source nodes collection ≤ source.edgeCount :=
  (Finset.sum_le_sum_of_subset (Finset.filter_subset _ _)).trans hbounded.edges_le

/-- A visit puts no more nodes on the stack than edges are left below the node. -/
theorem edgesLeft_visit (hbounded : source.Bounded nodes) (payloads : List P)
    (hid : id ∉ collection.visited) :
    ((collection.visit id payloads).unvisited (source.edgesFrom id).run).length +
        edgesLeft source nodes (collection.visit id payloads) ≤
      edgesLeft source nodes collection := by
  have hlength : ((collection.visit id payloads).unvisited (source.edgesFrom id).run).length ≤
      (source.childrenFrom id).length := by
    rw [unvisited, List.length_reverse]
    exact List.length_filter_le _ _
  have hfilter : nodes.filter (· ∉ (collection.visit id payloads).visited) =
      (nodes.filter (· ∉ collection.visited)).erase id := by
    ext v
    simp only [Finset.mem_filter, Finset.mem_erase, mem_visited_visit, not_or]
    exact and_left_comm
  rw [edgesLeft, hfilter, edgesLeft]
  by_cases hmem : id ∈ nodes
  · -- The node takes its own edges out of the sum, and they are as many as it puts on the stack.
    rw [← Finset.add_sum_erase _ _ (Finset.mem_filter.mpr ⟨hmem, hid⟩)]
    exact Nat.add_le_add_right hlength _
  · rw [hbounded.outside id hmem] at hlength
    rw [Finset.erase_eq_of_notMem fun h => hmem (Finset.mem_filter.mp h).1]
    simpa using hlength

omit [Std.TransOrd P] in
theorem isFull_of_maxResults (hmax : limits.maxResults = 0) :
    collection.isFull limits = false := by
  simp [isFull, SearchLimits.isFull, hmax]

variable [Std.LawfulEqOrd P]

theorem mem_results_visit {payloads : List P} :
    p ∈ (collection.visit id payloads).results ↔ p ∈ collection.results ∨ p ∈ payloads := by
  change p ∈ payloads.foldl (fun acc p => acc.insert p) collection.results ↔ _
  generalize collection.results = results
  induction payloads generalizing results with
  | nil => simp
  | cons q payloads ih =>
    rw [List.foldl_cons, ih, Std.ExtTreeSet.mem_insert, Std.compare_eq_iff_eq, List.mem_cons,
      eq_comm, or_assoc, or_left_comm]

omit [Std.LawfulEqOrd P] in
/-- A node of the stack that has been visited already is skipped. -/
theorem Holds.skip (h : Holds source roots (id :: stack) collection)
    (hid : id ∈ collection.visited) : Holds source roots stack collection := by
  have hpop {v : Nat} (hv : v ∈ collection.visited ∨ v ∈ id :: stack) :
      v ∈ collection.visited ∨ v ∈ stack := by
    rcases hv with hv | hv
    · exact Or.inl hv
    · rcases List.mem_cons.mp hv with rfl | hv
      · exact Or.inl hid
      · exact Or.inr hv
  exact ⟨h.results, h.visited, fun v hv => h.stacked v (List.mem_cons_of_mem _ hv),
    fun r hr => hpop (h.known r hr), fun v hv w hw => hpop (h.closed v hv w hw)⟩

/-- A node of the stack is visited, and its children go on the stack. -/
theorem Holds.visit (h : Holds source roots (id :: stack) collection) :
    Holds source roots
      ((collection.visit id (source.payloadsAt id).run).unvisited (source.edgesFrom id).run ++
        stack)
      (collection.visit id (source.payloadsAt id).run) := by
  obtain ⟨r, hr, hbelow⟩ := h.stacked id List.mem_cons_self
  set after := collection.visit id (source.payloadsAt id).run with hafter
  have hpop {v : Nat} (hv : v ∈ collection.visited ∨ v ∈ id :: stack) :
      v ∈ after.visited ∨ v ∈ after.unvisited (source.edgesFrom id).run ++ stack := by
    rw [mem_visited_visit]
    rcases hv with hv | hv
    · exact Or.inl (Or.inr hv)
    · exact (List.mem_cons.mp hv).imp Or.inl (List.mem_append_right _)
  refine ⟨fun p => ?_, fun v hv => ?_, fun v hv => ?_, fun r hr => hpop (h.known r hr),
    fun v hv w hw => ?_⟩
  · simp only [hafter, mem_results_visit, mem_visited_visit, h.results, or_and_right, exists_or,
      exists_eq_left]
    exact or_comm
  · rcases mem_visited_visit.mp hv with rfl | hv
    · exact ⟨r, hr, hbelow⟩
    · exact h.visited v hv
  · rcases List.mem_append.mp hv with hv | hv
    · exact ⟨r, hr, hbelow.tail (mem_unvisited.mp hv).1⟩
    · exact h.stacked v (List.mem_cons_of_mem _ hv)
  · rcases mem_visited_visit.mp hv with rfl | hv
    · by_cases hvisited : w ∈ after.visited
      · exact Or.inl hvisited
      · exact Or.inr (List.mem_append_left _ (mem_unvisited.mpr ⟨hw, hvisited⟩))
    · exact hpop (h.closed v hv w hw)

/-! ### Taking a whole subtree -/

/-- Without a limit, and with fuel for all edges that are left, the stack is worked off. -/
theorem Holds.collectFrom (hbounded : source.Bounded nodes) (hmax : limits.maxResults = 0)
    (h : Holds source roots stack collection)
    (hfuel : stack.length + edgesLeft source nodes collection ≤ fuel) :
    Holds source roots [] (collectFrom source limits fuel stack collection).run := by
  -- A node that is skipped leaves the stack, and a visit trades an edge for each new node.
  induction fuel generalizing stack collection with
  | zero =>
    obtain rfl : stack = [] := List.length_eq_zero_iff.mp (by omega)
    exact h
  | succ fuel ih =>
    cases stack with
    | nil => exact h
    | cons id stack =>
      rw [Collection.collectFrom, if_neg (by simp [isFull_of_maxResults hmax])]
      rw [List.length_cons] at hfuel
      by_cases hid : id ∈ collection.visited
      · rw [if_pos (Std.ExtTreeSet.mem_iff_contains.mp hid)]
        exact ih (h.skip hid) (by omega)
      · rw [if_neg fun hcontains => hid (Std.ExtTreeSet.mem_iff_contains.mpr hcontains)]
        have hleft := edgesLeft_visit hbounded (source.payloadsAt id).run hid
        have hnext := ih h.visit (by rw [List.length_append]; omega)
        exact hnext

/-- A collection takes a node and all below it. -/
theorem Holds.collect (hbounded : source.Bounded nodes) (hmax : limits.maxResults = 0)
    (h : Holds source roots [] collection) (id : Nat) :
    Holds source (fun r => roots r ∨ r = id) []
      (collection.collect source limits id).run := by
  refine Holds.collectFrom hbounded hmax ⟨h.results, fun v hv => ?_, fun v hv => ?_,
    fun r hr => ?_, fun v hv w hw => ?_⟩ ?_
  · obtain ⟨r, hr, hbelow⟩ := h.visited v hv
    exact ⟨r, Or.inl hr, hbelow⟩
  · exact ⟨id, Or.inr rfl, List.mem_singleton.mp hv ▸ .refl⟩
  · rcases hr with hr | rfl
    · exact Or.inl ((h.known r hr).resolve_right List.not_mem_nil)
    · exact Or.inr (List.mem_singleton_self _)
  · exact Or.inl ((h.closed v hv w hw).resolve_right List.not_mem_nil)
  · have hleft := edgesLeft_le collection hbounded
    rw [List.length_singleton]
    omega

end Collection

end SentenceSearch
