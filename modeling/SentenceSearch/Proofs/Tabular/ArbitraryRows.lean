import Mathlib.Algebra.Order.BigOperators.Group.Finset
import Mathlib.Order.Lattice.Nat
import SentenceSearch.Proofs.Automaton.Runs
import SentenceSearch.Proofs.Search.Alike
import SentenceSearch.Proofs.Search.Termination
import SentenceSearch.Proofs.Search.TreeKeys
import SentenceSearch.Proofs.Tabular.Export
import SentenceSearch.Proofs.Tabular.Groups

/-!
# Searches in arbitrary rows

Nothing is checked about the rows that a tree is made of. Edges may lead around in circles or to a
node that several edges lead to, two edges below a node may start with the same character, and some
may have no text at all. Still every search in them comes to an end, reads nothing but what is there
and takes no more steps than there are places to be at.

## Main definitions

* `TabularTree.withText` — the rows that make up the tree
* `TabularTree.targets`, `TabularTree.longestTo` — the nodes that rows lead to, with the length of
  the longest text on the way there
* `TabularTree.MatchingEnds`, `TabularTree.KeysEnd` — a search comes to an end within the bounds

## Main results

* `bounded_ofRows` — the tree has no more edges than its source says
* `card_places` — the number of places on the edges of the tree
* `searches_end` — both searches in arbitrary rows
-/

namespace SentenceSearch

namespace TabularTree

variable {P : Type} {edges rows : List EdgeRow} {payloads : List (PayloadRow P)}
  {table : SymbolTable} {edge : EdgeRecord} {row : EdgeRow} {v node offset : Nat}

/-- The rows with a text. The others are no edges of the tree. -/
def withText (edges : List EdgeRow) : List EdgeRow := edges.filter fun row => row.text ≠ ""

/-- The nodes that some rows lead to. -/
def targets (rows : List EdgeRow) : Finset Nat := (rows.map EdgeRow.target).toFinset

/-- The length of the longest text that leads to a node. -/
def longestTo (rows : List EdgeRow) (node : Nat) : Nat :=
  (rows.toFinset.filter fun row => row.target = node).sup fun row => row.text.length

/-! ### Edges -/

theorem map_snd_labelledRows (edges : List EdgeRow) :
    (labelledRows edges).map Prod.snd = withText edges := by
  rw [labelledRows, List.map_map]
  exact List.map_id _

theorem length_record (tree : TabularTree P) (row : EdgeRow) :
    (tree.record row).length = row.text.length := String.length_toList

/-- The edge of a row with a text has a label. -/
theorem fits_record (tree : TabularTree P) (h : row ∈ withText edges) :
    (tree.record row).Fits where
  start_lt := by
    have htext : row.text ≠ "" := of_decide_eq_true (List.mem_filter.mp h).2
    have hpos : 0 < row.text.toList.length :=
      List.length_pos_iff.mpr fun hnil => htext (String.toList_eq_nil_iff.mp hnil)
    exact hpos
  stop_le := le_rfl

/-- The edges below a node are those of its rows with a text. -/
theorem mem_recordsBelow_ofRows :
    edge ∈ (ofRows edges payloads table).recordsBelow v ↔
      ∃ row ∈ withText edges, row.source = v ∧ (ofRows edges payloads table).record row = edge := by
  have hrow (row : EdgeRow) :
      row ∈ ((labelledRows edges).filter fun entry => entry.1 == v).map Prod.snd ↔
        row ∈ withText edges ∧ row.source = v := by
    simp [labelledRows, withText, List.filter_map, Function.comp_def, and_assoc, and_comm]
  rw [recordsBelow, getD_edges_ofRows, List.mem_map]
  simp only [List.mem_mergeSort, hrow, and_assoc]

/-- There are no more edges than the source says. -/
theorem bounded_ofRows (edges : List EdgeRow) (payloads : List (PayloadRow P))
    (table : SymbolTable) :
    ((ofRows edges payloads table).source (m := Id)).Bounded
      ((labelledRows edges).map Prod.fst).toFinset := by
  have hchildren (v : Nat) :
      (((ofRows edges payloads table).source (m := Id)).childrenFrom v).length =
        ((labelledRows edges).filter fun entry => entry.1 == v).length := by
    change (((ofRows edges payloads table).recordsBelow v).map EdgeRecord.child).length = _
    rw [List.length_map, recordsBelow, List.length_map, getD_edges_ofRows, List.length_mergeSort,
      List.length_map]
  refine ⟨fun v hv => ?_, ?_⟩
  · rw [← List.length_eq_zero_iff, hchildren, List.length_eq_zero_iff, List.filter_eq_nil_iff]
    intro entry hentry hnode
    exact hv (List.mem_toFinset.mpr (eq_of_beq hnode ▸ List.mem_map_of_mem hentry))
  · set nodes := ((labelledRows edges).map Prod.fst).toFinset with hnodes
    have hperm := flatMap_filter_perm nodes.toList nodes.nodup_toList (labelledRows edges)
      fun entry hentry => Finset.mem_toList.mpr
        (List.mem_toFinset.mpr (List.mem_map_of_mem hentry))
    have hlength := hperm.length_eq
    have hcount := (flatten_edges_ofRows_perm edges payloads table).length_eq
    rw [List.length_flatMap, Finset.sum_map_toList] at hlength
    rw [List.length_map] at hcount
    simp only [hchildren, hlength]
    exact hcount.ge

/-! ### Places -/

theorem mem_targets : node ∈ targets rows ↔ ∃ row ∈ rows, row.target = node := by
  rw [targets, List.mem_toFinset, List.mem_map]

theorem length_le_longestTo (h : row ∈ rows) : row.text.length ≤ longestTo rows row.target :=
  Finset.le_sup (f := fun row : EdgeRow => row.text.length)
    (Finset.mem_filter.mpr ⟨List.mem_toFinset.mpr h, rfl⟩)

/-- The longest text to a node is one of those that lead there. -/
theorem exists_longestTo (h : node ∈ targets rows) :
    ∃ row ∈ rows, row.target = node ∧ longestTo rows node = row.text.length := by
  obtain ⟨row, hrow, rfl⟩ := mem_targets.mp h
  obtain ⟨longest, hmem, heq⟩ := Finset.exists_mem_eq_sup
    (rows.toFinset.filter fun other => other.target = row.target)
    ⟨row, Finset.mem_filter.mpr ⟨List.mem_toFinset.mpr hrow, rfl⟩⟩ fun other => other.text.length
  obtain ⟨hmem, htarget⟩ := Finset.mem_filter.mp hmem
  exact ⟨longest, List.mem_toFinset.mp hmem, htarget, heq⟩

/-- The places on the edges of a tree, each known by the child of its edge and by the offset. -/
def places (tree : TabularTree P) : Finset (Nat × Nat) :=
  (SuffixTree.placesOn (tree.edges.values.flatten.map tree.record)).toFinset

theorem card_places_le (tree : TabularTree P) :
    tree.places.card ≤ (tree.source (m := Id)).placeCount :=
  (List.toFinset_card_le _).trans_eq (SuffixTree.length_placesOn _)

/-- A place is known by a node and an offset up to the longest text that leads there. -/
theorem mem_places_ofRows :
    (node, offset) ∈ (ofRows edges payloads table).places ↔
      node ∈ targets (withText edges) ∧ offset ≤ longestTo (withText edges) node := by
  have hplace : (node, offset) ∈ (ofRows edges payloads table).places ↔
      ∃ row ∈ withText edges, row.target = node ∧ offset ≤ row.text.length := by
    rw [places, List.mem_toFinset, SuffixTree.placesOn, List.flatMap_map, List.mem_flatMap]
    refine exists_congr fun row => ?_
    rw [(flatten_edges_ofRows_perm edges payloads table).mem_iff, map_snd_labelledRows,
      List.mem_map]
    simp only [length_record, List.mem_range, Nat.lt_succ_iff, Prod.mk.injEq]
    constructor
    · rintro ⟨hrow, other, hoffset, htarget, rfl⟩
      exact ⟨hrow, htarget, hoffset⟩
    · rintro ⟨hrow, htarget, hoffset⟩
      exact ⟨hrow, offset, hoffset, htarget, rfl⟩
  rw [hplace]
  constructor
  · rintro ⟨row, hrow, rfl, hoffset⟩
    exact ⟨mem_targets.mpr ⟨row, hrow, rfl⟩, hoffset.trans (length_le_longestTo hrow)⟩
  · rintro ⟨hnode, hoffset⟩
    obtain ⟨row, hrow, htarget, hlongest⟩ := exists_longestTo hnode
    exact ⟨row, hrow, htarget, hlongest ▸ hoffset⟩

theorem card_places (edges : List EdgeRow) (payloads : List (PayloadRow P))
    (table : SymbolTable) :
    (ofRows edges payloads table).places.card =
      ∑ node ∈ targets (withText edges), (longestTo (withText edges) node + 1) := by
  rw [Finset.card_eq_sum_card_fiberwise (f := Prod.fst) (t := targets (withText edges))
    fun place hplace => (mem_places_ofRows.mp hplace).1]
  refine Finset.sum_congr rfl fun node hnode => ?_
  have hfiber : ((ofRows edges payloads table).places.filter fun place => place.1 = node) =
      (Finset.range (longestTo (withText edges) node + 1)).map
        ⟨Prod.mk node, Prod.mk_right_injective node⟩ := by
    ext ⟨other, offset⟩
    simp only [Finset.mem_filter, mem_places_ofRows, Finset.mem_map, Finset.mem_range,
      Nat.lt_succ_iff, Function.Embedding.coeFn_mk, Prod.mk.injEq]
    constructor
    · rintro ⟨⟨-, hoffset⟩, rfl⟩
      exact ⟨offset, hoffset, rfl, rfl⟩
    · rintro ⟨_, hoffset, rfl, rfl⟩
      exact ⟨⟨hnode, hoffset⟩, rfl⟩
  rw [hfiber, Finset.card_map, Finset.card_range]

/-! ### Cursors -/

/-- A place on an edge of the tree. -/
structure OnEdge (tree : TabularTree P) (edge : EdgeRecord) (offset : Nat) : Prop where
  below : ∃ v, edge ∈ tree.recordsBelow v
  offset_le : offset ≤ edge.length

theorem OnEdge.start {tree : TabularTree P} (h : edge ∈ tree.recordsBelow v) :
    tree.OnEdge edge 0 := ⟨⟨v, h⟩, Nat.zero_le _⟩

theorem OnEdge.next {tree : TabularTree P} (h : tree.OnEdge edge offset)
    (hinside : offset ≠ edge.length) : tree.OnEdge edge (offset + 1) :=
  ⟨h.below, lt_of_le_of_ne h.offset_le hinside⟩

theorem fits_of_mem_recordsBelow (h : edge ∈ (ofRows edges payloads table).recordsBelow v) :
    edge.Fits := by
  obtain ⟨row, hrow, -, rfl⟩ := mem_recordsBelow_ofRows.mp h
  exact fits_record _ hrow

theorem OnEdge.fits (h : (ofRows edges payloads table).OnEdge edge offset) : edge.Fits := by
  obtain ⟨v, hedge⟩ := h.below
  exact fits_of_mem_recordsBelow hedge

theorem OnEdge.mem_places (h : (ofRows edges payloads table).OnEdge edge offset) :
    (edge.child, offset) ∈ (ofRows edges payloads table).places := by
  obtain ⟨⟨v, hedge⟩, hoffset⟩ := h
  obtain ⟨row, hrow, -, rfl⟩ := mem_recordsBelow_ofRows.mp hedge
  rw [length_record] at hoffset
  exact mem_places_ofRows.mpr
    ⟨mem_targets.mpr ⟨row, hrow, rfl⟩, hoffset.trans (length_le_longestTo hrow)⟩

/-- Edges lead to the nodes that rows lead to. -/
theorem mem_targets_of_childrenFrom {w : Nat}
    (h : w ∈ ((ofRows edges payloads table).source (m := Id)).childrenFrom v) :
    w ∈ targets (withText edges) := by
  obtain ⟨edge, hedge, rfl⟩ := List.mem_map.mp h
  exact (mem_places_ofRows.mp (OnEdge.start hedge).mem_places).1

/-- The edge that starts with a character is one of those below the node. -/
theorem mem_recordsBelow_of_starting {tree : TabularTree P} {c : Char}
    (h : ((tree.source (m := Id)).edgeStarting v c).run = some edge) :
    edge ∈ tree.recordsBelow v := List.mem_of_find?_eq_some h

/-! ### Cursors of a search with an automaton -/

section Matching

variable {automaton : Automaton} {cursor next : MatchCursor}

/-- The spots of the states and places. -/
def matchSpots (tree : TabularTree P) (automaton : Automaton) : Finset MatchSpot :=
  (Finset.range automaton.stateCount ×ˢ tree.places).image fun spot =>
    ⟨spot.1, spot.2.1, spot.2.2⟩

theorem card_matchSpots_le (tree : TabularTree P) (automaton : Automaton) :
    (tree.matchSpots automaton).card ≤ automaton.stateCount * tree.places.card := by
  refine Finset.card_image_le.trans ?_
  rw [Finset.card_product, Finset.card_range]

/-- A cursor in a state of the automaton, at a place on an edge of the tree. -/
structure MatchFits (tree : TabularTree P) (automaton : Automaton) (cursor : MatchCursor) :
    Prop where
  state_lt : cursor.state < automaton.stateCount
  onEdge : tree.OnEdge cursor.edge cursor.offset

theorem MatchFits.mem_matchSpots (h : (ofRows edges payloads table).MatchFits automaton cursor) :
    cursor.spot ∈ (ofRows edges payloads table).matchSpots automaton :=
  Finset.mem_image.mpr ⟨(cursor.state, cursor.edge.child, cursor.offset), Finset.mem_product.mpr
    ⟨Finset.mem_range.mpr h.state_lt, h.onEdge.mem_places⟩, rfl⟩

/-- The moves from such a cursor lead to such cursors. -/
theorem MatchFits.move {tree : TabularTree P} (h : tree.MatchFits automaton cursor)
    (hrange : automaton.InRange)
    (hnext : next ∈ ((tree.source (m := Id)).matchTour automaton).moves cursor) :
    tree.MatchFits automaton next := by
  cases matchStep_of_mem_moves hnext with
  | empty t ht _ => exact ⟨hrange.epsilons_lt _ t ht, h.onEdge⟩
  | read t hinside ht _ => exact ⟨hrange.step_lt _ _ t ht, h.onEdge.next hinside⟩
  | enter edge hend hedge => exact ⟨h.state_lt, .start hedge⟩

end Matching

/-! ### Cursors of a search for keys -/

section Keys

open SearchKeys

variable {keys : List (List Char)} {cursor next start : KeyCursor}

/-- The spots of the places of the tree and of the keys after the first one. -/
def keySpots (tree : TabularTree P) (keys : List (List Char)) : Finset KeySpot :=
  (tree.places ×ˢ (SearchKeys.places 1 keys.tail).toFinset).image fun spot =>
    ⟨spot.1.1, spot.1.2, spot.2.1, spot.2.2⟩

/-- The end of all keys is one more place for a cursor, but the first key has one at least that no
cursor is at. -/
theorem card_keySpots_le (tree : TabularTree P) (hkeys : keys ≠ [])
    (hne : ∀ key ∈ keys, key ≠ []) :
    (tree.keySpots keys).card ≤ tree.places.card * (keys.map List.length).sum := by
  obtain ⟨key, keys, rfl⟩ := List.exists_cons_of_ne_nil hkeys
  have hpos := List.length_pos_iff.mpr (hne key List.mem_cons_self)
  refine Finset.card_image_le.trans ?_
  rw [Finset.card_product]
  refine Nat.mul_le_mul_left _ ((List.toFinset_card_le _).trans ?_)
  rw [length_places_eq_sum, List.tail_cons, List.map_cons, List.sum_cons]
  omega

/-- A cursor after the first key, at a place on an edge of the tree. -/
structure KeyFits (tree : TabularTree P) (keys : List (List Char)) (cursor : KeyCursor) :
    Prop where
  keyAt : KeyAt keys cursor.key cursor.pos
  key_pos : 0 < cursor.key
  onEdge : tree.OnEdge cursor.edge cursor.offset

theorem KeyFits.mem_keySpots (h : (ofRows edges payloads table).KeyFits keys cursor) :
    cursor.spot ∈ (ofRows edges payloads table).keySpots keys := by
  have hplace : (cursor.key, cursor.pos) ∈ SearchKeys.places 1 keys.tail := by
    obtain ⟨k, hk⟩ := Nat.exists_eq_add_one.mpr h.key_pos
    rw [hk, Nat.add_comm]
    apply mem_places
    have hat := h.keyAt
    rw [hk] at hat
    cases keys with
    | nil => exact absurd hat.le (by simp)
    | cons key keys =>
      exact ⟨Nat.le_of_succ_le_succ hat.le, fun hlt => hat.pos_lt (Nat.succ_lt_succ hlt),
        fun heq => hat.pos_eq (congrArg (· + 1) heq)⟩
  exact Finset.mem_image.mpr ⟨((cursor.edge.child, cursor.offset), (cursor.key, cursor.pos)),
    Finset.mem_product.mpr ⟨h.onEdge.mem_places, List.mem_toFinset.mpr hplace⟩, rfl⟩

/-- The moves from such a cursor lead to such cursors. -/
theorem KeyFits.move {tree : TabularTree P} (h : tree.KeyFits keys cursor)
    (hne : ∀ key ∈ keys, key ≠ [])
    (hnext : next ∈ ((tree.source (m := Id)).keyTour (ofKeys table keys) start).moves cursor) :
    tree.KeyFits keys next := by
  obtain ⟨hfinal, hstep, -⟩ := mem_keyTour_moves_iff.mp hnext
  rw [count_ofKeys] at hfinal
  have hk := lt_of_le_of_ne h.keyAt.le hfinal
  cases hstep with
  | read hinside hchar =>
    rw [SuffixTree.advance_ofKeys]
    refine ⟨h.keyAt.afterChar hk hne, ?_, h.onEdge.next hinside⟩
    have hpos := h.key_pos
    dsimp only [afterChar]
    split
    · exact Nat.succ_pos _
    · exact hpos
  | skip hinside hpos => exact ⟨h.keyAt, h.key_pos, h.onEdge.next hinside⟩
  | enter edge hend hedge hchar => exact ⟨h.keyAt, h.key_pos, .start hedge⟩

end Keys

/-! ### Whole searches -/

variable [Ord P] [Std.TransOrd P] {limits : SearchLimits} {automaton : Automaton}

/-- A search with an automaton comes to an end within its bounds. -/
structure MatchingEnds (tree : TabularTree P) (rows : List EdgeRow) (automaton : Automaton)
    (limits : SearchLimits) (cursors : List MatchCursor) (outcome : SearchOutcome P) : Prop where
  /-- It ends by itself. -/
  ends : (tree.source.matchLoop automaton).Ends MatchSearch.cursor? tree.source limits
    (.initial automaton (tree.recordsBelow SuffixTree.root)) cursors outcome
  /-- All cursors are at a place on a label, in a state of the automaton. -/
  inside : ∀ cursor ∈ cursors, cursor.state < automaton.stateCount ∧ cursor.edge.Fits ∧
    cursor.offset ≤ cursor.edge.length
  /-- No place is further down than the longest text to its node. -/
  place : ∀ cursor ∈ cursors, cursor.edge.child ∈ targets rows ∧
    cursor.offset ≤ longestTo rows cursor.edge.child
  /-- No two cursors are in one state at one place. -/
  nodup : (cursors.map MatchCursor.spot).Nodup
  /-- The steps are the cursors. -/
  states_eq : outcome.stats.states = cursors.length
  /-- There are no more of them than states and places. -/
  states_le : outcome.stats.states ≤
    automaton.stateCount * ∑ node ∈ targets rows, (longestTo rows node + 1)
  /-- The nodes that are collected are some of those that rows lead to. -/
  collected_le : outcome.stats.collected ≤ (targets rows).card

/-- A search with an automaton comes to an end. -/
theorem exists_ends_matchLoop (edges : List EdgeRow) (payloads : List (PayloadRow P))
    (table : SymbolTable) (limits : SearchLimits) (hrange : automaton.InRange) :
    ∃ cursors,
      ((ofRows edges payloads table).source.matchLoop automaton).Ends MatchSearch.cursor?
        (ofRows edges payloads table).source limits
        (.initial automaton ((ofRows edges payloads table).recordsBelow SuffixTree.root)) cursors
        ((ofRows edges payloads table).source.findMatching (m := Id) automaton limits).run ∧
      ((ofRows edges payloads table).source.matchTour automaton).Traces
        ((ofRows edges payloads table).MatchFits automaton)
        ((ofRows edges payloads table).matchSpots automaton).val 0 cursors := by
  set tree := ofRows edges payloads table with htree
  set source : TreeSource Id P := tree.source with hsource
  have hbounded : source.Bounded _ := bounded_ofRows edges payloads table
  have hfuel : (tree.matchSpots automaton).card ≤ automaton.stateCount * source.placeCount + 1 :=
    (tree.card_matchSpots_le automaton).trans
      ((Nat.mul_le_mul_left _ tree.card_places_le).trans (Nat.le_succ _))
  have hspots : ∀ c, tree.MatchFits automaton c →
      (source.matchTour automaton).spot c ∈ tree.matchSpots automaton :=
    fun c hc => hc.mem_matchSpots
  have haccounts : (source.matchTour automaton).Accounts (tree.MatchFits automaton)
      (tree.matchSpots automaton) (automaton.stateCount * source.placeCount + 1) 0 0
      (MatchSearch.initial (P := P) automaton (tree.recordsBelow SuffixTree.root)).agenda := by
    rw [MatchSearch.agenda_initial]
    refine Tour.Accounts.pushAll (Tour.accounts_empty hfuel) ?_ hspots
    intro cursor hcursor
    obtain ⟨edge, hedge, rfl⟩ := List.mem_map.mp hcursor
    exact ⟨hrange.start_lt, .start hedge⟩
  rw [TreeSource.findMatching_eq_run, ← zero_add (tree.matchSpots automaton).val]
  exact Tour.exists_ends_run (source.drives_matchLoop automaton) hbounded
    (fun c hc d hd => hc.move hrange hd) hspots haccounts

theorem exists_matchingEnds (edges : List EdgeRow) (payloads : List (PayloadRow P))
    (table : SymbolTable) (limits : SearchLimits) (hrange : automaton.InRange) :
    ∃ cursors, (ofRows edges payloads table).MatchingEnds (withText edges) automaton limits cursors
      ((ofRows edges payloads table).source.findMatching (m := Id) automaton limits).run := by
  obtain ⟨cursors, hends, htraces⟩ :=
    exists_ends_matchLoop edges payloads table limits hrange
  set tree := ofRows edges payloads table with htree
  set initial : MatchSearch P := .initial automaton (tree.recordsBelow SuffixTree.root)
    with hinitial
  have hdrives := (tree.source (m := Id)).drives_matchLoop automaton
  have hplace := fun cursor hcursor => mem_places_ofRows.mp
    (htraces.fits cursor hcursor).onEdge.mem_places
  have hzero : initial.states = 0 := MatchSearch.states_pushAll _ _
  have hstates := hdrives.states_eq hends
  rw [show ((tree.source (m := Id)).matchLoop automaton).states initial = 0 from hzero,
    zero_add] at hstates
  refine ⟨cursors, hends, fun c hc => ?_, hplace, htraces.nodup, hstates, ?_, ?_⟩
  · have hfits := htraces.fits c hc
    exact ⟨hfits.state_lt, hfits.onEdge.fits, hfits.onEdge.offset_le⟩
  · rw [hstates, ← card_places edges payloads table]
    exact htraces.length_le.trans (tree.card_matchSpots_le automaton)
  · have hempty : initial.collection = .empty := (MatchSearch.agenda_pushAll _ _).2
    refine hdrives.collected_le hends (fun v w => mem_targets_of_childrenFrom)
      (fun c hc => (hplace c hc).1) fun v hv => ?_
    change v ∈ initial.collection.visited at hv
    rw [hempty] at hv
    exact absurd hv Std.ExtTreeSet.not_mem_empty

/-- A search for keys comes to an end within its bounds. -/
structure KeysEnd (tree : TabularTree P) (rows : List EdgeRow) (known : SymbolTable)
    (keys : List (List Char)) (limits : SearchLimits) (cursors : List KeyCursor)
    (outcome : SearchOutcome P) : Prop where
  /-- It ends by itself. -/
  ends : tree.source.EndsKeys known limits keys cursors outcome
  /-- All cursors are at a place on a label, before a character of a key or after all keys. -/
  inside : ∀ cursor ∈ cursors, KeyAt (keys.filter (!·.isEmpty)) cursor.key cursor.pos ∧
    cursor.edge.Fits ∧ cursor.offset ≤ cursor.edge.length
  /-- No place is further down than the longest text to its node. -/
  place : ∀ cursor ∈ cursors, cursor.edge.child ∈ targets rows ∧
    cursor.offset ≤ longestTo rows cursor.edge.child
  /-- No two cursors after the first one are as far with the keys at one place. -/
  nodup : (cursors.tail.map KeyCursor.spot).Nodup
  /-- The steps are the cursors. -/
  states_eq : outcome.stats.states = cursors.length
  /-- There is one more of them at most than places and characters of keys. -/
  states_le : outcome.stats.states ≤
    (∑ node ∈ targets rows, (longestTo rows node + 1)) * (keys.map List.length).sum + 1
  /-- The nodes that are collected are some of those that rows lead to. -/
  collected_le : outcome.stats.collected ≤ (targets rows).card

/-- A search that gives up early has looked at no cursor. -/
theorem KeysEnd.of_nothing {tree : TabularTree P} {known : SymbolTable} {keys : List (List Char)}
    {pruned : Nat} (h : tree.source.EndsKeys known limits keys [] (.nothing pruned)) :
    tree.KeysEnd rows known keys limits [] (.nothing pruned) where
  ends := h
  inside := List.forall_mem_nil _
  place := List.forall_mem_nil _
  nodup := List.nodup_nil
  states_eq := rfl
  states_le := Nat.zero_le _
  collected_le := Nat.zero_le _

/-- From a place on an edge the search for the keys after the first one comes to an end. -/
theorem exists_ends_keyLoop {keys : List (List Char)} (hkeys : keys ≠ [])
    (hne : ∀ key ∈ keys, key ≠ []) (known : SymbolTable) (limits : SearchLimits)
    (hstart : (ofRows edges payloads table).OnEdge edge offset) :
    ∃ cursors,
      ((ofRows edges payloads table).source.keyLoop (.ofKeys known keys)).Ends KeySearch.cursor?
        (ofRows edges payloads table).source limits ⟨[⟨edge, offset, 1, 0⟩], ∅, .empty, 0, 0⟩
        cursors ((ofRows edges payloads table).source.searchAfter (m := Id) (.ofKeys known keys)
          limits (.found edge offset)).run ∧
      ((ofRows edges payloads table).source.keyTour (.ofKeys known keys)
          ⟨edge, offset, 1, 0⟩).Traces
        ((ofRows edges payloads table).KeyFits keys)
        ({⟨edge.child, offset, 1, 0⟩} + ((ofRows edges payloads table).keySpots keys).val) 0
        cursors := by
  set tree := ofRows edges payloads table with htree
  set source : TreeSource Id P := tree.source with hsource
  have hbounded : source.Bounded _ := bounded_ofRows edges payloads table
  have hfuel : (tree.keySpots keys).card + 1 ≤
      source.placeCount * (SearchKeys.ofKeys known keys).placeCount + 2 := by
    rw [← SearchKeys.length_places (k := 1), SearchKeys.length_places_eq_sum]
    have hplaces := Nat.mul_le_mul tree.card_places_le (Nat.le_succ (keys.map List.length).sum)
    exact Nat.succ_le_succ (((tree.card_keySpots_le hkeys hne).trans hplaces).trans (Nat.le_succ _))
  have hfits : tree.KeyFits keys ⟨edge, offset, 1, 0⟩ :=
    ⟨keyAt_one hkeys hne, Nat.zero_lt_one, hstart⟩
  have haccounts :
      (source.keyTour (.ofKeys known keys) ⟨edge, offset, 1, 0⟩).Accounts _ _ _ _ _ _ :=
    Tour.accounts_singleton hfits hfuel
  refine Tour.exists_ends_run (source.drives_keyLoop _ _) hbounded
    (fun c hc d hd => hc.move hne hd) (fun c hc => hc.mem_keySpots) ?_
  rw [KeySearch.agenda, spotsOf_empty]
  exact haccounts

section Keys

variable {known : SymbolTable} {keys : List (List Char)}

/-- Where the first key ends on an edge, the search goes on from there to its end. -/
theorem exists_keysEnd_of_descends
    (hfound : SearchKeys.ofList? known keys = some (.ofKeys known (keys.filter (!·.isEmpty))))
    (hcount : (SearchKeys.ofKeys known (keys.filter (!·.isEmpty))).count ≠ 0)
    (hdescends : ((ofRows edges payloads table).source (m := Id)).Descends
      (.ofKeys known (keys.filter (!·.isEmpty))) SuffixTree.root 0 (.found edge offset)) :
    ∃ cursors, (ofRows edges payloads table).KeysEnd (withText edges) known keys limits cursors
      ((ofRows edges payloads table).source.searchAfter (m := Id)
        (.ofKeys known (keys.filter (!·.isEmpty))) limits (.found edge offset)).run := by
  set kept := keys.filter (!·.isEmpty) with hkept
  have hne : ∀ key ∈ kept, key ≠ [] := ne_nil_of_mem_filter keys
  have hkeys : kept ≠ [] := fun hnil => hcount (by rw [hnil]; rfl)
  obtain ⟨⟨v, c, hedge⟩, hoffset⟩ := hdescends.found_place rfl
  have hmem := mem_recordsBelow_of_starting hedge
  rw [(fits_of_mem_recordsBelow hmem).length_label] at hoffset
  obtain ⟨cursors, hends, htraces⟩ :=
    exists_ends_keyLoop hkeys hne known limits ⟨⟨v, hmem⟩, hoffset⟩
  set tree := ofRows edges payloads table with htree
  set source : TreeSource Id P := tree.source with hsource
  have hdrives := source.drives_keyLoop (.ofKeys known kept) ⟨edge, offset, 1, 0⟩
  have hplace := fun cursor hcursor => mem_places_ofRows.mp
    (htraces.fits cursor hcursor).onEdge.mem_places
  have hstates := hdrives.states_eq hends
  rw [show (source.keyLoop (.ofKeys known kept)).states _ = 0 from rfl, zero_add] at hstates
  refine ⟨cursors, .searched hfound hcount hdescends hends, fun c hc => ?_, hplace, ?_, hstates, ?_,
    ?_⟩
  · have hfits := htraces.fits c hc
    exact ⟨hfits.keyAt, hfits.onEdge.fits, hfits.onEdge.offset_le⟩
  · cases cursors with
    | nil => exact List.nodup_nil
    | cons cursor cursors =>
      obtain rfl := Option.some.inj hends.cursor?_eq
      have htail :
          (source.keyTour (.ofKeys known kept) ⟨edge, offset, 1, 0⟩).Traces _ _ 0 cursors :=
        Tour.Traces.tail (c := ⟨edge, offset, 1, 0⟩) htraces
      exact htail.nodup
  · have hlength := htraces.length_le
    have hcard := tree.card_keySpots_le hkeys hne
    rw [Multiset.card_add, Multiset.card_singleton, Nat.add_comm] at hlength
    rw [sum_length_filter, card_places] at hcard
    rw [hstates]
    exact hlength.trans (Nat.succ_le_succ hcard)
  · refine hdrives.collected_le hends (fun v w => mem_targets_of_childrenFrom)
      (fun c hc => (hplace c hc).1) fun v hv => ?_
    exact absurd hv Std.ExtTreeSet.not_mem_empty

theorem exists_keysEnd (edges : List EdgeRow) (payloads : List (PayloadRow P))
    (table known : SymbolTable) (keys : List (List Char)) (limits : SearchLimits) :
    ∃ cursors, (ofRows edges payloads table).KeysEnd (withText edges) known keys limits cursors
      ((ofRows edges payloads table).source.findKeys (m := Id) known limits keys).run := by
  rw [TreeSource.findKeys_eq]
  cases hlist : SearchKeys.ofList? known keys with
  | none => exact ⟨[], .of_nothing (.unknown hlist)⟩
  | some found =>
    dsimp only
    by_cases hcount : found.count = 0
    · rw [if_pos hcount]
      exact ⟨[], .of_nothing (.blank hlist hcount)⟩
    · rw [if_neg hcount]
      obtain rfl := (SearchKeys.ofList?_eq_some_iff.mp hlist).2
      set found := SearchKeys.ofKeys known (keys.filter (!·.isEmpty)) with hfound
      set source : TreeSource Id P := (ofRows edges payloads table).source with hsource
      have hlabels {id c edge} (hedge : (source.edgeStarting id c).run = some edge) :
          edge.label ≠ [] := by
        have hfits := fits_of_mem_recordsBelow (mem_recordsBelow_of_starting hedge)
        exact List.length_pos_iff.mp (hfits.length_label ▸ hfits.length_pos)
      have hkey : found.key 0 ≠ #[] := by
        rw [hfound, SearchKeys.count_ofKeys] at hcount
        obtain ⟨key, kept, hkept⟩ :=
          List.exists_cons_of_ne_nil (mt List.length_eq_zero_iff.mpr hcount)
        have hne := ne_nil_of_mem_filter keys key (hkept ▸ List.mem_cons_self)
        rw [hfound, SearchKeys.key_ofKeys, hkept]
        simpa using hne
      have hdescends := source.descends_descend hlabels hkey
      rw [Id.run_bind]
      generalize (source.descend found).run = descent at hdescends ⊢
      cases descent with
      | missing => exact ⟨[], .of_nothing (.missing hlist hcount hdescends)⟩
      | pruned => exact ⟨[], .of_nothing (.pruned hlist hcount hdescends)⟩
      | found edge offset => exact exists_keysEnd_of_descends hlist hcount hdescends

end Keys

end TabularTree

open TabularTree

/-- Whatever the rows of a tree are, the edges that a search reads have a label, and both searches
come to an end, within what the labels are long and the keys and automata are large. -/
theorem searches_end {P : Type} [Ord P] [Std.TransOrd P] (edges : List EdgeRow)
    (payloads : List (PayloadRow P)) (table : SymbolTable) (limits : SearchLimits) :
    (∀ v, ∀ edge ∈ (ofRows edges payloads table).recordsBelow v, edge.Fits) ∧
    (∀ automaton : Automaton, automaton.InRange →
      ∃ cursors, (ofRows edges payloads table).MatchingEnds (withText edges) automaton limits
        cursors ((ofRows edges payloads table).source.findMatching (m := Id) automaton limits).run) ∧
    ∀ known keys,
      ∃ cursors, (ofRows edges payloads table).KeysEnd (withText edges) known keys limits cursors
        ((ofRows edges payloads table).source.findKeys (m := Id) known limits keys).run :=
  ⟨fun _ _ => fits_of_mem_recordsBelow,
    fun _ hrange => exists_matchingEnds edges payloads table limits hrange,
    fun known keys => exists_keysEnd edges payloads table known keys limits⟩

/-- Two rows that lead to one node in different ways, a way back, a row that leads to where it comes
from, one that leads nowhere, and one without a text. -/
private def tangled : List EdgeRow :=
  [⟨0, 1, "ab", 0⟩, ⟨0, 1, "acd", 3⟩, ⟨1, 0, "c", 3⟩, ⟨1, 1, "a", 3⟩, ⟨0, 9, "ab", 3⟩,
    ⟨1, 2, "", 3⟩]

/-- An automaton that accepts two characters. -/
private def twoCharacters : Automaton where
  states := #[⟨.standard ∅ (some ⟨1, 0⟩), []⟩, ⟨.standard ∅ (some ⟨2, 0⟩), []⟩, .blank]
  start := 0
  accept := 2

/-- Both searches in tangled rows. -/
theorem searches_end_tangled :
    twoCharacters.InRange ∧
    (∃ cursors, (ofRows tangled [⟨1, 7⟩] (.ofList [('a', 1), ('c', 2)])).MatchingEnds
      (withText tangled) twoCharacters .unlimited cursors
      ((ofRows tangled [⟨1, 7⟩] (.ofList [('a', 1), ('c', 2)])).source.findMatching (m := Id)
        twoCharacters .unlimited).run) ∧
    ∃ cursors, (ofRows tangled [⟨1, 7⟩] (.ofList [('a', 1), ('c', 2)])).KeysEnd (withText tangled)
      (.ofList [('a', 1), ('c', 2)]) [['a'], ['c', 'a']] .unlimited cursors
      ((ofRows tangled [⟨1, 7⟩] (.ofList [('a', 1), ('c', 2)])).source.findKeys (m := Id)
        (.ofList [('a', 1), ('c', 2)]) .unlimited [['a'], ['c', 'a']]).run := by
  have hrange : twoCharacters.InRange := by
    refine ⟨by decide, fun q => ?_, fun q c => ?_⟩
    · rcases q with _ | _ | _ | q <;> simp [twoCharacters, Automaton.epsilons, Automaton.state,
        State.blank]
    · rcases q with _ | _ | _ | q <;> simp [twoCharacters, Automaton.step, Automaton.state,
        Automaton.stateCount, State.step, State.blank]
  obtain ⟨-, hmatching, hkeys⟩ :=
    searches_end tangled [⟨1, 7⟩] (.ofList [('a', 1), ('c', 2)]) .unlimited
  exact ⟨hrange, hmatching _ hrange, hkeys _ _⟩

end SentenceSearch
