import Mathlib.Order.Compare
import SentenceSearch.Pattern.Compile
import SentenceSearch.Proofs.Search.Alike
import SentenceSearch.Proofs.Search.TreePlaces
import SentenceSearch.Proofs.Tabular.Groups

/-!
# A suffix tree and the tree made of its rows

A suffix tree can be exported as rows, and the rows make a tree again, in whatever order they come.
A search does not notice the difference. The edges below a node are the same in the same order, for
they start with different characters. The masks are the same too, though they are computed from
different texts: an edge of the suffix tree is a part of a text that goes on past its end, while a
row has nothing but the label. In an annotated tree whatever follows the label is in the mask below
the child already, and otherwise the masks are full anyway.

## Main results

* `Labelled.recordStarting_eq` — the edge with a first character is the one among those below
* `Records.alike_record` — an edge and its row look the same
* `Records.alike_source` — the two trees look the same
* `search_ofRows` — every search has the same outcome on both
-/

namespace SentenceSearch

namespace SuffixTree

variable {P : Type} {tree : SuffixTree P} {spell : Nat → List Char} {ends : List Char → Array P}
  {table : SymbolTable} {v e : Nat} {c : Char} {edge : TreeEdge}

/-! ### Edges by their first characters -/

theorem EdgeFits.fits_record (h : EdgeFits tree spell v c edge) : (tree.record edge).Fits :=
  ⟨h.start_lt, h.stop_le⟩

theorem EdgeFits.firstChar_record (h : EdgeFits tree spell v c edge) :
    (tree.record edge).firstChar = c := h.first

/-- The edge that starts with a character is the one among those below the node that does. -/
theorem Labelled.recordStarting_eq (h : Labelled tree spell) (v : Nat) (c : Char) :
    tree.recordStarting v c = firstStarting c (tree.recordsBelow v) := by
  cases hfound : firstStarting c (tree.recordsBelow v) with
  | none =>
    cases he : (tree.node v).edges[c]? with
    | none =>
      rw [recordStarting, he]
      rfl
    | some e =>
      -- An edge that is filed under the character starts with it.
      have hmem : tree.record (tree.edge e) ∈ tree.recordsBelow v :=
        List.mem_map_of_mem (mem_edgesBelow.mpr ⟨c, e, he, rfl⟩)
      have hother := List.find?_eq_none.mp hfound _ hmem
      exact absurd (beq_of_eq (h.fits he).firstChar_record) hother
  | some record =>
    obtain ⟨edge, hedge, rfl⟩ := List.mem_map.mp (List.mem_of_find?_eq_some hfound)
    obtain ⟨d, e, he, rfl⟩ := mem_edgesBelow.mp hedge
    have hchar : (tree.record (tree.edge e)).firstChar = c :=
      eq_of_beq (List.find?_some (p := fun edge : EdgeRecord => edge.firstChar == c) hfound)
    obtain rfl := (h.fits he).firstChar_record.symm.trans hchar
    rw [recordStarting, he]
    rfl

/-- The edges filed below the nodes are all edges of the tree. -/
theorem Labelled.flatMap_values_perm (h : Labelled tree spell) :
    ((List.range tree.nodeCount).flatMap fun v => (tree.node v).edges.values).Perm
      (List.range tree.edgeCount) := by
  have hnodup : ((List.range tree.nodeCount).flatMap fun v =>
      (tree.node v).edges.values).Nodup := by
    refine List.nodup_flatMap.mpr ⟨fun v _ => h.nodup_values v, ?_⟩
    refine List.nodup_range.imp ?_
    intro u v hne e hu hv
    obtain ⟨c, hc⟩ := mem_values_iff.mp hu
    obtain ⟨d, hd⟩ := mem_values_iff.mp hv
    exact hne (h.parent_unique hc hd).1
  rw [List.perm_ext_iff_of_nodup hnodup List.nodup_range]
  intro e
  rw [List.mem_flatMap, List.mem_range]
  constructor
  · rintro ⟨v, -, he⟩
    obtain ⟨c, hc⟩ := mem_values_iff.mp he
    exact h.edge_lt hc
  · intro he
    obtain ⟨v, c, hfiled⟩ := h.filed he
    exact ⟨v, List.mem_range.mpr hfiled.lt, mem_values_iff.mpr ⟨c, hfiled⟩⟩

theorem toList_edges_eq (tree : SuffixTree P) :
    tree.edges.toList = (List.range tree.edgeCount).map tree.edge := by
  apply List.ext_getElem
  · simp [edgeCount]
  · intro i hi hi'
    simp [edge, Array.getD_eq_getD_getElem?, Array.getElem?_eq_getElem (Array.length_toList ▸ hi)]

/-- The edges below the nodes are all edges of the tree. -/
theorem Labelled.flatMap_edgesBelow_perm (h : Labelled tree spell) :
    ((List.range tree.nodeCount).flatMap tree.edgesBelow).Perm tree.edges.toList := by
  have hperm := h.flatMap_values_perm.map tree.edge
  rw [List.map_flatMap] at hperm
  rw [toList_edges_eq]
  exact hperm

/-! ### Rows -/

/-- The rows below a node are in order of their first characters. -/
theorem Labelled.pairwise_edgeRow (h : Labelled tree spell) (v : Nat) :
    ((tree.edgesBelow v).map (tree.edgeRow v)).Pairwise fun a b =>
      TabularTree.firstChar a < TabularTree.firstChar b := by
  have hfirst {c e} (he : tree.Filed v c e) :
      TabularTree.firstChar (tree.edgeRow v (tree.edge e)) = c := by
    obtain ⟨rest, hlabel⟩ := (h.fits he).label_eq_cons
    simp [TabularTree.firstChar, edgeRow, hlabel]
  rw [edgesBelow, List.map_map, List.pairwise_map]
  refine (pairwise_values_lt (tree.node v).edges).imp ?_
  rintro e e' ⟨c, d, hlt, he, he'⟩
  have hlt : c < d := compare_lt_iff_lt.mp hlt
  rwa [← hfirst he, ← hfirst he'] at hlt

theorem Labelled.text_edgeRow_ne (h : Labelled tree spell) {edge : TreeEdge}
    (hedge : edge ∈ tree.edgesBelow v) : (tree.edgeRow v edge).text ≠ "" := by
  obtain ⟨c, e, he, rfl⟩ := mem_edgesBelow.mp hedge
  obtain ⟨rest, hlabel⟩ := (h.fits he).label_eq_cons
  simp [edgeRow, hlabel]

/-- No row is dropped. -/
theorem Labelled.labelledRows_rows (h : Labelled tree spell) :
    TabularTree.labelledRows tree.rows.edges =
      tree.rows.edges.map fun row => (row.source, row) := by
  have hfilter : (tree.rows.edges.filter fun row => row.text ≠ "") = tree.rows.edges := by
    rw [List.filter_eq_self]
    intro row hrow
    obtain ⟨v, -, hrow⟩ := List.mem_flatMap.mp hrow
    obtain ⟨edge, hedge, rfl⟩ := List.mem_map.mp hrow
    exact decide_eq_true (h.text_edgeRow_ne hedge)
  rw [TabularTree.labelledRows, hfilter]

/-- What only one number in a range contributes to. -/
theorem flatMap_range_eq {α : Type} {f : Nat → List α} (h : ∀ i, i ≠ v → f i = []) (n : Nat) :
    (List.range n).flatMap f = if v < n then f v else [] := by
  induction n with
  | zero => rfl
  | succ n ih =>
    rw [List.range_succ, List.flatMap_append, ih, List.flatMap_singleton]
    rcases Nat.lt_trichotomy v n with hlt | rfl | hlt
    · rw [if_pos hlt, if_pos (Nat.lt_succ_of_lt hlt), h n hlt.ne', List.append_nil]
    · rw [if_neg (Nat.lt_irrefl v), if_pos (Nat.lt_succ_self v), List.nil_append]
    · rw [if_neg (Nat.not_lt_of_lt hlt), if_neg (by omega), h n hlt.ne, List.append_nil]

theorem edgesBelow_of_nodeCount_le (hv : tree.nodeCount ≤ v) : tree.edgesBelow v = [] := by
  rw [edgesBelow, node_of_nodeCount_le hv]
  rfl

/-- The rows of a node are those of the edges below it. -/
theorem filter_rows (tree : SuffixTree P) (v : Nat) :
    (tree.rows.edges.filter fun row => row.source == v) =
      (tree.edgesBelow v).map (tree.edgeRow v) := by
  change ((List.range tree.nodeCount).flatMap fun u =>
    (tree.edgesBelow u).map (tree.edgeRow u)).filter _ = _
  rw [List.filter_flatMap, flatMap_range_eq (v := v)]
  · by_cases hv : v < tree.nodeCount
    · rw [if_pos hv, List.filter_eq_self]
      intro row hrow
      obtain ⟨edge, -, rfl⟩ := List.mem_map.mp hrow
      exact beq_self_eq_true v
    · rw [if_neg hv, edgesBelow_of_nodeCount_le (Nat.le_of_not_lt hv)]
      rfl
  · intro u hne
    rw [List.filter_eq_nil_iff]
    intro row hrow
    obtain ⟨edge, -, rfl⟩ := List.mem_map.mp hrow
    simpa [edgeRow] using hne

/-- The payload rows of a node are its payloads. -/
theorem mem_rows_payloads (tree : SuffixTree P) {p : P} :
    ⟨v, p⟩ ∈ tree.rows.payloads ↔ p ∈ (tree.node v).payloads.toList := by
  change _ ∈ (List.range tree.nodeCount).flatMap _ ↔ _
  rw [List.mem_flatMap]
  constructor
  · rintro ⟨u, -, hp⟩
    obtain ⟨q, hq, heq⟩ := List.mem_map.mp hp
    cases heq
    exact hq
  · intro hp
    refine ⟨v, ?_, List.mem_map_of_mem hp⟩
    by_contra hv
    rw [List.mem_range, Nat.not_lt] at hv
    rw [node_of_nodeCount_le hv] at hp
    cases hp

/-! ### Edges that look the same -/

theorem label_record_row (rows : TabularTree P) (row : EdgeRow) :
    (rows.record row).label = row.text.toList := by
  simp [TabularTree.record, EdgeRecord.label, Sentence.slice, Sentence.ofText, Sentence.size]

/-- The mask at a place on the edge of a row. -/
theorem partialMask_record_row (rows : TabularTree P) (row : EdgeRow) (offset : Nat) :
    (rows.record row).partialMask offset =
      if offset < row.text.toList.length then
        row.childMask ||| rows.table.maskOf (row.text.toList.drop offset)
      else row.childMask := by
  have hlength : (rows.record row).length = row.text.toList.length := Nat.sub_zero _
  have hmask : (rows.record row).text.maskAt ((rows.record row).start + offset) =
      rows.table.maskOf (row.text.toList.drop offset) := by
    rw [← Sentence.maskAt_ofText]
    exact congrArg _ (Nat.zero_add offset)
  rw [EdgeRecord.partialMask, hlength, hmask]
  rfl

/-- The mask at a place on an edge is the one that its row gives. -/
theorem Records.partialMask_eq (h : Records table tree spell ends) (rows : TabularTree P)
    (htable : rows.table = table) (he : tree.Filed v c e) {offset : Nat}
    (hoffset : offset ≤ (tree.edge e).length) :
    (tree.record (tree.edge e)).partialMask offset =
      (rows.record (tree.edgeRow v (tree.edge e))).partialMask offset := by
  cases hannotated : tree.annotated with
  | true =>
    have hlabelled := h.settled.stores.labelled
    have hlt := hlabelled.edge_lt he
    have hlength := (hlabelled.fits he).length_label
    have hrow : (tree.edgeRow v (tree.edge e)).text.toList = tree.label (tree.edge e) :=
      String.toList_ofList
    have hchild : (tree.edgeRow v (tree.edge e)).childMask = (tree.edge e).childMask :=
      if_pos hannotated
    have hexact := h.exactMasks hannotated
    rw [partialMask_record_row, hrow, hchild, htable, hlength]
    -- Both masks are those of what can be reached from the place.
    apply (hexact.onward e hlt offset (hlength ▸ hoffset)).unique
    split
    · apply ((hexact.child e hlt).or (table.isMaskOf_maskOf _)).congr
      intro d
      exact or_comm
    · rename_i hend
      apply (hexact.child e hlt).congr
      intro d
      rw [List.drop_eq_nil_of_le (hlength ▸ Nat.le_of_not_lt hend)]
      simp
  | false =>
    have hchild : (tree.record (tree.edge e)).childMask = Mask.full :=
      if_neg (Bool.eq_false_iff.mp hannotated)
    have hrow : (rows.record (tree.edgeRow v (tree.edge e))).childMask = Mask.full := hchild
    rw [EdgeRecord.partialMask_eq_full hchild, EdgeRecord.partialMask_eq_full hrow]

/-- An edge and its row look the same to a search. -/
theorem Records.alike_record (h : Records table tree spell ends) (rows : TabularTree P)
    (htable : rows.table = table) (hedge : edge ∈ tree.edgesBelow v) :
    (tree.record edge).Alike (rows.record (tree.edgeRow v edge)) := by
  obtain ⟨c, e, he, rfl⟩ := mem_edgesBelow.mp hedge
  have hfit := h.settled.stores.labelled.fits he
  have hlabel : (rows.record (tree.edgeRow v (tree.edge e))).label = tree.label (tree.edge e) :=
    (label_record_row rows _).trans String.toList_ofList
  refine ⟨rfl, hlabel.symm, hfit.fits_record, ⟨?_, Nat.le_refl _⟩, ?_⟩
  · have hpos := hfit.length_pos
    rwa [← hfit.length_label, ← hlabel, label_record_row] at hpos
  · intro offset hoffset
    exact h.partialMask_eq rows htable he hoffset

/-! ### Trees that look the same -/

section Reloaded

variable {edges : List EdgeRow} {payloads : List (PayloadRow P)}

/-- Whatever the order of the rows, those of a node are in the order of the edges below it. -/
theorem Labelled.getD_edges_ofRows_eq (h : Labelled tree spell)
    (hedges : edges.Perm tree.rows.edges) (v : Nat) :
    (TabularTree.ofRows edges payloads table).edges.getD v [] =
      (tree.edgesBelow v).map (tree.edgeRow v) := by
  rw [TabularTree.getD_edges_ofRows]
  apply TabularTree.mergeSort_eq_of_perm
  · have hperm : (TabularTree.labelledRows edges).Perm
        (TabularTree.labelledRows tree.rows.edges) := (hedges.filter _).map _
    rw [← filter_rows]
    rw [h.labelledRows_rows] at hperm
    have hrows := (hperm.filter fun entry => entry.1 == v).map Prod.snd
    rw [List.filter_map, List.map_map] at hrows
    exact hrows.trans (List.Perm.of_eq (List.map_id _))
  · exact h.pairwise_edgeRow v

theorem Labelled.flatten_edges_ofRows_perm (h : Labelled tree spell)
    (hedges : edges.Perm tree.rows.edges) (payloads : List (PayloadRow P)) (table : SymbolTable) :
    (TabularTree.ofRows edges payloads table).edges.values.flatten.Perm tree.rows.edges := by
  have hrows : ((TabularTree.labelledRows edges).map Prod.snd).Perm
      ((TabularTree.labelledRows tree.rows.edges).map Prod.snd) := ((hedges.filter _).map _).map _
  rw [h.labelledRows_rows, List.map_map] at hrows
  exact (TabularTree.flatten_edges_ofRows_perm edges payloads table).trans
    (hrows.trans (List.Perm.of_eq (List.map_id _)))

/-- There are as many rows as edges, and their labels are as long. -/
theorem Records.map_length_perm (h : Records table tree spell ends)
    (hedges : edges.Perm tree.rows.edges) (payloads : List (PayloadRow P)) :
    ((TabularTree.ofRows edges payloads table).edges.values.flatten.map fun row =>
      ((TabularTree.ofRows edges payloads table).record row).length + 1).Perm
      (tree.edges.toList.map fun edge => (tree.record edge).length + 1) := by
  set rows := TabularTree.ofRows edges payloads table with hrows
  have hlabelled := h.settled.stores.labelled
  have hsame : ∀ v, (tree.edgesBelow v).map
      (fun edge => (rows.record (tree.edgeRow v edge)).length + 1) =
      (tree.edgesBelow v).map fun edge => (tree.record edge).length + 1 := by
    intro v
    apply List.map_congr_left
    intro edge hedge
    rw [(h.alike_record rows rfl hedge).length_eq]
  have hexport : tree.rows.edges.map (fun row => (rows.record row).length + 1) =
      ((List.range tree.nodeCount).flatMap tree.edgesBelow).map fun edge =>
        (tree.record edge).length + 1 := by
    change ((List.range tree.nodeCount).flatMap fun v =>
      (tree.edgesBelow v).map (tree.edgeRow v)).map _ = _
    rw [List.map_flatMap, List.map_flatMap]
    apply List.flatMap_congr
    intro v _
    rw [List.map_map, ← hsame]
    rfl
  have hperm := (hlabelled.flatten_edges_ofRows_perm hedges payloads table).map fun row =>
    (rows.record row).length + 1
  rw [hexport] at hperm
  exact hperm.trans (hlabelled.flatMap_edgesBelow_perm.map _)

/-- A suffix tree and the tree made of its rows look the same to a search. -/
theorem Records.alike_source (h : Records table tree spell ends)
    (hedges : edges.Perm tree.rows.edges) (hpayloads : payloads.Perm tree.rows.payloads) :
    TreeSource.Alike tree.source (TabularTree.ofRows edges payloads table).source := by
  have hlabelled := h.settled.stores.labelled
  have hbelow : ∀ v, List.Forall₂ EdgeRecord.Alike (tree.recordsBelow v)
      ((TabularTree.ofRows edges payloads table).recordsBelow v) := by
    intro v
    rw [recordsBelow, TabularTree.recordsBelow, hlabelled.getD_edges_ofRows_eq hedges,
      List.forall₂_map_left_iff, List.map_map, List.forall₂_map_right_iff, List.forall₂_same]
    exact fun edge hedge => h.alike_record _ rfl hedge
  have hlengths := h.map_length_perm hedges payloads
  refine ⟨rfl, hbelow, ?_, ?_, ?_, ?_⟩
  · intro v c
    change Option.Rel EdgeRecord.Alike (tree.recordStarting v c)
      (firstStarting c ((TabularTree.ofRows edges payloads table).recordsBelow v))
    rw [hlabelled.recordStarting_eq]
    exact EdgeRecord.firstStarting_rel (hbelow v) c
  · intro v p
    exact (tree.mem_rows_payloads.symm.trans hpayloads.mem_iff.symm).trans
      TabularTree.mem_payloadsAt_ofRows.symm
  · have hcount := hlengths.length_eq
    rw [List.length_map, List.length_map, Array.length_toList] at hcount
    exact hcount.symm
  · have hplaces := hlengths.symm.foldr_eq (f := (· + ·)) 0
    rw [List.foldr_map, List.foldr_map] at hplaces
    change countPlaces _ = countPlaces _
    rw [countPlaces, countPlaces, List.foldr_map, List.foldr_map]
    exact hplaces

end Reloaded

end SuffixTree

/-- Every search has the same outcome on a suffix tree and on the tree made of its rows: the same
payloads, the same counts and the same answer to whether the deadline passed. -/
theorem search_ofRows {P : Type} [DecidableEq P] [Ord P] [Std.TransOrd P] [Std.LawfulEqOrd P]
    (table : SymbolTable) (steps : List (TreeStep P)) {edges : List EdgeRow}
    {payloads : List (PayloadRow P)}
    (hedges : edges.Perm (SuffixTree.ofSteps table steps).rows.edges)
    (hpayloads : payloads.Perm (SuffixTree.ofSteps table steps).rows.payloads)
    (limits : SearchLimits) :
    (∀ queryTable keys,
      Id.run ((TabularTree.ofRows edges payloads table).source.findKeys queryTable limits keys) =
        Id.run ((SuffixTree.ofSteps table steps).source.findKeys queryTable limits keys)) ∧
    ∀ automaton,
      Id.run ((TabularTree.ofRows edges payloads table).source.findMatching automaton limits) =
        Id.run ((SuffixTree.ofSteps table steps).source.findMatching automaton limits) := by
  obtain ⟨spell, h⟩ := SuffixTree.exists_records table steps
  have halike := h.alike_source hedges hpayloads
  exact ⟨fun queryTable keys => (halike.findKeys_eq queryTable limits keys).symm,
    fun automaton => (halike.findMatching_eq automaton limits).symm⟩

/-- Two texts that share an edge, inserted before and after an annotation. -/
private def sharing : SuffixTree Nat :=
  .ofSteps (.ofList [('a', 1), ('b', 2), ('c', 4)])
    [.insert "ab".toList 3, .annotate, .insert "acab".toList 7, .annotate]

/-- The rows may come in the reverse order, and the limits may stop both searches. -/
theorem search_ofRows_reverse :
    sharing.rows.edges.reverse.Perm sharing.rows.edges ∧
    sharing.rows.payloads.reverse.Perm sharing.rows.payloads ∧
    Id.run ((TabularTree.ofRows sharing.rows.edges.reverse sharing.rows.payloads.reverse
        (.ofList [('a', 1), ('b', 2), ('c', 4)])).source.findKeys (.ofList [('a', 1), ('b', 1)])
        ⟨1, some fun look => 1 < look⟩ ["a".toList, "b".toList]) =
      Id.run (sharing.source.findKeys (.ofList [('a', 1), ('b', 1)])
        ⟨1, some fun look => 1 < look⟩ ["a".toList, "b".toList]) ∧
    Id.run ((TabularTree.ofRows sharing.rows.edges.reverse sharing.rows.payloads.reverse
        (.ofList [('a', 1), ('b', 2), ('c', 4)])).source.findMatching
        (Pattern.wildcard.automaton .empty) ⟨1, some fun look => 1 < look⟩) =
      Id.run (sharing.source.findMatching (Pattern.wildcard.automaton .empty)
        ⟨1, some fun look => 1 < look⟩) := by
  have hedges := List.reverse_perm sharing.rows.edges
  have hpayloads := List.reverse_perm sharing.rows.payloads
  have hsearch := search_ofRows (.ofList [('a', 1), ('b', 2), ('c', 4)]) _ hedges hpayloads
    ⟨1, some fun look => 1 < look⟩
  exact ⟨hedges, hpayloads, hsearch.1 _ _, hsearch.2 _⟩

end SentenceSearch
