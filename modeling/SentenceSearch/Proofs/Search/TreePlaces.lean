import SentenceSearch.Proofs.Search.Collection
import SentenceSearch.Proofs.SuffixTree.Masks
import SentenceSearch.SuffixTree.Source

/-!
# The places of a suffix tree

A search sees a suffix tree as edges with places on them. Every place spells a string, and what the
masks offer there is enough for every way on to a node below.

## Main definitions

* `SuffixTree.Place` — a place on an edge and the string that it spells
* `SuffixTree.placesOn` — the places on some edges

## Main results

* `below_iff` — one node is below another one when its string goes on from that of the other one
* `bounded_source` — a suffix tree has no more edges than it says
* `Place.next`, `Place.enter` — the ways on from a place
* `Records.maskOf_allows_partialMask` — what the masks offer at a place
-/

namespace SentenceSearch

namespace SuffixTree

variable {P : Type} {tree : SuffixTree P} {spell : Nat → List Char} {u v w e offset : Nat}
  {c d : Char} {x rest : List Char} {edge edge' : EdgeRecord}

/-! ### Nodes -/

theorem childrenFrom_source : (tree.source (m := Id)).childrenFrom v = tree.childrenOf v := by
  change (tree.recordsBelow v).map EdgeRecord.child = _
  rw [recordsBelow, List.map_map]
  rfl

/-- One node is below another one when its string goes on from that of the other one. -/
theorem Labelled.below_iff (h : Labelled tree spell) (hv : v < tree.nodeCount)
    (hu : u < tree.nodeCount) :
    (tree.source (m := Id)).Below v u ↔ spell v <+: spell u := by
  constructor
  · intro hbelow
    clear hu
    induction hbelow with
    | refl => exact List.prefix_rfl
    | tail _ hchild ih =>
      rw [childrenFrom_source] at hchild
      exact ih.trans (h.prefix_child hchild).1
  · intro hfront
    induction hn : (spell u).length - (spell v).length using Nat.strongRecOn generalizing v with
    | _ n ih =>
      subst hn
      by_cases hne : u = v
      · exact hne ▸ .refl
      · obtain ⟨w, hw, hwu⟩ := h.exists_child_towards hu hv hne hfront
        have hlt := (h.prefix_child hw).2
        have hle := hwu.length_le
        refine .head (childrenFrom_source.symm ▸ hw) (ih _ ?_ (h.child_lt hw) hwu rfl)
        omega

/-- Whatever is below a node of the tree is a node of the tree. -/
theorem Labelled.lt_of_below (h : Labelled tree spell) (hv : v < tree.nodeCount)
    (hbelow : (tree.source (m := Id)).Below v u) : u < tree.nodeCount := by
  induction hbelow with
  | refl => exact hv
  | tail _ hchild _ =>
    rw [childrenFrom_source] at hchild
    exact h.child_lt hchild

/-- No edge is filed twice below a node. -/
theorem Labelled.nodup_values (h : Labelled tree spell) (v : Nat) :
    (tree.node v).edges.values.Nodup := by
  refine (pairwise_values (tree.node v).edges).imp ?_
  rintro e e' ⟨c, d, hne, he, he'⟩ rfl
  exact hne (h.parent_unique (v := v) (u := v) he he').2

/-- A suffix tree has no more edges than it says. -/
theorem Labelled.bounded_source (h : Labelled tree spell) :
    (tree.source (m := Id)).Bounded (Finset.range tree.nodeCount) where
  outside v hv := by
    rw [childrenFrom_source, List.eq_nil_iff_forall_not_mem]
    intro u hu
    obtain ⟨c, e, he, -⟩ := mem_childrenOf.mp hu
    exact hv (Finset.mem_range.mpr he.lt)
  edges_le := by
    have hlength (v : Nat) : ((tree.source (m := Id)).childrenFrom v).length =
        ((tree.node v).edges.values.toFinset).card := by
      rw [childrenFrom_source, childrenOf, edgesBelow, List.length_map, List.length_map,
        List.toFinset_card_of_nodup (h.nodup_values v)]
    have hfiled {v e : Nat} (he : e ∈ (tree.node v).edges.values.toFinset) :
        ∃ c, tree.Filed v c e := mem_values_iff.mp (List.mem_toFinset.mp he)
    -- The edges filed below different nodes are different edges of the tree.
    rw [Finset.sum_congr rfl fun v _ => hlength v, ← Finset.card_biUnion]
    · refine (Finset.card_le_card fun e he => ?_).trans_eq (Finset.card_range tree.edgeCount)
      obtain ⟨v, -, hv⟩ := Finset.mem_biUnion.mp he
      obtain ⟨c, hc⟩ := hfiled hv
      exact Finset.mem_range.mpr (h.edge_lt hc)
    · intro u _ v _ hne
      refine Finset.disjoint_left.mpr fun e hu hv => ?_
      obtain ⟨c, hc⟩ := hfiled hu
      obtain ⟨d, hd⟩ := hfiled hv
      exact hne (h.parent_unique hc hd).1

/-! ### Places -/

/-- The place after `offset` characters on an edge below some node, and the string that is spelled
there. -/
def Place (tree : SuffixTree P) (spell : Nat → List Char) (edge : EdgeRecord) (offset : Nat)
    (x : List Char) : Prop :=
  ∃ v c e, tree.Filed v c e ∧ edge = tree.record (tree.edge e) ∧ offset ≤ edge.length ∧
    x = spell v ++ edge.label.take offset

theorem mem_edgesFrom :
    edge ∈ ((tree.source (m := Id)).edgesFrom v).run ↔
      ∃ c e, tree.Filed v c e ∧ edge = tree.record (tree.edge e) := by
  change edge ∈ tree.recordsBelow v ↔ _
  simp only [recordsBelow, List.mem_map, mem_edgesBelow]
  constructor
  · rintro ⟨_, ⟨c, e, he, rfl⟩, rfl⟩
    exact ⟨c, e, he, rfl⟩
  · rintro ⟨c, e, he, rfl⟩
    exact ⟨_, ⟨c, e, he, rfl⟩, rfl⟩

theorem place_start (spell : Nat → List Char) (he : tree.Filed v c e) :
    tree.Place spell (tree.record (tree.edge e)) 0 (spell v) :=
  ⟨v, c, e, he, rfl, Nat.zero_le _, by simp⟩

namespace Place

theorem le (h : tree.Place spell edge offset x) : offset ≤ edge.length := by
  obtain ⟨v, c, e, -, -, hle, -⟩ := h
  exact hle

/-- The next character on the edge leads to the next place. -/
theorem next (h : tree.Place spell edge offset x) (hlabelled : Labelled tree spell)
    (hlt : offset < edge.length) :
    tree.Place spell edge (offset + 1) (x ++ [edge.charAt offset]) := by
  obtain ⟨v, c, e, he, rfl, -, rfl⟩ := h
  refine ⟨v, c, e, he, rfl, hlt, ?_⟩
  have hchar := (hlabelled.fits he).getElem?_label hlt
  change (tree.record (tree.edge e)).label[offset]? = some _ at hchar
  rw [List.take_add_one, hchar, List.append_assoc]
  rfl

theorem child_lt (h : tree.Place spell edge offset x) (hlabelled : Labelled tree spell) :
    edge.child < tree.nodeCount := by
  obtain ⟨v, c, e, he, rfl, -⟩ := h
  exact (hlabelled.fits he).child_lt

theorem length_pos (h : tree.Place spell edge offset x) (hlabelled : Labelled tree spell) :
    0 < edge.length := by
  obtain ⟨v, c, e, he, rfl, -⟩ := h
  exact (hlabelled.fits he).length_pos

/-- The node at the end of the edge spells what is spelled at the place and the rest of the
label. -/
theorem spell_child (h : tree.Place spell edge offset x) (hlabelled : Labelled tree spell) :
    spell edge.child = x ++ edge.label.drop offset := by
  obtain ⟨v, c, e, he, rfl, -, rfl⟩ := h
  rw [List.append_assoc, List.take_append_drop]
  exact (hlabelled.fits he).spell_child

theorem length_label (h : tree.Place spell edge offset x) (hlabelled : Labelled tree spell) :
    edge.label.length = edge.length := by
  obtain ⟨v, c, e, he, rfl, -⟩ := h
  exact (hlabelled.fits he).length_label

theorem drop_label (h : tree.Place spell edge offset x) (hlabelled : Labelled tree spell)
    (hlt : offset < edge.length) :
    edge.label.drop offset = edge.charAt offset :: edge.label.drop (offset + 1) := by
  have hnext := (h.next hlabelled hlt).spell_child hlabelled
  rw [h.spell_child hlabelled, List.append_assoc] at hnext
  exact List.append_cancel_left hnext

/-- At the end of the edge its child is spelled. -/
theorem spell_child_of_end (h : tree.Place spell edge offset x) (hlabelled : Labelled tree spell)
    (hend : offset = edge.length) : spell edge.child = x := by
  rw [h.spell_child hlabelled, hend, ← h.length_label hlabelled, List.drop_length, List.append_nil]

/-- At the end of an edge the edges below it go on. -/
theorem enter (h : tree.Place spell edge offset x) (hlabelled : Labelled tree spell)
    (hend : offset = edge.length)
    (hedge : edge' ∈ ((tree.source (m := Id)).edgesFrom edge.child).run) :
    tree.Place spell edge' 0 x := by
  obtain ⟨c, e, he, rfl⟩ := mem_edgesFrom.mp hedge
  exact h.spell_child_of_end hlabelled hend ▸ place_start spell he

/-- A place is known by the child of its edge and by the offset. -/
theorem edge_eq {offset' : Nat} {y : List Char} (h : tree.Place spell edge offset x)
    (h' : tree.Place spell edge' offset' y) (hlabelled : Labelled tree spell)
    (hchild : edge.child = edge'.child) : edge = edge' := by
  obtain ⟨v, c, e, he, rfl, -⟩ := h
  obtain ⟨u, d, e', he', rfl, -⟩ := h'
  rw [hlabelled.edge_unique he he' hchild]

/-! ### The way towards a node -/

/-- On the way to a node below, the edge goes on with what is left of the string. -/
theorem charAt_eq (h : tree.Place spell edge offset x) (hlabelled : Labelled tree spell)
    (hlt : offset < edge.length) (hto : spell edge.child <+: spell w)
    (hw : spell w = x ++ d :: rest) : edge.charAt offset = d := by
  rw [h.spell_child hlabelled, h.drop_label hlabelled hlt, hw, List.prefix_append_right_inj,
    List.cons_prefix_cons] at hto
  exact hto.1

/-- At the end of an edge another one goes on towards the node. -/
theorem enter_towards (h : tree.Place spell edge offset x) (hlabelled : Labelled tree spell)
    (hend : offset = edge.length) (hlt : w < tree.nodeCount) (hw : spell w = x ++ d :: rest) :
    ∃ edge' ∈ ((tree.source (m := Id)).edgesFrom edge.child).run,
      spell edge'.child <+: spell w ∧ edge'.firstChar = d := by
  have hspell := h.spell_child_of_end hlabelled hend
  have hne : w ≠ edge.child := by
    rintro rfl
    simp [hspell] at hw
  obtain ⟨c, e, he, hto⟩ := hlabelled.exists_edge_towards hlt (h.child_lt hlabelled) hne
    (hspell.symm ▸ hw.symm ▸ List.prefix_append _ _)
  refine ⟨_, mem_edgesFrom.mpr ⟨c, e, he, rfl⟩, hto, ?_⟩
  have hstart := place_start spell he
  rw [hspell] at hstart
  exact hstart.charAt_eq hlabelled (hlabelled.fits he).length_pos hto hw

end Place

/-- From the root some edge leads towards each other node. -/
theorem Labelled.exists_start (h : Labelled tree spell) (hw : w < tree.nodeCount)
    (hne : spell w ≠ []) :
    ∃ edge ∈ ((tree.source (m := Id)).edgesFrom root).run, spell edge.child <+: spell w := by
  have hroot : w ≠ root := by
    rintro rfl
    exact hne h.spell_root
  obtain ⟨c, e, he, hto⟩ := h.exists_edge_towards hw h.root_lt hroot
    (h.spell_root.symm ▸ List.nil_prefix)
  exact ⟨_, mem_edgesFrom.mpr ⟨c, e, he, rfl⟩, hto⟩

theorem Labelled.place_root (h : Labelled tree spell)
    (hedge : edge ∈ ((tree.source (m := Id)).edgesFrom root).run) :
    tree.Place spell edge 0 [] := by
  obtain ⟨c, e, he, rfl⟩ := mem_edgesFrom.mp hedge
  exact h.spell_root ▸ place_start spell he

/-! ### Masks -/

variable {table : SymbolTable} {ends : List Char → Array P}

/-- A mask that a search may rely on offers all that occurs below the child of an edge. -/
theorem Records.maskOf_allows_reliableMask (h : Records table tree spell ends)
    (he : e < tree.edgeCount) (hx : tree.Spelled spell (spell (tree.edge e).child ++ x)) :
    (table.maskOf x).allows (tree.reliableMask (tree.edge e)) = true := by
  unfold reliableMask
  split
  · rename_i hannotated
    have hlabelled := h.settled.stores.labelled
    obtain ⟨v, c, hfiled⟩ := hlabelled.filed he
    apply ((h.exactMasks hannotated).child e he).maskOf_allows
    intro d hd
    exact hlabelled.charBelow_of_spelled (hlabelled.fits hfiled).child_lt hx hd
  · exact Mask.allows_full _

/-- The payloads below a node belong to the strings that go on from its own. -/
theorem Records.payload_below_iff {p : P} (h : Records table tree spell ends)
    (hv : v < tree.nodeCount) :
    ((tree.source (m := Id)).Below v w ∧ p ∈ ((tree.source (m := Id)).payloadsAt w).run) ↔
      w < tree.nodeCount ∧ spell v <+: spell w ∧ p ∈ ends (spell w) := by
  have hlabelled := h.settled.stores.labelled
  constructor
  · rintro ⟨hbelow, hp⟩
    have hw := hlabelled.lt_of_below hv hbelow
    refine ⟨hw, (hlabelled.below_iff hv hw).mp hbelow, ?_⟩
    rw [← h.settled.stores.payloads hw]
    exact Array.mem_toList_iff.mp hp
  · rintro ⟨hw, hto, hp⟩
    rw [← h.settled.stores.payloads hw] at hp
    exact ⟨(hlabelled.below_iff hv hw).mpr hto, Array.mem_toList_iff.mpr hp⟩

/-- What the masks offer at a place is enough for the way on to a node below. -/
theorem Records.maskOf_allows_partialMask (h : Records table tree spell ends)
    (hplace : tree.Place spell edge offset x) (hlt : w < tree.nodeCount)
    (hto : spell edge.child <+: spell w) (hw : spell w = x ++ rest) :
    (table.maskOf rest).allows (edge.partialMask offset) = true := by
  have hlabelled := h.settled.stores.labelled
  have hspell := hplace.spell_child hlabelled
  have hlength := hplace.length_label hlabelled
  obtain ⟨v, c, e, he, rfl, hle, -⟩ := hplace
  obtain ⟨below, hbelow⟩ := hto
  have hrest : rest = (tree.record (tree.edge e)).label.drop offset ++ below := by
    rw [hspell, List.append_assoc, hw] at hbelow
    exact (List.append_cancel_left hbelow).symm
  have hchild := h.maskOf_allows_reliableMask (hlabelled.edge_lt he) (x := below)
    ⟨w, hlt, hbelow.symm ▸ List.prefix_rfl⟩
  rw [hrest, table.maskOf_append, Mask.or_allows_iff]
  unfold EdgeRecord.partialMask
  split
  · exact ⟨Mask.allows_trans (h.prepared.maskAt_allows (tree.edge e) offset)
      (Mask.allows_or_right _ _), Mask.allows_trans hchild (Mask.allows_or_left _ _)⟩
  · -- Past the end of the label only the mask of the child is left.
    rename_i hend
    rw [List.drop_eq_nil_of_le (hlength ▸ Nat.le_of_not_lt hend)]
    exact ⟨Mask.zero_allows _, hchild⟩

/-! ### Counting places -/

/-- The places on some edges, each known by the child of its edge and by the offset. -/
def placesOn (edges : List EdgeRecord) : List (Nat × Nat) :=
  edges.flatMap fun edge => (List.range (edge.length + 1)).map fun offset => (edge.child, offset)

theorem length_placesOn (edges : List EdgeRecord) :
    (placesOn edges).length = countPlaces edges := by
  induction edges with
  | nil => rfl
  | cons edge edges ih =>
    rw [placesOn, List.flatMap_cons, List.length_append, List.length_map, List.length_range]
    exact congrArg (edge.length + 1 + ·) ih

/-- The places of a tree. -/
def places (tree : SuffixTree P) : Finset (Nat × Nat) :=
  (placesOn (tree.edges.toList.map tree.record)).toFinset

theorem card_places_le : tree.places.card ≤ (tree.source (m := Id)).placeCount :=
  (List.toFinset_card_le _).trans_eq (length_placesOn _)

theorem Place.mem_places (h : tree.Place spell edge offset x) (hlabelled : Labelled tree spell) :
    (edge.child, offset) ∈ tree.places := by
  obtain ⟨v, c, e, he, rfl, hle, -⟩ := h
  have hlt : e < tree.edges.size := hlabelled.edge_lt he
  have hedge : tree.edge e ∈ tree.edges.toList := by
    rw [edge, Array.getD_eq_getD_getElem?, Array.getElem?_eq_getElem hlt, Option.getD_some]
    exact Array.getElem_mem_toList hlt
  rw [places, List.mem_toFinset, placesOn, List.mem_flatMap]
  exact ⟨_, List.mem_map.mpr ⟨_, hedge, rfl⟩,
    List.mem_map.mpr ⟨offset, List.mem_range.mpr (Nat.lt_succ_of_le hle), rfl⟩⟩

end SuffixTree

end SentenceSearch
