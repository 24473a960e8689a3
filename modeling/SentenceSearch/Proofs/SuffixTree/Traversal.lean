import Mathlib.Data.Finset.Card
import Mathlib.Data.Finset.Range
import SentenceSearch.Proofs.MapValues
import SentenceSearch.Proofs.SuffixTree.Labelling

/-!
# Walks through a suffix tree

A walk from the root visits every node once, and every node before those below it. What it carries
along the edges is what belongs to the node.

## Main definitions

* `SuffixTree.preorder` — the nodes at and below those of a stack, in the order of a walk

## Main results

* `Labelled.mem_preorder`, `Labelled.pairwise_preorder` — which nodes come, and in which order
* `walk_eq_map` — what a walk carries to each node
-/

namespace SentenceSearch

namespace SuffixTree

variable {P : Type} {tree : SuffixTree P} {spell : Nat → List Char} {u v e fuel : Nat}
  {c : Char} {stack : List Nat}

theorem mem_edgesBelow {edge : TreeEdge} :
    edge ∈ tree.edgesBelow v ↔ ∃ c e, tree.Filed v c e ∧ tree.edge e = edge := by
  simp only [edgesBelow, List.mem_map, mem_values_iff]
  exact ⟨fun ⟨e, ⟨c, he⟩, heq⟩ => ⟨c, e, he, heq⟩, fun ⟨c, e, he, heq⟩ => ⟨e, ⟨c, he⟩, heq⟩⟩

/-- The nodes that are one edge below a node. -/
def childrenOf (tree : SuffixTree P) (v : Nat) : List Nat :=
  (tree.edgesBelow v).map TreeEdge.child

theorem mem_childrenOf :
    u ∈ tree.childrenOf v ↔ ∃ c e, tree.Filed v c e ∧ (tree.edge e).child = u := by
  simp only [childrenOf, List.mem_map, mem_edgesBelow]
  constructor
  · rintro ⟨edge, ⟨c, e, he, rfl⟩, rfl⟩
    exact ⟨c, e, he, rfl⟩
  · rintro ⟨c, e, he, rfl⟩
    exact ⟨_, ⟨c, e, he, rfl⟩, rfl⟩

/-- Neither node is below the other one. -/
def Apart (spell : Nat → List Char) (u v : Nat) : Prop :=
  ¬ spell u <+: spell v ∧ ¬ spell v <+: spell u

theorem Labelled.pairwise_childrenOf (h : Labelled tree spell) (v : Nat) :
    (tree.childrenOf v).Pairwise (Apart spell) := by
  rw [childrenOf, edgesBelow, List.map_map, List.pairwise_map]
  refine (pairwise_values (tree.node v).edges).imp ?_
  rintro e e' ⟨c, d, hne, he, he'⟩
  exact ⟨fun hto => hne (h.filed_unique_of_prefix he he' hto List.prefix_rfl).1,
    fun hto => hne (h.filed_unique_of_prefix he he' List.prefix_rfl hto).1⟩

theorem Labelled.child_lt (h : Labelled tree spell) (hu : u ∈ tree.childrenOf v) :
    u < tree.nodeCount := by
  obtain ⟨c, e, he, rfl⟩ := mem_childrenOf.mp hu
  exact (h.fits he).child_lt

theorem Labelled.prefix_child (h : Labelled tree spell) (hu : u ∈ tree.childrenOf v) :
    spell v <+: spell u ∧ (spell v).length < (spell u).length := by
  obtain ⟨c, e, he, rfl⟩ := mem_childrenOf.mp hu
  exact ⟨(List.prefix_append _ _).trans (h.fits he).prefix_child, (h.fits he).length_spell_lt⟩

/-- A node below another one is below one of its children. -/
theorem Labelled.exists_child_towards (h : Labelled tree spell) (hu : u < tree.nodeCount)
    (hv : v < tree.nodeCount) (hne : u ≠ v) (hfront : spell v <+: spell u) :
    ∃ w ∈ tree.childrenOf v, spell w <+: spell u := by
  obtain ⟨c, e, he, hto⟩ := h.exists_edge_towards hu hv hne hfront
  exact ⟨_, mem_childrenOf.mpr ⟨c, e, he, rfl⟩, hto⟩

/-! ### The order of a walk -/

/-- The nodes at and below those of a stack, in the order of a walk. -/
def preorder (tree : SuffixTree P) : Nat → List Nat → List Nat
  | 0, _ => []
  | _, [] => []
  | fuel + 1, v :: stack => v :: tree.preorder fuel ((tree.childrenOf v).reverse ++ stack)

/-- A walk carries to each node the value that belongs there. -/
theorem traverse_eq_map {α : Type} {carry : α → TreeEdge → α} (value : Nat → α) (fuel : Nat)
    (stack : List Nat)
    (hvalue : ∀ v c e, tree.Filed v c e →
      value (tree.edge e).child = carry (value v) (tree.edge e)) :
    tree.traverse carry fuel (stack.map fun v => (v, value v)) =
      (tree.preorder fuel stack).map fun v => (v, value v) := by
  induction fuel generalizing stack with
  | zero => simp [traverse, preorder]
  | succ fuel ih =>
    cases stack with
    | nil => simp [traverse, preorder]
    | cons v stack =>
      have hchildren : (tree.edgesBelow v).map (fun edge => (edge.child, carry (value v) edge)) =
          (tree.childrenOf v).map fun u => (u, value u) := by
        rw [childrenOf, List.map_map]
        refine List.map_congr_left fun edge hedge => ?_
        obtain ⟨c, e, he, rfl⟩ := mem_edgesBelow.mp hedge
        exact Prod.ext rfl (hvalue v c e he).symm
      rw [List.map_cons, traverse, preorder, List.map_cons, ← ih, List.foldl_flip_cons_eq_append,
        hchildren, List.map_append, List.map_reverse]

/-- The nodes at and below those of a stack. -/
def region (tree : SuffixTree P) (spell : Nat → List Char) (stack : List Nat) : Finset Nat :=
  (Finset.range tree.nodeCount).filter fun u => ∃ v ∈ stack, spell v <+: spell u

theorem mem_region :
    u ∈ tree.region spell stack ↔ u < tree.nodeCount ∧ ∃ v ∈ stack, spell v <+: spell u := by
  rw [region, Finset.mem_filter, Finset.mem_range]

/-- The stack of a walk: nodes of the tree, no one below another one. -/
structure Stacked (tree : SuffixTree P) (spell : Nat → List Char) (stack : List Nat) : Prop where
  lt : ∀ v ∈ stack, v < tree.nodeCount
  apart : stack.Pairwise (Apart spell)

/-- The walk goes on with the children of the node that it has visited. -/
theorem Stacked.next (hstack : Stacked tree spell (v :: stack)) (h : Labelled tree spell) :
    Stacked tree spell ((tree.childrenOf v).reverse ++ stack) ∧
      tree.region spell ((tree.childrenOf v).reverse ++ stack) =
        (tree.region spell (v :: stack)).erase v := by
  obtain ⟨hapart, hrest⟩ := List.pairwise_cons.mp hstack.apart
  have hv := hstack.lt v List.mem_cons_self
  refine ⟨⟨fun u hu => ?_, ?_⟩, Finset.ext fun u => ?_⟩
  · rcases List.mem_append.mp hu with hu | hu
    · exact h.child_lt (List.mem_reverse.mp hu)
    · exact hstack.lt u (List.mem_cons_of_mem _ hu)
  · refine List.pairwise_append.mpr ⟨?_, hrest, fun u hu w hw => ?_⟩
    · exact List.pairwise_reverse.mpr ((h.pairwise_childrenOf v).imp fun hab => ⟨hab.2, hab.1⟩)
    · have hvu := (h.prefix_child (List.mem_reverse.mp hu)).1
      refine ⟨fun huw => (hapart w hw).1 (hvu.trans huw), fun hwu => ?_⟩
      rcases List.prefix_or_prefix_of_prefix hvu hwu with hvw | hwv
      · exact (hapart w hw).1 hvw
      · exact (hapart w hw).2 hwv
  · rw [Finset.mem_erase, mem_region, mem_region]
    constructor
    · rintro ⟨hu, w, hw, hwu⟩
      rcases List.mem_append.mp hw with hw | hw
      · obtain ⟨hvw, hlt⟩ := h.prefix_child (List.mem_reverse.mp hw)
        refine ⟨fun heq => ?_, hu, v, List.mem_cons_self, hvw.trans hwu⟩
        exact Nat.not_lt_of_le (heq ▸ hwu).length_le hlt
      · -- Had it been visited, the two nodes on the stack would not be apart.
        exact ⟨fun heq => (hapart w hw).2 (heq ▸ hwu), hu, w, List.mem_cons_of_mem _ hw, hwu⟩
    · rintro ⟨hne, hu, w, hw, hwu⟩
      rcases List.mem_cons.mp hw with rfl | hw
      · obtain ⟨x, hx, hxu⟩ := h.exists_child_towards hu hv hne hwu
        exact ⟨hu, x, List.mem_append_left _ (List.mem_reverse.mpr hx), hxu⟩
      · exact ⟨hu, w, List.mem_append_right _ hw, hwu⟩

/-- With enough fuel a walk comes to all nodes at and below those of the stack, and to every node
before those below it. -/
theorem Labelled.preorder_spec (h : Labelled tree spell) (hstack : Stacked tree spell stack)
    (hfuel : (tree.region spell stack).card ≤ fuel) :
    (∀ u, u ∈ tree.preorder fuel stack ↔ u ∈ tree.region spell stack) ∧
      (tree.preorder fuel stack).Pairwise fun u w => ¬ spell w <+: spell u := by
  -- Each visit takes one node out of the region, and with it one unit of fuel.
  induction fuel generalizing stack with
  | zero =>
    have hempty := Finset.card_eq_zero.mp (Nat.le_zero.mp hfuel)
    exact ⟨fun u => by simp [preorder, hempty], List.Pairwise.nil⟩
  | succ fuel ih =>
    cases stack with
    | nil => exact ⟨fun u => by simp [preorder, mem_region], List.Pairwise.nil⟩
    | cons v stack =>
      have hv : v ∈ tree.region spell (v :: stack) :=
        mem_region.mpr ⟨hstack.lt v List.mem_cons_self, v, List.mem_cons_self, List.prefix_rfl⟩
      obtain ⟨hnext, hregion⟩ := hstack.next h
      obtain ⟨hmem, hpairwise⟩ := ih hnext (by rw [hregion, Finset.card_erase_of_mem hv]; omega)
      rw [hregion] at hmem
      refine ⟨fun u => ?_, List.pairwise_cons.mpr ⟨fun u hu => ?_, hpairwise⟩⟩
      · rw [preorder, List.mem_cons, hmem, Finset.mem_erase]
        constructor
        · rintro (rfl | ⟨-, hu⟩)
          · exact hv
          · exact hu
        · exact fun hu => or_iff_not_imp_left.mpr fun hne => ⟨hne, hu⟩
      · obtain ⟨hne, hu⟩ := Finset.mem_erase.mp ((hmem u).mp hu)
        obtain ⟨hlt, w, hw, hwu⟩ := mem_region.mp hu
        intro huv
        rcases List.mem_cons.mp hw with rfl | hw
        · exact hne (h.spell_inj hlt (hstack.lt w List.mem_cons_self)
            (huv.eq_of_length_le hwu.length_le))
        · exact ((List.pairwise_cons.mp hstack.apart).1 w hw).2 (hwu.trans huv)

/-! ### Walks from the root -/

theorem visit_eq_preorder : tree.visit = tree.preorder tree.nodeCount [root] := by
  have htraverse : tree.traverse (fun _ _ => ()) tree.nodeCount [(root, ())] =
      (tree.preorder tree.nodeCount [root]).map fun v => (v, ()) :=
    traverse_eq_map (fun _ => ()) tree.nodeCount [root] fun _ _ _ _ => rfl
  rw [visit, walk, htraverse, List.map_map]
  exact List.map_id _

/-- A walk from the root carries to each node the value that belongs there. -/
theorem walk_eq_map {α : Type} {carry : α → TreeEdge → α} {value : Nat → α}
    (hvalue : ∀ v c e, tree.Filed v c e →
      value (tree.edge e).child = carry (value v) (tree.edge e)) :
    tree.walk carry (value root) = tree.visit.map fun v => (v, value v) := by
  rw [visit_eq_preorder, ← traverse_eq_map value tree.nodeCount [root] hvalue]
  rfl

/-- A walk from the root visits the nodes of the tree, each before those below it. -/
theorem Labelled.visit_spec (h : Labelled tree spell) :
    (∀ u, u ∈ tree.visit ↔ u < tree.nodeCount) ∧
      tree.visit.Pairwise fun u w => ¬ spell w <+: spell u := by
  have hstack : Stacked tree spell [root] :=
    ⟨fun v hv => List.mem_singleton.mp hv ▸ h.root_lt, List.pairwise_singleton _ _⟩
  have hcard : (tree.region spell [root]).card ≤ tree.nodeCount := by
    refine (Finset.card_filter_le _ _).trans_eq (Finset.card_range _)
  obtain ⟨hmem, hpairwise⟩ := h.preorder_spec hstack hcard
  rw [visit_eq_preorder]
  refine ⟨fun u => ?_, hpairwise⟩
  rw [hmem, mem_region]
  refine ⟨fun hu => hu.1, fun hu => ⟨hu, root, List.mem_singleton_self _, ?_⟩⟩
  rw [h.spell_root]
  exact List.nil_prefix

end SuffixTree

end SentenceSearch
