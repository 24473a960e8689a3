import SentenceSearch.Proofs.SuffixTree.Traversal

/-!
# Ways from the root of a suffix tree

A string leads to a node if it is read along the edges on the way there. In a labelled tree this is
the string of the node, and the walk that lists the nodes finds the same strings.

## Main definitions

* `SuffixTree.Leads` — a string leads from the root to a node
* `SuffixTree.Joins` — an edge between the nodes of two strings

## Main results

* `Labelled.leads_iff` — one string leads to each node, the one that it spells
* `Labelled.paths_eq` — the strings that a walk finds
* `Labelled.joins_iff` — which edges there are can be told from the strings of the nodes
* `Labelled.nodeCount_eq` — every node but the root has an edge of its own
-/

namespace SentenceSearch

namespace SuffixTree

variable {P : Type} {tree : SuffixTree P} {spell : Nat → List Char} {u v e : Nat} {c : Char}
  {x y label : List Char}

/-- The string leads from the root to the node, along the labels of the edges on the way. -/
inductive Leads (tree : SuffixTree P) : List Char → Nat → Prop
  | root : Leads tree [] root
  | child {x : List Char} {v : Nat} {c : Char} {e : Nat} (hx : Leads tree x v)
      (he : tree.Filed v c e) : Leads tree (x ++ tree.label (tree.edge e)) (tree.edge e).child

/-- One string leads to each node, the one that it spells. -/
theorem Labelled.leads_iff (h : Labelled tree spell) :
    tree.Leads x v ↔ v < tree.nodeCount ∧ spell v = x := by
  constructor
  · intro hx
    induction hx with
    | root => exact ⟨h.root_lt, h.spell_root⟩
    | child _ he ih =>
      refine ⟨(h.fits he).child_lt, ?_⟩
      rw [(h.fits he).spell_child, ih.2]
  · rintro ⟨hv, rfl⟩
    -- The induction is on the way up to the root.
    induction hn : (spell v).length using Nat.strongRecOn generalizing v with
    | _ n ih =>
      subst hn
      by_cases hroot : v = root
      · rw [hroot, h.spell_root]
        exact .root
      · obtain ⟨u, c, e, he, rfl⟩ := h.parent hv hroot
        rw [(h.fits he).spell_child]
        exact .child (ih _ (h.fits he).length_spell_lt he.lt rfl) he

theorem Labelled.leads_spell (h : Labelled tree spell) (hv : v < tree.nodeCount) :
    tree.Leads (spell v) v :=
  h.leads_iff.mpr ⟨hv, rfl⟩

/-- A walk finds the string of each node. -/
theorem Labelled.paths_eq (h : Labelled tree spell) :
    tree.paths = tree.visit.map fun v => (v, spell v) := by
  have hwalk : tree.walk (fun path edge => path ++ tree.label edge) (spell root) =
      tree.visit.map fun v => (v, spell v) := walk_eq_map fun v c e he => (h.fits he).spell_child
  rw [h.spell_root] at hwalk
  exact hwalk

/-! ### Edges -/

/-- An edge with the given label joins the nodes that the two strings lead to. -/
def Joins (tree : SuffixTree P) (x label y : List Char) : Prop :=
  ∃ v c e, tree.Leads x v ∧ tree.Filed v c e ∧ tree.label (tree.edge e) = label ∧
    tree.Leads y (tree.edge e).child

/-- The strings that lead to nodes tell which edges there are: one joins each node to the next ones
below it. -/
theorem Labelled.joins_iff (h : Labelled tree spell) :
    tree.Joins x label y ↔ (∃ v, tree.Leads x v) ∧ (∃ v, tree.Leads y v) ∧ y = x ++ label ∧
      label ≠ [] ∧ ∀ z, (∃ v, tree.Leads z v) → x <+: z → z <+: y → z = x ∨ z = y := by
  constructor
  · rintro ⟨v, c, e, hx, he, rfl, hy⟩
    obtain ⟨hv, rfl⟩ := h.leads_iff.mp hx
    have hchild := (h.leads_iff.mp hy).2
    obtain ⟨rest, hrest⟩ := (h.fits he).label_eq_cons
    refine ⟨⟨v, hx⟩, ⟨_, hy⟩, hchild.symm.trans (h.fits he).spell_child, ?_, ?_⟩
    · rw [hrest]
      exact List.cons_ne_nil c rest
    · rintro z ⟨w, hz⟩ hxz hzy
      obtain ⟨hw, rfl⟩ := h.leads_iff.mp hz
      -- A node strictly between the two would lie inside the edge.
      by_cases hne : spell w = spell v
      · exact Or.inl hne
      · rw [← hchild] at hzy ⊢
        exact Or.inr (congrArg spell (h.not_inside he hw hxz hne hzy))
  · rintro ⟨⟨v, hx⟩, ⟨w, hy⟩, rfl, hlabel, hnext⟩
    obtain ⟨hv, rfl⟩ := h.leads_iff.mp hx
    obtain ⟨hw, hspell⟩ := h.leads_iff.mp hy
    have hne : w ≠ v := by
      rintro rfl
      exact hlabel (List.append_right_eq_self.mp hspell.symm)
    obtain ⟨c, e, he, hto⟩ := h.exists_edge_towards hw hv hne (hspell ▸ List.prefix_append _ _)
    have hfit := h.fits he
    have hchild := h.leads_spell hfit.child_lt
    have hfront : spell v <+: spell (tree.edge e).child := by
      rw [hfit.spell_child]
      exact List.prefix_append _ _
    -- The edge towards the lower node cannot stop short of it.
    have hend : spell (tree.edge e).child = spell v ++ label := by
      apply (hnext _ ⟨_, hchild⟩ hfront (hspell ▸ hto)).resolve_left
      intro hstay
      have hlt := hfit.length_spell_lt
      rw [hstay] at hlt
      exact Nat.lt_irrefl _ hlt
    refine ⟨v, c, e, hx, he, ?_, hend ▸ hchild⟩
    rw [hfit.spell_child] at hend
    exact List.append_cancel_left hend

/-- Every node but the root has an edge of its own that leads to it. -/
theorem Labelled.nodeCount_eq (h : Labelled tree spell) :
    tree.nodeCount = tree.edgeCount + 1 := by
  have hinjective : Set.InjOn (fun e => (tree.edge e).child) (Finset.range tree.edgeCount) := by
    intro e he e' he' hchild
    obtain ⟨u, c, hu⟩ := h.filed (Finset.mem_range.mp he)
    obtain ⟨v, d, hv⟩ := h.filed (Finset.mem_range.mp he')
    exact h.edge_unique hu hv hchild
  have himage : (Finset.range tree.edgeCount).image (fun e => (tree.edge e).child) =
      (Finset.range tree.nodeCount).erase root := by
    ext u
    simp only [Finset.mem_image, Finset.mem_erase, Finset.mem_range]
    constructor
    · rintro ⟨e, he, rfl⟩
      obtain ⟨v, c, hfiled⟩ := h.filed he
      refine ⟨fun hroot => ?_, (h.fits hfiled).child_lt⟩
      -- Nothing is longer than the empty string that the root spells.
      have hlt := (h.fits hfiled).length_spell_lt
      rw [hroot, h.spell_root] at hlt
      exact Nat.not_lt_zero _ hlt
    · rintro ⟨hroot, hu⟩
      obtain ⟨v, c, e, he, rfl⟩ := h.parent hu hroot
      exact ⟨e, h.edge_lt he, rfl⟩
  have hcard := Finset.card_image_of_injOn hinjective
  rw [himage, Finset.card_erase_of_mem (Finset.mem_range.mpr h.root_lt), Finset.card_range,
    Finset.card_range] at hcard
  have hpos := h.root_lt
  omega

end SuffixTree

end SentenceSearch
