import Mathlib.Data.List.Infix
import SentenceSearch.SuffixTree.Basic

/-!
# The strings of a suffix tree

A labelling says which string each node of a tree spells. In a labelled tree the labels along the
edges agree with these strings, every node but the root has an edge that leads to it, and no two
nodes spell the same string. Where a string is spelled can then be told from the strings alone.

## Main definitions

* `SuffixTree.Filed` — an edge is filed below a node under a character
* `SuffixTree.Labelled` — the strings of the nodes agree with the edges
* `SuffixTree.Labels.Spelled` — the strings on the way from the root to some node

## Main results

* `Labelled.exists_edge_towards` — an edge leads from a node towards each node below it
* `Labelled.exists_edge_of_spelled` — a spelled string goes on along an edge
* `Labelled.exists_node_of_branching` — a string with two continuations has a node
-/

namespace SentenceSearch

namespace SuffixTree

variable {P : Type} {tree : SuffixTree P} {spell : Nat → List Char} {u v e : Nat} {c d : Char}
  {x y : List Char}

/-- The edge `e` is filed below the node `v` under the character `c`. -/
def Filed (tree : SuffixTree P) (v : Nat) (c : Char) (e : Nat) : Prop :=
  (tree.node v).edges[c]? = some e

theorem Filed.unique {e' : Nat} (h : tree.Filed v c e) (h' : tree.Filed v c e') : e = e' :=
  Option.some.inj (h.symm.trans h')

theorem node_of_nodeCount_le (h : tree.nodeCount ≤ v) : tree.node v = .blank := by
  simp [node, Array.getD_eq_getD_getElem?, Array.getElem?_eq_none h]

theorem Filed.lt (h : tree.Filed v c e) : v < tree.nodeCount := by
  by_contra hv
  rw [Filed, node_of_nodeCount_le (Nat.le_of_not_lt hv)] at h
  simp [TreeNode.blank] at h

/-- The payloads of a node. -/
def payloads (tree : SuffixTree P) (v : Nat) : Array P := (tree.node v).payloads

/-- The suffix link of a node. -/
def link (tree : SuffixTree P) (v : Nat) : Option Nat := (tree.node v).link

/-! ### Labels -/

theorem length_label {edge : TreeEdge} (h : edge.stop ≤ (tree.text edge.text).size) :
    (tree.label edge).length = edge.length := by
  unfold Sentence.size at h
  simp only [label, Sentence.slice, Array.length_toList, Array.size_extract, TreeEdge.length]
  omega

theorem getElem?_label {edge : TreeEdge} (h : edge.stop ≤ (tree.text edge.text).size) {i : Nat}
    (hi : i < edge.length) :
    (tree.label edge)[i]? = some (tree.charAt edge.text (edge.start + i)) := by
  unfold Sentence.size at h
  unfold TreeEdge.length at hi
  have hlt : edge.start + i < (tree.text edge.text).chars.size := by omega
  simp only [label, Sentence.slice, charAt, Array.getElem?_toList, Array.getElem?_extract,
    Array.getD_eq_getD_getElem?, Array.getElem?_eq_getElem hlt]
  simp
  omega

/-- What an edge below a node has to satisfy. -/
structure EdgeFits (tree : SuffixTree P) (spell : Nat → List Char) (v : Nat) (c : Char)
    (edge : TreeEdge) : Prop where
  child_lt : edge.child < tree.nodeCount
  start_lt : edge.start < edge.stop
  stop_le : edge.stop ≤ (tree.text edge.text).size
  first : tree.charAt edge.text edge.start = c
  spell_child : spell edge.child = spell v ++ tree.label edge

/-- The strings that the nodes spell agree with the edges of the tree. -/
structure Labelled (tree : SuffixTree P) (spell : Nat → List Char) : Prop where
  root_lt : root < tree.nodeCount
  spell_root : spell root = []
  edge_lt : ∀ {v c e}, tree.Filed v c e → e < tree.edgeCount
  fits : ∀ {v c e}, tree.Filed v c e → EdgeFits tree spell v c (tree.edge e)
  parent : ∀ {u}, u < tree.nodeCount → u ≠ root → ∃ v c e, tree.Filed v c e ∧
    (tree.edge e).child = u
  filed : ∀ {e}, e < tree.edgeCount → ∃ v c, tree.Filed v c e
  spell_inj : ∀ {u v}, u < tree.nodeCount → v < tree.nodeCount → spell u = spell v → u = v

/-- The string lies on the way from the root to some node. -/
def Spelled (tree : SuffixTree P) (spell : Nat → List Char) (x : List Char) : Prop :=
  ∃ v < tree.nodeCount, x <+: spell v

theorem spelled_spell (h : v < tree.nodeCount) : tree.Spelled spell (spell v) :=
  ⟨v, h, List.prefix_rfl⟩

theorem Spelled.mono (h : tree.Spelled spell y) (hx : x <+: y) : tree.Spelled spell x := by
  obtain ⟨v, hv, hy⟩ := h
  exact ⟨v, hv, hx.trans hy⟩

namespace EdgeFits

variable {edge : TreeEdge}

theorem length_pos (h : EdgeFits tree spell v c edge) : 0 < edge.length :=
  Nat.sub_pos_of_lt h.start_lt

theorem length_label (h : EdgeFits tree spell v c edge) :
    (tree.label edge).length = edge.length :=
  SuffixTree.length_label h.stop_le

theorem getElem?_label (h : EdgeFits tree spell v c edge) {i : Nat} (hi : i < edge.length) :
    (tree.label edge)[i]? = some (tree.charAt edge.text (edge.start + i)) :=
  SuffixTree.getElem?_label h.stop_le hi

theorem label_eq_cons (h : EdgeFits tree spell v c edge) :
    ∃ rest, tree.label edge = c :: rest := by
  have hfirst := h.getElem?_label h.length_pos
  rw [Nat.add_zero, h.first] at hfirst
  cases hlabel : tree.label edge with
  | nil => simp [hlabel] at hfirst
  | cons d rest =>
    rw [hlabel, List.getElem?_cons_zero] at hfirst
    exact ⟨rest, by rw [Option.some.inj hfirst]⟩

/-- The child spells more than its parent. -/
theorem length_spell_lt (h : EdgeFits tree spell v c edge) :
    (spell v).length < (spell edge.child).length := by
  rw [h.spell_child, List.length_append, h.length_label]
  exact Nat.lt_add_of_pos_right h.length_pos

theorem prefix_child (h : EdgeFits tree spell v c edge) : spell v ++ [c] <+: spell edge.child := by
  obtain ⟨rest, hrest⟩ := h.label_eq_cons
  rw [h.spell_child, hrest]
  exact ⟨rest, by simp⟩

end EdgeFits

namespace Labelled

/-- Edges that start alike below one node are the same. -/
theorem filed_unique_of_prefix (h : Labelled tree spell) {e' : Nat} {z : List Char}
    (he : tree.Filed v c e) (he' : tree.Filed v d e')
    (hz : spell (tree.edge e).child <+: z) (hz' : spell (tree.edge e').child <+: z) :
    c = d ∧ e = e' := by
  have hc := (h.fits he).prefix_child.trans hz
  have hd := (h.fits he').prefix_child.trans hz'
  have hcd : spell v ++ [c] = spell v ++ [d] :=
    List.IsPrefix.eq_of_length_le (List.prefix_of_prefix_length_le hc hd (by simp)) (by simp)
  obtain rfl : c = d := by simpa using hcd
  exact ⟨rfl, he.unique he'⟩

/-- An edge leads from a node towards every other node whose string goes on from its own. -/
theorem exists_edge_towards (h : Labelled tree spell) (hu : u < tree.nodeCount)
    (hv : v < tree.nodeCount) (hne : u ≠ v) (hfront : spell v <+: spell u) :
    ∃ c e, tree.Filed v c e ∧ spell (tree.edge e).child <+: spell u := by
  induction hn : (spell u).length using Nat.strongRecOn generalizing u v with
  | _ n ih =>
    subst hn
    have hroot : u ≠ root := by
      rintro rfl
      rw [h.spell_root, List.prefix_nil] at hfront
      exact hne (h.spell_inj hu hv (h.spell_root.trans hfront.symm))
    -- The induction is on the way up from the lower node.
    obtain ⟨p, c, e, he, rfl⟩ := h.parent hu hroot
    have hlt := (h.fits he).length_spell_lt
    have hp : spell p <+: spell (tree.edge e).child :=
      (List.prefix_append _ _).trans (h.fits he).prefix_child
    rcases Nat.lt_or_ge (spell p).length (spell v).length with hlong | hshort
    · -- The node would lie inside the edge, so its own way from `p` would be that edge.
      have hpv : spell p <+: spell v := List.prefix_of_prefix_length_le hp hfront hlong.le
      have hvlt : (spell v).length < (spell (tree.edge e).child).length := by
        refine lt_of_le_of_ne hfront.length_le fun heq => hne ?_
        exact (h.spell_inj hv hu (hfront.eq_of_length heq)).symm
      have hpne : v ≠ p := fun heq => by simp [heq] at hlong
      obtain ⟨d, e', he', hchild⟩ := ih _ hvlt hv he.lt hpne hpv rfl
      obtain ⟨rfl, rfl⟩ := h.filed_unique_of_prefix he he' List.prefix_rfl (hchild.trans hfront)
      exact absurd hchild.length_le (Nat.not_le_of_lt hvlt)
    · have hvp : spell v <+: spell p := List.prefix_of_prefix_length_le hfront hp hshort
      by_cases hpv : p = v
      · exact hpv ▸ ⟨c, e, he, List.prefix_rfl⟩
      · obtain ⟨d, e', he', hchild⟩ := ih _ hlt he.lt hv hpv hvp rfl
        exact ⟨d, e', he', hchild.trans hp⟩

/-- No node lies inside an edge. -/
theorem not_inside (h : Labelled tree spell) (he : tree.Filed v c e) (hu : u < tree.nodeCount)
    (hvu : spell v <+: spell u) (hne : spell u ≠ spell v)
    (hchild : spell u <+: spell (tree.edge e).child) : u = (tree.edge e).child := by
  obtain ⟨d, e', he', hto⟩ := h.exists_edge_towards hu he.lt (fun heq => hne (heq ▸ rfl)) hvu
  obtain ⟨-, rfl⟩ := h.filed_unique_of_prefix he he' List.prefix_rfl (hto.trans hchild)
  exact h.spell_inj hu (h.fits he).child_lt
    (hchild.eq_of_length_le (List.IsPrefix.length_le hto))

/-- An edge is known by its child. -/
theorem edge_unique (h : Labelled tree spell) {e' : Nat} (he : tree.Filed v c e)
    (he' : tree.Filed u d e') (hchild : (tree.edge e).child = (tree.edge e').child) : e = e' := by
  have hv := (List.prefix_append _ _).trans (h.fits he).prefix_child
  have hu := (List.prefix_append _ _).trans (h.fits he').prefix_child
  have hvlt := (h.fits he).length_spell_lt
  have hult := (h.fits he').length_spell_lt
  -- Neither parent can lie inside the other edge.
  have hvu : v = u := by
    rcases List.prefix_or_prefix_of_prefix hv (hchild ▸ hu) with hfront | hfront
    · by_contra hne
      have heq := h.not_inside he he'.lt hfront
        (fun hspell => hne (h.spell_inj he.lt he'.lt hspell.symm)) (hchild ▸ hu)
      rw [heq, hchild] at hult
      exact Nat.lt_irrefl _ hult
    · by_contra hne
      have heq := h.not_inside he' he.lt hfront
        (fun hspell => hne (h.spell_inj he.lt he'.lt hspell)) (hchild ▸ hv)
      rw [heq, ← hchild] at hvlt
      exact Nat.lt_irrefl _ hvlt
  subst hvu
  exact (h.filed_unique_of_prefix he he' List.prefix_rfl (hchild ▸ List.prefix_rfl)).2

/-- A spelled string goes on from a node along an edge, as far as either of them is long. -/
theorem exists_edge_of_spelled (h : Labelled tree spell) (hv : v < tree.nodeCount)
    (hx : tree.Spelled spell (spell v ++ c :: x)) :
    ∃ e, tree.Filed v c e ∧
      (tree.label (tree.edge e) <+: c :: x ∨ c :: x <+: tree.label (tree.edge e)) := by
  obtain ⟨u, hu, hfront⟩ := hx
  have hvu : spell v <+: spell u := (List.prefix_append _ _).trans hfront
  have hne : u ≠ v := by
    rintro rfl
    have hlength := hfront.length_le
    simp only [List.length_append, List.length_cons] at hlength
    omega
  obtain ⟨d, e, he, hchild⟩ := h.exists_edge_towards hu hv hne hvu
  obtain ⟨rest, hrest⟩ := (h.fits he).label_eq_cons
  rw [(h.fits he).spell_child] at hchild
  obtain ⟨z, hz⟩ := hvu
  rw [← hz, List.prefix_append_right_inj] at hchild hfront
  have hcd : d = c := by
    rw [hrest] at hchild
    cases z with
    | nil => simp at hfront
    | cons a z =>
      rw [List.cons_prefix_cons] at hchild hfront
      exact hchild.1.trans hfront.1.symm
  subst hcd
  exact ⟨e, he, List.prefix_or_prefix_of_prefix hchild hfront⟩

theorem spelled_edge (h : Labelled tree spell) (he : tree.Filed v c e)
    (hx : x <+: tree.label (tree.edge e)) : tree.Spelled spell (spell v ++ x) := by
  refine ⟨_, (h.fits he).child_lt, ?_⟩
  rw [(h.fits he).spell_child, List.prefix_append_right_inj]
  exact hx

/-- A spelled string ends at a node or inside an edge. -/
theorem node_or_inside (h : Labelled tree spell) (hx : tree.Spelled spell x) :
    (∃ v < tree.nodeCount, spell v = x) ∨
      ∃ v c e, tree.Filed v c e ∧ spell v <+: x ∧ x ≠ spell v ∧
        x <+: spell (tree.edge e).child ∧ x ≠ spell (tree.edge e).child := by
  obtain ⟨u, hu, hfront⟩ := hx
  induction hn : (spell u).length using Nat.strongRecOn generalizing u with
  | _ n ih =>
    subst hn
    by_cases hroot : u = root
    · subst hroot
      rw [h.spell_root, List.prefix_nil] at hfront
      exact Or.inl ⟨root, hu, h.spell_root.trans hfront.symm⟩
    obtain ⟨p, c, e, he, rfl⟩ := h.parent hu hroot
    have hp : spell p <+: spell (tree.edge e).child :=
      (List.prefix_append _ _).trans (h.fits he).prefix_child
    rcases Nat.lt_or_ge (spell p).length x.length with hlong | hshort
    · by_cases heq : x = spell (tree.edge e).child
      · exact Or.inl ⟨_, hu, heq.symm⟩
      · exact Or.inr ⟨p, c, e, he, List.prefix_of_prefix_length_le hp hfront hlong.le,
          fun hxp => by simp [hxp] at hlong, hfront, heq⟩
    · exact ih _ (h.fits he).length_spell_lt p he.lt
        (List.prefix_of_prefix_length_le hfront hp hshort) rfl

/-- A string inside an edge goes on in one way. -/
theorem prefix_of_inside (h : Labelled tree spell) (he : tree.Filed v c e) (hv : spell v <+: x)
    (hne : x ≠ spell v) (hx : x <+: spell (tree.edge e).child)
    (hne' : x ≠ spell (tree.edge e).child) (hd : tree.Spelled spell (x ++ [d])) :
    x ++ [d] <+: spell (tree.edge e).child := by
  obtain ⟨z, rfl⟩ := hv
  rw [(h.fits he).spell_child, List.prefix_append_right_inj] at hx
  rw [(h.fits he).spell_child, List.append_assoc, List.prefix_append_right_inj]
  rw [(h.fits he).spell_child, Ne, List.append_right_inj] at hne'
  cases z with
  | nil => simp at hne
  | cons a z =>
    obtain ⟨rest, hrest⟩ := (h.fits he).label_eq_cons
    obtain rfl : a = c := by
      rw [hrest, List.cons_prefix_cons] at hx
      exact hx.1
    rw [List.append_assoc] at hd
    obtain ⟨e', he', hto⟩ := h.exists_edge_of_spelled he.lt hd
    obtain rfl := he.unique he'
    rcases hto with hto | hto
    · -- The label is longer than what is spelled of it, so it goes on with the character.
      have hlength : (a :: z).length < (tree.label (tree.edge e)).length :=
        lt_of_le_of_ne hx.length_le fun heq => hne' (hx.eq_of_length heq)
      rw [hto.eq_of_length_le (by simp at hlength ⊢; omega)]
      exact List.prefix_rfl
    · exact hto

/-- A string that goes on in two ways has a node of its own. -/
theorem exists_node_of_branching (h : Labelled tree spell) (hc : tree.Spelled spell (x ++ [c]))
    (hd : tree.Spelled spell (x ++ [d])) (hcd : c ≠ d) : ∃ v < tree.nodeCount, spell v = x := by
  rcases h.node_or_inside (hc.mono (List.prefix_append _ _)) with
    hnode | ⟨v, a, e, he, hv, hne, hx, hne'⟩
  · exact hnode
  · have hc' := h.prefix_of_inside he hv hne hx hne' hc
    have hd' := h.prefix_of_inside he hv hne hx hne' hd
    have heq : x ++ [c] = x ++ [d] :=
      (List.prefix_of_prefix_length_le hc' hd' (by simp)).eq_of_length (by simp)
    exact absurd (by simpa using heq) hcd

end Labelled

end SuffixTree

end SentenceSearch
