import SentenceSearch.Proofs.SuffixTree.Endings
import SentenceSearch.SuffixTree.Check

/-!
# Soundness of suffix trees

However many texts are inserted, the structure of the tree stays sound: every node is in reach, no
edge is empty or misfiled, every leaf carries a payload, and suffix links are there and right. So
the check of a tree has nothing to report.

## Main definitions

* `SuffixTree.Sound` — what the check of a tree is about

## Main results

* `Labelled.getElem?_pathMap`, `Labelled.size_pathMap` — the check sees the strings of all nodes
* `Sound.problems_eq_nil` — nothing is reported about a sound tree
* `Settled.sound` — a suffix tree is sound between insertions
* `problems_ofInserts` — nothing is reported after any insertions
-/

namespace SentenceSearch

namespace SuffixTree

variable {P : Type} {tree : SuffixTree P} {spell : Nat → List Char} {ends : List Char → Array P}
  {v : Nat}

/-- The structure of a tree is sound. -/
structure Sound (tree : SuffixTree P) : Prop where
  /-- Every node can be reached from the root. -/
  reached : ∀ v < tree.nodeCount, ∃ x, tree.Leads x v
  /-- An edge is filed under the first character of its label, which is not empty. -/
  first : ∀ {v c e}, tree.Filed v c e → ∃ rest, tree.label (tree.edge e) = c :: rest
  /-- Every leaf carries a payload. -/
  carries : ∀ v < tree.nodeCount, v ≠ root → (∀ c e, ¬ tree.Filed v c e) → tree.payloads v ≠ #[]
  /-- Every node that spells two characters or more has a suffix link. -/
  linked : ∀ {x v}, tree.Leads x v → 2 ≤ x.length → tree.link v ≠ none
  /-- A suffix link leads to the node that spells the same without the first character. -/
  links : ∀ {v u}, tree.link v = some u → ∃ c x, tree.Leads (c :: x) v ∧ tree.Leads x u

/-! ### What the check sees -/

/-- A walk visits every node once. -/
theorem Labelled.visit_perm (h : Labelled tree spell) :
    tree.visit.Perm (List.range tree.nodeCount) := by
  obtain ⟨hmem, hpairwise⟩ := h.visit_spec
  have hnodup : tree.visit.Nodup := by
    apply hpairwise.imp
    rintro u w hne rfl
    exact hne List.prefix_rfl
  rw [List.perm_ext_iff_of_nodup hnodup List.nodup_range]
  intro u
  rw [hmem, List.mem_range]

/-- The strings of the nodes are put on a map under different numbers. -/
theorem Labelled.pathMap_eq (h : Labelled tree spell) :
    tree.pathMap = .ofList (tree.visit.map fun v => (v, spell v)) ∧
      (tree.visit.map fun v => (v, spell v)).Pairwise
        fun entry entry' => ¬ compare entry.1 entry'.1 = .eq := by
  constructor
  · rw [pathMap, h.paths_eq, Std.ExtTreeMap.ofList_eq_insertMany_empty]
    exact foldl_insert_eq _ _
  · rw [List.pairwise_map]
    apply (h.visit_perm.nodup_iff.mpr List.nodup_range).imp
    intro u w hne heq
    exact hne (Std.compare_eq_iff_eq.mp heq)

theorem Labelled.getElem?_pathMap (h : Labelled tree spell) (hv : v < tree.nodeCount) :
    tree.pathMap[v]? = some (spell v) := by
  obtain ⟨heq, hdistinct⟩ := h.pathMap_eq
  rw [heq]
  apply Std.ExtTreeMap.getElem?_ofList_of_mem Std.ReflCmp.compare_self hdistinct
  exact List.mem_map.mpr ⟨v, h.visit_perm.mem_iff.mpr (List.mem_range.mpr hv), rfl⟩

theorem Labelled.size_pathMap (h : Labelled tree spell) : tree.pathMap.size = tree.nodeCount := by
  obtain ⟨heq, hdistinct⟩ := h.pathMap_eq
  rw [heq, Std.ExtTreeMap.size_ofList hdistinct, List.length_map, h.visit_perm.length_eq,
    List.length_range]

/-! ### What the check reports -/

namespace Sound

theorem edgeProblems_eq_nil (hsound : Sound tree) (h : Labelled tree spell) (v : Nat) :
    tree.edgeProblems v = [] := by
  rw [edgeProblems, List.flatMap_eq_nil_iff]
  rintro ⟨c, e⟩ hmem
  have he : tree.Filed v c e := Std.ExtTreeMap.mem_toList_iff_getElem?_eq_some.mp hmem
  have hfit := h.fits he
  obtain ⟨rest, hrest⟩ := hsound.first he
  have hlength := hfit.length_label
  have hchar := hfit.getElem?_label hfit.length_pos
  rw [hrest, List.length_cons] at hlength
  rw [hrest, List.getElem?_cons_zero, Nat.add_zero, Option.some.injEq] at hchar
  dsimp only
  rw [if_neg (by omega), if_neg (not_not.mpr hchar.symm)]

theorem leafProblems_eq_nil (hsound : Sound tree) (hv : v < tree.nodeCount) :
    tree.leafProblems v = [] := by
  rw [leafProblems]
  apply if_neg
  rintro ⟨hroot, hedges, hpayloads⟩
  refine hsound.carries v hv hroot ?_ (Array.isEmpty_iff.mp hpayloads)
  intro c e he
  rw [Filed, Std.ExtTreeMap.isEmpty_iff.mp hedges, Std.ExtTreeMap.getElem?_empty] at he
  cases he

theorem linkProblems_eq_nil (hsound : Sound tree) (h : Labelled tree spell)
    (hv : v < tree.nodeCount) : tree.linkProblems tree.pathMap v = [] := by
  rw [linkProblems, h.getElem?_pathMap hv]
  dsimp only
  cases hlink : (tree.node v).link with
  | none =>
    apply if_neg
    intro hlength
    exact hsound.linked (h.leads_spell hv) hlength hlink
  | some u =>
    obtain ⟨c, x, hlong, hshort⟩ := hsound.links hlink
    obtain ⟨-, hspell⟩ := h.leads_iff.mp hlong
    obtain ⟨hu, htail⟩ := h.leads_iff.mp hshort
    dsimp only
    rw [h.getElem?_pathMap hu, hspell, htail]
    exact if_pos ⟨List.cons_ne_nil c x, rfl⟩

/-- Nothing is reported about a sound tree. -/
theorem problems_eq_nil (hsound : Sound tree) (h : Labelled tree spell) : tree.problems = [] := by
  rw [problems, h.size_pathMap, if_pos rfl, List.nil_append, List.flatMap_eq_nil_iff]
  intro v hmem
  have hv := List.mem_range.mp hmem
  rw [hsound.edgeProblems_eq_nil h v, hsound.leafProblems_eq_nil hv,
    hsound.linkProblems_eq_nil h hv, List.append_nil, List.append_nil]

end Sound

/-! ### Trees of texts -/

/-- A suffix tree is sound between insertions. -/
theorem Settled.sound (h : Settled tree spell ends) : Sound tree := by
  have hlabelled := h.stores.labelled
  refine ⟨?_, ?_, ?_, ?_, ?_⟩
  · intro v hv
    exact ⟨spell v, hlabelled.leads_spell hv⟩
  · intro v c e he
    exact (hlabelled.fits he).label_eq_cons
  · intro v hv hroot hleaf
    rw [h.stores.payloads hv]
    rcases h.canonical v hv with hnil | hends | ⟨c, d, -, hc, -⟩
    · exact absurd (hlabelled.spell_inj hv hlabelled.root_lt (hnil.trans hlabelled.spell_root.symm))
        hroot
    · exact hends
    · -- A string that goes on does so along an edge.
      obtain ⟨e, he, -⟩ := hlabelled.exists_edge_of_spelled hv hc
      exact absurd he (hleaf c e)
  · intro x v hx hlength
    obtain ⟨hv, rfl⟩ := hlabelled.leads_iff.mp hx
    apply h.linked v hv
    intro htail
    have hshort := congrArg List.length htail
    rw [List.length_tail, List.length_nil] at hshort
    omega
  · intro v u hlink
    obtain ⟨hv, hu, hne, htail⟩ := h.stores.links hlink
    obtain ⟨c, x, hspell⟩ := List.exists_cons_of_ne_nil hne
    rw [hspell, List.tail_cons] at htail
    exact ⟨c, x, hspell ▸ hlabelled.leads_spell hv, htail ▸ hlabelled.leads_spell hu⟩

/-- After any insertions the tree is sound, and nothing is reported about it. -/
theorem problems_ofInserts [DecidableEq P] (inserts : List (Sentence × P)) :
    (ofInserts inserts).problems = [] ∧ Sound (ofInserts inserts) := by
  obtain ⟨spell, hsettled⟩ := exists_settled inserts
  exact ⟨hsettled.sound.problems_eq_nil hsettled.stores.labelled, hsettled.sound⟩

end SuffixTree

end SentenceSearch
