import SentenceSearch.Proofs.SuffixTree.Endings

/-!
# The nodes of a suffix tree

The texts alone tell which strings have a node: the empty one, the suffixes of the texts, and the
strings that go on in two ways in the texts. The nodes in turn tell which edges there are. So the
tree does not depend on the order in which the texts are inserted, but for the numbers of nodes and
edges and for the payloads.

## Main definitions

* `IsPart` — a string occurs in one of some texts
* `IsFork` — a string goes on in two ways in some texts

## Main results

* `Settled.spelled_iff_isPart` — a tree spells what occurs in its texts
* `exists_leads_iff` — which strings have a node
* `canonical_ofInserts` — nodes and edges in terms of the texts
-/

namespace SentenceSearch

/-- The string occurs in one of the texts. -/
def IsPart (texts : List (List Char)) (x : List Char) : Prop := ∃ text ∈ texts, x <:+: text

/-- In the texts the string goes on with different characters. -/
def IsFork (texts : List (List Char)) (x : List Char) : Prop :=
  ∃ c d, c ≠ d ∧ IsPart texts (x ++ [c]) ∧ IsPart texts (x ++ [d])

instance (texts : List (List Char)) : DecidablePred (IsPart texts) := fun x =>
  inferInstanceAs (Decidable (∃ text ∈ texts, x <:+: text))

namespace SuffixTree

variable {P : Type} [DecidableEq P] {spell : Nat → List Char} {inserts others : List (Sentence × P)}
  {x label y : List Char} {c : Char}

/-- Whatever occurs in a text begins one of its suffixes. -/
theorem isPart_iff {texts : List (List Char)} (hx : x ≠ []) :
    IsPart texts x ↔ ∃ y, IsEnding texts y ∧ x <+: y := by
  constructor
  · rintro ⟨text, hmem, hpart⟩
    obtain ⟨y, hxy, hy⟩ := List.infix_iff_prefix_suffix.mp hpart
    refine ⟨y, ⟨?_, text, hmem, hy⟩, hxy⟩
    rintro rfl
    exact hx (List.prefix_nil.mp hxy)
  · rintro ⟨y, ⟨-, text, hmem, hy⟩, hxy⟩
    exact ⟨text, hmem, List.infix_iff_prefix_suffix.mpr ⟨y, hxy, hy⟩⟩

/-- A tree spells what occurs in its texts. -/
theorem Settled.spelled_iff_isPart (h : Settled (ofInserts inserts) spell (endsOf inserts))
    (hx : x ≠ []) :
    (ofInserts inserts).Spelled spell x ↔ IsPart (textsOf inserts) x := by
  rw [h.stores.spelled_iff, isPart_iff hx]
  simp only [hx, false_or, endsOf_ne_empty_iff]

theorem Settled.branching_iff_isFork (h : Settled (ofInserts inserts) spell (endsOf inserts)) :
    (ofInserts inserts).Branching spell x ↔ IsFork (textsOf inserts) x := by
  have hspelled (c : Char) :
      (ofInserts inserts).Spelled spell (x ++ [c]) ↔ IsPart (textsOf inserts) (x ++ [c]) :=
    h.spelled_iff_isPart (List.append_ne_nil_of_right_ne_nil x (List.cons_ne_nil c []))
  simp only [Branching, IsFork, hspelled]

/-- The strings that have a node are the empty one, the suffixes of the texts and those that go on
in two ways. -/
theorem exists_leads_iff (inserts : List (Sentence × P)) :
    (∃ v, (ofInserts inserts).Leads x v) ↔
      x = [] ∨ IsEnding (textsOf inserts) x ∨ IsFork (textsOf inserts) x := by
  obtain ⟨spell, hsettled⟩ := exists_settled inserts
  have hlabelled := hsettled.stores.labelled
  simp only [hlabelled.leads_iff]
  constructor
  · rintro ⟨v, hv, rfl⟩
    refine (hsettled.canonical v hv).imp_right fun hneeded => ?_
    exact hneeded.imp endsOf_ne_empty_iff.mp hsettled.branching_iff_isFork.mp
  · rintro (rfl | hending | hfork)
    · exact ⟨root, hlabelled.root_lt, hlabelled.spell_root⟩
    · exact hsettled.stores.ended (endsOf_ne_empty_iff.mpr hending)
    · obtain ⟨c, d, hcd, hc, hd⟩ := hsettled.branching_iff_isFork.mpr hfork
      exact hlabelled.exists_node_of_branching hc hd hcd

/-- Trees of the same texts have nodes for the same strings. -/
theorem exists_leads_congr (h : ∀ text, text ∈ textsOf others ↔ text ∈ textsOf inserts) :
    (∃ v, (ofInserts others).Leads x v) ↔ ∃ v, (ofInserts inserts).Leads x v := by
  simp only [exists_leads_iff, IsEnding, IsFork, IsPart, h]

/-- Trees of the same texts have edges with the same labels between their nodes. -/
theorem joins_congr (h : ∀ text, text ∈ textsOf others ↔ text ∈ textsOf inserts) :
    (ofInserts others).Joins x label y ↔ (ofInserts inserts).Joins x label y := by
  obtain ⟨_, hothers⟩ := exists_settled others
  obtain ⟨_, hinserts⟩ := exists_settled inserts
  rw [hothers.stores.labelled.joins_iff, hinserts.stores.labelled.joins_iff]
  simp only [exists_leads_congr h]

/-- One string leads to each node, and different strings lead to different nodes. They are the empty
string, the suffixes of the texts and the strings that go on in two ways in the texts. Every node
but the root has one edge that leads to it. The same texts in any other order, with any payloads and
however often they come, make the same nodes and edges. -/
theorem canonical_ofInserts (inserts : List (Sentence × P)) :
    (∀ v < (ofInserts inserts).nodeCount, ∃! x, (ofInserts inserts).Leads x v) ∧
    (∀ x u v, (ofInserts inserts).Leads x u → (ofInserts inserts).Leads x v → u = v) ∧
    (∀ x, (∃ v, (ofInserts inserts).Leads x v) ↔
      x = [] ∨ IsEnding (textsOf inserts) x ∨ IsFork (textsOf inserts) x) ∧
    (ofInserts inserts).nodeCount = (ofInserts inserts).edgeCount + 1 ∧
    ∀ others : List (Sentence × P), (∀ text, text ∈ textsOf others ↔ text ∈ textsOf inserts) →
      (∀ x, (∃ v, (ofInserts others).Leads x v) ↔ ∃ v, (ofInserts inserts).Leads x v) ∧
      ∀ x label y, (ofInserts others).Joins x label y ↔ (ofInserts inserts).Joins x label y := by
  obtain ⟨spell, hsettled⟩ := exists_settled inserts
  have hlabelled := hsettled.stores.labelled
  refine ⟨?_, ?_, fun x => exists_leads_iff inserts, hlabelled.nodeCount_eq, ?_⟩
  · intro v hv
    refine ⟨spell v, hlabelled.leads_spell hv, ?_⟩
    intro x hx
    exact (hlabelled.leads_iff.mp hx).2.symm
  · intro x u v hu hv
    obtain ⟨hu, hxu⟩ := hlabelled.leads_iff.mp hu
    obtain ⟨hv, hxv⟩ := hlabelled.leads_iff.mp hv
    exact hlabelled.spell_inj hu hv (hxu.trans hxv.symm)
  · intro others hsame
    exact ⟨fun x => exists_leads_congr hsame, fun x label y => joins_congr hsame⟩

/-- The string where two texts part has a node, whichever of them comes first. -/
theorem canonical_ofInserts_fork :
    (∀ text, text ∈ textsOf [(.ofText .empty "cac".toList, 2), (.ofText .empty "cab".toList, 1)] ↔
      text ∈ textsOf [(.ofText .empty "cab".toList, 1), (.ofText .empty "cac".toList, 2)]) ∧
    ∃ v, (ofInserts [(.ofText .empty "cac".toList, 2), (.ofText .empty "cab".toList, 1)]).Leads
      "ca".toList v := by
  have hsame : ∀ text,
      text ∈ textsOf [(.ofText .empty "cac".toList, 2), (.ofText .empty "cab".toList, 1)] ↔
        text ∈ textsOf [(.ofText .empty "cab".toList, 1), (.ofText .empty "cac".toList, 2)] :=
    fun text => (List.Perm.swap _ _ _).mem_iff
  have hfork : IsFork ["cab".toList, "cac".toList] "ca".toList :=
    ⟨'b', 'c', by decide, by decide, by decide⟩
  obtain ⟨-, -, hnodes, -, horder⟩ := canonical_ofInserts
    [(Sentence.ofText .empty "cab".toList, 1), (Sentence.ofText .empty "cac".toList, 2)]
  exact ⟨hsame, ((horder _ hsame).1 _).mpr ((hnodes _).mpr (Or.inr (Or.inr hfork)))⟩

end SuffixTree

end SentenceSearch
