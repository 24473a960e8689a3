import SentenceSearch.Proofs.SuffixTree.Growth
import SentenceSearch.Proofs.SuffixTree.Traversal
import SentenceSearch.SuffixTree.Annotate

/-!
# The masks of an annotated tree

After an annotation the mask of every edge is that of the edges below its child. An annotation
changes nothing but the masks.

## Main definitions

* `SuffixTree.UpToDate` — the mask of an edge agrees with those of the edges below its child
* `SuffixTree.Prepared` — the texts of a tree carry the suffix masks of a table

## Main results

* `Labelled.upToDate_annotate` — an annotation brings all masks up to date
* `annotate_eq_self` — it changes nothing when they are up to date already
* `Prepared.maskAt_eq` — the suffix mask of a text is that of the characters from there on
-/

namespace SentenceSearch

namespace SuffixTree

variable {P : Type} {tree tree' : SuffixTree P} {spell : Nat → List Char} {u v e id : Nat}
  {c : Char} {x : List Char} {table : SymbolTable}

/-- The mask of an edge agrees with the masks of the edges below its child. -/
def UpToDate (tree : SuffixTree P) (e : Nat) : Prop :=
  (tree.edge e).childMask = tree.maskBelow (tree.edge e).child

/-! ### One edge -/

theorem edge_annotateEdge (hid : id < tree.edgeCount) :
    (tree.annotateEdge id).edge e = if e = id then
      { tree.edge id with childMask := tree.maskBelow (tree.edge id).child } else tree.edge e := by
  unfold edgeCount at hid
  simp only [annotateEdge, edge, Array.getD_eq_getD_getElem?, Array.getElem?_modify]
  split
  · rename_i heq
    subst heq
    simp [hid]
  · rename_i hne
    rw [if_neg (Ne.symm hne)]

theorem sameShape_annotateEdge (hid : id < tree.edgeCount) :
    SameShape tree (tree.annotateEdge id) where
  nodeCount := rfl
  edgeCount := Array.size_modify
  filed _ _ _ := Iff.rfl
  edge e _ := by
    rw [edge_annotateEdge hid]
    split
    · rename_i heq
      subst heq
      exact ⟨_, rfl⟩
    · exact ⟨(tree.edge e).childMask, rfl⟩
  text _ _ := rfl

/-- The mask below a node changes only with the masks of the edges there. -/
theorem maskBelow_annotateEdge (hid : id < tree.edgeCount) (hfiled : ∀ c, ¬ tree.Filed v c id) :
    (tree.annotateEdge id).maskBelow v = tree.maskBelow v := by
  have hedges : (tree.annotateEdge id).edgesBelow v = tree.edgesBelow v := by
    refine List.map_congr_left fun e he => ?_
    obtain ⟨c, hc⟩ := mem_values_iff.mp he
    rw [edge_annotateEdge hid, if_neg]
    rintro rfl
    exact hfiled c hc
  rw [maskBelow, hedges]
  rfl

theorem Labelled.not_filed_child (h : Labelled tree spell) :
    ¬ tree.Filed (tree.edge e).child c e := fun hloop =>
  Nat.lt_irrefl _ (h.fits hloop).length_spell_lt

/-- The edge is up to date then, and so are those that were and are not above it. -/
theorem Labelled.upToDate_annotateEdge (h : Labelled tree spell) (hid : id < tree.edgeCount) :
    (tree.annotateEdge id).UpToDate id ∧ ∀ e, tree.UpToDate e →
      (∀ c, ¬ tree.Filed (tree.edge e).child c id) → (tree.annotateEdge id).UpToDate e := by
  have hself : (tree.annotateEdge id).UpToDate id := by
    rw [UpToDate, edge_annotateEdge hid, if_pos rfl]
    exact (maskBelow_annotateEdge hid fun d => h.not_filed_child).symm
  refine ⟨hself, fun e hdate hfiled => ?_⟩
  by_cases heq : e = id
  · exact heq ▸ hself
  · rw [UpToDate, edge_annotateEdge hid, if_neg heq, maskBelow_annotateEdge hid hfiled]
    exact hdate

/-! ### All edges -/

/-- The first edge is not below the second one. -/
def NotBelow (tree : SuffixTree P) (e e' : Nat) : Prop :=
  ∀ c, ¬ tree.Filed (tree.edge e').child c e

theorem SameShape.child_edge (hs : SameShape tree tree') (he : e < tree.edgeCount) :
    (tree'.edge e).child = (tree.edge e).child := by
  obtain ⟨mask, hmask⟩ := hs.edge e he
  rw [hmask]

/-- Edges are brought up to date one after another, if each one comes after those below it. -/
theorem Labelled.foldl_annotateEdge (h : Labelled tree spell) (done : List Nat) {order : List Nat}
    (hlt : ∀ e ∈ done ++ order, e < tree.edgeCount)
    (horder : (done ++ order).Pairwise fun e' e => tree.NotBelow e e')
    (hdone : ∀ e ∈ done, tree.UpToDate e) :
    SameShape tree (order.foldl annotateEdge tree) ∧
      ∀ e ∈ done ++ order, (order.foldl annotateEdge tree).UpToDate e := by
  induction order generalizing tree done with
  | nil => exact ⟨SameShape.refl tree, by simpa using hdone⟩
  | cons id order ih =>
    have hid : id < tree.edgeCount := hlt id (by simp)
    have hshape := sameShape_annotateEdge hid
    obtain ⟨hself, hothers⟩ := h.upToDate_annotateEdge hid
    rw [List.append_cons] at hlt horder ⊢
    -- The order speaks about the first tree, the rest of the edges about the next one.
    have horder' : (done ++ [id] ++ order).Pairwise fun e' e =>
        (tree.annotateEdge id).NotBelow e e' := by
      refine horder.imp_of_mem fun he' _ hbelow c hfiled => ?_
      rw [hshape.filed, hshape.child_edge (hlt _ he')] at hfiled
      exact hbelow c hfiled
    have hdone' : ∀ e ∈ done ++ [id], (tree.annotateEdge id).UpToDate e := by
      intro e he
      rcases List.mem_append.mp he with hmem | hmem
      · -- The edge is above none of those that are done with.
        refine hothers e (hdone e hmem) ?_
        have hfront := (List.pairwise_append.mp horder).1
        exact (List.pairwise_append.mp hfront).2.2 e hmem id (List.mem_singleton_self id)
      · exact List.mem_singleton.mp hmem ▸ hself
    obtain ⟨hshape', hdates⟩ := ih (h.congr hshape) (done ++ [id])
      (fun e he => hshape.edgeCount.symm ▸ hlt e he) horder' hdone'
    exact ⟨hshape.trans hshape', hdates⟩

/-- The order of an annotation has every edge, each before those below it. -/
theorem Labelled.edgeOrder_spec (h : Labelled tree spell) :
    (∀ e, e ∈ tree.edgeOrder ↔ e < tree.edgeCount) ∧ tree.edgeOrder.Pairwise tree.NotBelow := by
  obtain ⟨hmem, hpairwise⟩ := h.visit_spec
  have hfiled (v e : Nat) : e ∈ (tree.node v).edges.values ↔ ∃ c, tree.Filed v c e :=
    mem_values_iff
  -- An edge below the child of another one comes from a node that is visited later.
  have hbelow {u w e e' : Nat} {c d : Char} (he : tree.Filed u c e) (he' : tree.Filed w d e')
      (hvisit : u = w ∨ ¬ spell w <+: spell u) : tree.NotBelow e e' := by
    intro a ha
    have hchild := (h.fits he').prefix_child
    have hlength := (h.fits he').length_spell_lt
    rw [← (h.parent_unique he ha).1] at hchild hlength
    rcases hvisit with rfl | hvisit
    · exact Nat.lt_irrefl _ hlength
    · exact hvisit ((List.prefix_append _ _).trans hchild)
  refine ⟨fun e => ?_, ?_⟩
  · rw [edgeOrder, List.mem_flatMap]
    constructor
    · rintro ⟨v, -, he⟩
      obtain ⟨c, hc⟩ := (hfiled v e).mp he
      exact h.edge_lt hc
    · intro he
      obtain ⟨v, c, hc⟩ := h.filed he
      exact ⟨v, (hmem v).mpr hc.lt, (hfiled v e).mpr ⟨c, hc⟩⟩
  · rw [edgeOrder, List.pairwise_flatMap]
    constructor
    · refine fun v _ => List.pairwise_of_forall_mem_list fun e he e' he' => ?_
      obtain ⟨c, hc⟩ := (hfiled v e).mp he
      obtain ⟨d, hd⟩ := (hfiled v e').mp he'
      exact hbelow hc hd (Or.inl rfl)
    · refine hpairwise.imp fun {u w} hvisit e he e' he' => ?_
      obtain ⟨c, hc⟩ := (hfiled u e).mp he
      obtain ⟨d, hd⟩ := (hfiled w e').mp he'
      exact hbelow hc hd (Or.inr hvisit)

/-- An annotation changes nothing but the masks and brings all of them up to date. -/
theorem Labelled.upToDate_annotate (h : Labelled tree spell) :
    SameShape tree tree.annotate ∧ ∀ e < tree.annotate.edgeCount, tree.annotate.UpToDate e := by
  obtain ⟨hmem, hpairwise⟩ := h.edgeOrder_spec
  obtain ⟨hshape, hdates⟩ := h.foldl_annotateEdge []
    (fun e he => (hmem e).mp (by simpa using he)) (List.pairwise_reverse.mpr hpairwise)
    fun e he => by cases he
  have hshape' : SameShape tree tree.annotate :=
    ⟨hshape.nodeCount, hshape.edgeCount, hshape.filed, hshape.edge, hshape.text⟩
  refine ⟨hshape', fun e he => hdates e ?_⟩
  rw [hshape'.edgeCount] at he
  simpa using (hmem e).mpr he

theorem nodes_foldl_annotateEdge (order : List Nat) :
    (order.foldl annotateEdge tree).nodes = tree.nodes ∧
      (order.foldl annotateEdge tree).texts = tree.texts := by
  induction order generalizing tree with
  | nil => exact ⟨rfl, rfl⟩
  | cons id order ih => exact ih

@[simp] theorem nodes_annotate : tree.annotate.nodes = tree.nodes :=
  (nodes_foldl_annotateEdge _).1

@[simp] theorem texts_annotate : tree.annotate.texts = tree.texts :=
  (nodes_foldl_annotateEdge _).2

theorem annotateEdge_eq_self (hdate : e < tree.edgeCount → tree.UpToDate e) :
    tree.annotateEdge e = tree := by
  have hedges : tree.edges.modify e
      (fun edge => { edge with childMask := tree.maskBelow (tree.edge e).child }) = tree.edges := by
    apply Array.ext_getElem?
    intro i
    rw [Array.getElem?_modify]
    split
    · rename_i heq
      subst heq
      cases hedge : tree.edges[e]? with
      | none => rfl
      | some edge =>
        obtain ⟨hlt, -⟩ := Array.getElem?_eq_some_iff.mp hedge
        rw [← hdate hlt]
        simp [SuffixTree.edge, Array.getD_eq_getD_getElem?, hedge]
    · rfl
  rw [annotateEdge, hedges]

/-- An annotation changes nothing when the masks are up to date. -/
theorem annotate_eq_self (hannotated : tree.annotated = true)
    (hdates : ∀ e < tree.edgeCount, tree.UpToDate e) : tree.annotate = tree := by
  rw [annotate, List.foldl_fixed' fun e => annotateEdge_eq_self (hdates e), ← hannotated]

/-! ### The masks of the texts -/

/-- Every text of the tree carries the suffix masks of the table. -/
def Prepared (table : SymbolTable) (tree : SuffixTree P) : Prop :=
  ∀ sentence ∈ tree.texts, ∃ text, sentence = Sentence.ofText table text

theorem Prepared.text (h : Prepared table tree) (i : Nat) :
    ∃ text, tree.text i = Sentence.ofText table text := by
  by_cases hi : i < tree.texts.size
  · have htext : tree.text i = tree.texts[i] := by
      simp [SuffixTree.text, hi]
    exact htext ▸ h _ (Array.getElem_mem hi)
  · refine ⟨[], ?_⟩
    have hnone : tree.texts[i]? = none := Array.getElem?_eq_none (Nat.le_of_not_lt hi)
    simp [SuffixTree.text, hnone, Sentence.ofText, SymbolTable.suffixMasks]
    rfl

/-- The suffix mask of a text at a position is the mask of the text from there on. -/
theorem Prepared.maskAt_eq (h : Prepared table tree) (text i : Nat) :
    (tree.text text).maskAt i = table.maskOf ((tree.text text).chars.toList.drop i) := by
  obtain ⟨chars, htext⟩ := h.text text
  rw [htext, Sentence.maskAt_ofText]
  rfl

/-- The suffix mask at a place of a label offers what is left of the label. -/
theorem Prepared.maskAt_allows (h : Prepared table tree) (edge : TreeEdge) (offset : Nat) :
    (table.maskOf ((tree.label edge).drop offset)).allows
      ((tree.text edge.text).maskAt (edge.start + offset)) = true := by
  rw [label, h.maskAt_eq]
  refine table.maskOf_allows_of_prefix ?_
  simp only [Sentence.slice, Array.toList_extract, List.extract_eq_take_drop,
    List.drop_take, List.drop_drop]
  exact List.take_prefix _ _

end SuffixTree

end SentenceSearch
