import SentenceSearch.Proofs.SuffixTree.Labelling
import SentenceSearch.SuffixTree.Insert

/-!
# How a suffix tree grows

What each step of an insertion does to the nodes and edges, and which string it adds. A leaf spells
one string more; cutting an edge gives a node to a string inside it.

## Main definitions

* `SuffixTree.SameShape` — two trees differ in payloads, links and masks alone
* `SuffixTree.credit` — payloads with one more, unless it is the last one already

## Main results

* `Labelled.congr` — a labelling depends on the shape alone
* `Labelled.addLeaf`, `Labelled.splitEdge` — a new node spells what it stands for
-/

namespace SentenceSearch

namespace SuffixTree

variable {P : Type} {tree tree' : SuffixTree P} {spell : Nat → List Char} {u v e id : Nat}
  {c : Char} {x : List Char}

/-! ### Changes of one node -/

theorem node_modifyNode {f : TreeNode P → TreeNode P} :
    (tree.modifyNode id f).node v =
      if v = id ∧ id < tree.nodeCount then f (tree.node v) else tree.node v := by
  by_cases hv : v < tree.nodeCount
  · have hs : tree.nodes[v]? = some tree.nodes[v] := Array.getElem?_eq_getElem hv
    simp only [node, modifyNode, Array.getD_eq_getD_getElem?, Array.getElem?_modify, hs,
      Option.map_some, Option.getD_some, eq_comm (a := id)]
    by_cases hid : v = id
    · subst hid
      simp [hv]
    · simp [hid]
  · have hcond : ¬ (v = id ∧ id < tree.nodeCount) := fun h => hv (h.1 ▸ h.2)
    rw [if_neg hcond]
    have hle := Nat.le_of_not_lt hv
    rw [node_of_nodeCount_le hle, node_of_nodeCount_le]
    simpa [modifyNode, nodeCount] using hle

/-- The payloads with one more, unless it is the last one already. -/
def credit [DecidableEq P] (payloads : Array P) (p : P) : Array P :=
  if payloads.back? = some p then payloads else payloads.push p

theorem payloads_attach [DecidableEq P] {p : P} (h : id < tree.nodeCount) :
    (tree.attach id p).payloads v =
      if v = id then credit (tree.payloads v) p else tree.payloads v := by
  unfold payloads attach
  rw [node_modifyNode]
  by_cases hv : v = id
  · subst hv
    simp only [h, and_self, if_true, credit]
    split <;> rfl
  · simp [hv]

@[simp] theorem link_attach [DecidableEq P] {p : P} : (tree.attach id p).link v = tree.link v := by
  unfold link attach
  rw [node_modifyNode]
  split
  · split <;> rfl
  · rfl

@[simp] theorem payloads_setLink {target : Nat} :
    (tree.setLink id target).payloads v = tree.payloads v := by
  unfold payloads setLink
  rw [node_modifyNode]
  split <;> rfl

theorem link_setLink {target : Nat} (h : id < tree.nodeCount) :
    (tree.setLink id target).link v = if v = id then some target else tree.link v := by
  unfold link setLink
  rw [node_modifyNode]
  by_cases hv : v = id <;> simp [hv, h]

/-! ### Trees of the same shape -/

/-- The trees have the same edges between the same nodes. -/
structure SameShape (tree tree' : SuffixTree P) : Prop where
  nodeCount : tree'.nodeCount = tree.nodeCount
  edgeCount : tree'.edgeCount = tree.edgeCount
  filed : ∀ v c e, tree'.Filed v c e ↔ tree.Filed v c e
  edge : ∀ e < tree.edgeCount, ∃ mask, tree'.edge e = { tree.edge e with childMask := mask }
  text : ∀ e < tree.edgeCount, tree'.text (tree.edge e).text = tree.text (tree.edge e).text

theorem SameShape.refl (tree : SuffixTree P) : SameShape tree tree where
  nodeCount := rfl
  edgeCount := rfl
  filed _ _ _ := Iff.rfl
  edge e _ := ⟨(tree.edge e).childMask, rfl⟩
  text _ _ := rfl

theorem SameShape.trans {tree'' : SuffixTree P} (h : SameShape tree tree')
    (h' : SameShape tree' tree'') : SameShape tree tree'' where
  nodeCount := h'.nodeCount.trans h.nodeCount
  edgeCount := h'.edgeCount.trans h.edgeCount
  filed v c e := (h'.filed v c e).trans (h.filed v c e)
  edge e he := by
    obtain ⟨mask, hmask⟩ := h.edge e he
    obtain ⟨mask', hmask'⟩ := h'.edge e (h.edgeCount ▸ he)
    exact ⟨mask', by rw [hmask', hmask]⟩
  text e he := by
    obtain ⟨mask, hmask⟩ := h.edge e he
    have htext := h'.text e (h.edgeCount ▸ he)
    rw [hmask] at htext
    exact htext.trans (h.text e he)

theorem sameShape_modifyNode {f : TreeNode P → TreeNode P} (hf : ∀ n, (f n).edges = n.edges) :
    SameShape tree (tree.modifyNode id f) where
  nodeCount := Array.size_modify
  edgeCount := rfl
  filed v c e := by
    rw [Filed, node_modifyNode]
    split
    · rw [hf]
      rfl
    · rfl
  edge e _ := ⟨(tree.edge e).childMask, rfl⟩
  text _ _ := rfl

theorem sameShape_setLink {target : Nat} : SameShape tree (tree.setLink id target) :=
  sameShape_modifyNode fun _ => rfl

theorem sameShape_attach [DecidableEq P] {p : P} : SameShape tree (tree.attach id p) :=
  sameShape_modifyNode fun n => by
    split <;> rfl

/-- What an edge has to satisfy depends on its own text, its two nodes and nothing else. -/
theorem EdgeFits.congr {spell' : Nat → List Char} {edge edge' : TreeEdge}
    (h : EdgeFits tree spell v c edge) (hedge : ∃ mask, edge' = { edge with childMask := mask })
    (hcount : tree.nodeCount ≤ tree'.nodeCount)
    (htext : tree'.text edge.text = tree.text edge.text) (hv : spell' v = spell v)
    (hchild : spell' edge.child = spell edge.child) : EdgeFits tree' spell' v c edge' := by
  obtain ⟨mask, rfl⟩ := hedge
  refine ⟨Nat.lt_of_lt_of_le h.child_lt hcount, h.start_lt, ?_, ?_, ?_⟩
  · rw [htext]
    exact h.stop_le
  · rw [charAt, htext]
    exact h.first
  · rw [hchild, hv, label, htext]
    exact h.spell_child

/-- A labelling depends on the shape of the tree alone. -/
theorem Labelled.congr (h : Labelled tree spell) (hs : SameShape tree tree') :
    Labelled tree' spell where
  root_lt := hs.nodeCount ▸ h.root_lt
  spell_root := h.spell_root
  edge_lt he := hs.edgeCount ▸ h.edge_lt ((hs.filed _ _ _).mp he)
  fits {v c e} he := by
    rw [hs.filed] at he
    exact (h.fits he).congr (hs.edge e (h.edge_lt he)) (Nat.le_of_eq hs.nodeCount.symm)
      (hs.text e (h.edge_lt he)) rfl rfl
  parent {u} hu hroot := by
    obtain ⟨v, c, e, he, rfl⟩ := h.parent (hs.nodeCount ▸ hu) hroot
    obtain ⟨mask, hmask⟩ := hs.edge e (h.edge_lt he)
    exact ⟨v, c, e, (hs.filed _ _ _).mpr he, by rw [hmask]⟩
  filed he := by
    obtain ⟨v, c, hfiled⟩ := h.filed (hs.edgeCount ▸ he)
    exact ⟨v, c, (hs.filed _ _ _).mpr hfiled⟩
  spell_inj hu hv := h.spell_inj (hs.nodeCount ▸ hu) (hs.nodeCount ▸ hv)

theorem SameShape.spelled_iff (hs : SameShape tree tree') :
    tree'.Spelled spell x ↔ tree.Spelled spell x := by
  rw [Spelled, Spelled, hs.nodeCount]

/-- Nodes are told apart by their strings, also a new one whose string is new. -/
theorem Labelled.update_inj (h : Labelled tree spell) (hnew : ∀ v < tree.nodeCount, spell v ≠ x)
    {u v : Nat} (hu : u < tree.nodeCount + 1) (hv : v < tree.nodeCount + 1)
    (heq : Function.update spell tree.nodeCount x u = Function.update spell tree.nodeCount x v) :
    u = v := by
  rcases Nat.lt_or_eq_of_le (Nat.le_of_lt_succ hu) with hu | rfl <;>
    rcases Nat.lt_or_eq_of_le (Nat.le_of_lt_succ hv) with hv | rfl
  · rw [Function.update_of_ne (Nat.ne_of_lt hu), Function.update_of_ne (Nat.ne_of_lt hv)] at heq
    exact h.spell_inj hu hv heq
  · rw [Function.update_of_ne (Nat.ne_of_lt hu), Function.update_self] at heq
    exact absurd heq (hnew u hu)
  · rw [Function.update_self, Function.update_of_ne (Nat.ne_of_lt hv)] at heq
    exact absurd heq.symm (hnew v hv)
  · rfl

/-! ### Leaves -/

section Leaf

variable {incoming : Incoming P} {parent start : Nat}

@[simp] theorem nodeCount_addLeaf :
    (tree.addLeaf incoming parent start).nodeCount = tree.nodeCount + 1 := by
  simp [addLeaf, nodeCount]

@[simp] theorem edgeCount_addLeaf :
    (tree.addLeaf incoming parent start).edgeCount = tree.edgeCount + 1 :=
  Array.size_push _

@[simp] theorem text_addLeaf (i : Nat) :
    (tree.addLeaf incoming parent start).text i = tree.text i := rfl

theorem node_addLeaf (h : parent < tree.nodeCount) :
    (tree.addLeaf incoming parent start).node v =
      if v = parent then
        { tree.node v with
          edges := (tree.node v).edges.insert (incoming.charAt start) tree.edgeCount }
      else if v = tree.nodeCount then ⟨∅, #[incoming.payload], none⟩
      else tree.node v := by
  have hparent : parent < tree.nodes.size := h
  simp only [node, addLeaf, nodeCount, edgeCount, Array.getD_eq_getD_getElem?,
    Array.getElem?_modify, Array.getElem?_push, eq_comm (a := parent)]
  by_cases hv : v = parent
  · subst hv
    simp [hparent, Nat.ne_of_lt hparent]
  · rw [if_neg hv, if_neg hv]
    split <;> rfl

theorem edge_addLeaf :
    (tree.addLeaf incoming parent start).edge e =
      if e = tree.edgeCount then ⟨incoming.text, start, incoming.chars.size, tree.nodeCount, 0⟩
      else tree.edge e := by
  simp only [edge, addLeaf, nodeCount, edgeCount, Array.getD_eq_getD_getElem?,
    Array.getElem?_push]
  split <;> rfl

theorem filed_addLeaf (h : parent < tree.nodeCount)
    (hfree : ∀ e, ¬ tree.Filed parent (incoming.charAt start) e) :
    (tree.addLeaf incoming parent start).Filed v c e ↔
      tree.Filed v c e ∨ v = parent ∧ c = incoming.charAt start ∧ e = tree.edgeCount := by
  rw [Filed, node_addLeaf h]
  by_cases hv : v = parent
  · subst hv
    rw [if_pos rfl]
    simp only [Std.ExtTreeMap.getElem?_insert, Std.compare_eq_iff_eq]
    by_cases hc : incoming.charAt start = c
    · subst hc
      simp only [if_true, Option.some.injEq, true_and, hfree, false_or, eq_comm]
    · simp only [if_neg hc, Ne.symm hc, true_and, false_and, or_false]
      rfl
  · rw [if_neg hv]
    simp only [hv, false_and, or_false]
    split
    · rename_i heq
      rw [Filed, heq, node_of_nodeCount_le (Nat.le_refl _)]
      simp [TreeNode.blank]
    · rfl

theorem payloads_addLeaf (h : parent < tree.nodeCount) :
    (tree.addLeaf incoming parent start).payloads v =
      if v = tree.nodeCount then #[incoming.payload] else tree.payloads v := by
  rw [payloads, node_addLeaf h]
  by_cases hv : v = parent
  · subst hv
    rw [if_pos rfl, if_neg (Nat.ne_of_lt h)]
    rfl
  · rw [if_neg hv]
    split <;> rfl

theorem link_addLeaf (h : parent < tree.nodeCount) :
    (tree.addLeaf incoming parent start).link v = tree.link v := by
  rw [link, node_addLeaf h]
  by_cases hv : v = parent
  · subst hv
    rw [if_pos rfl]
    rfl
  · rw [if_neg hv]
    split
    · rename_i heq
      rw [link, heq, node_of_nodeCount_le (Nat.le_refl _)]
      rfl
    · rfl

theorem Incoming.drop_eq_cons (h : start < incoming.chars.size) :
    incoming.chars.toList.drop start =
      incoming.charAt start :: incoming.chars.toList.drop (start + 1) := by
  rw [List.drop_eq_getElem_cons (by simpa using h)]
  simp [Incoming.charAt, h]

/-- No node spells a string that leaves a node where no edge is filed. -/
theorem Labelled.spell_ne_of_free {c : Char} {rest : List Char} (h : Labelled tree spell)
    (hparent : parent < tree.nodeCount) (hfree : ∀ e, ¬ tree.Filed parent c e)
    (hv : v < tree.nodeCount) : spell v ≠ spell parent ++ c :: rest := by
  intro heq
  have hspelled : tree.Spelled spell (spell v) := spelled_spell hv
  rw [heq] at hspelled
  obtain ⟨e, he, -⟩ := h.exists_edge_of_spelled hparent hspelled
  exact hfree e he

/-- A leaf below a node without a fitting edge spells the string of the node and the rest of the
text. -/
theorem Labelled.addLeaf (h : Labelled tree spell) (hparent : parent < tree.nodeCount)
    (hfree : ∀ e, ¬ tree.Filed parent (incoming.charAt start) e)
    (hstart : start < incoming.chars.size)
    (htext : (tree.text incoming.text).chars = incoming.chars) :
    Labelled (tree.addLeaf incoming parent start) (Function.update spell tree.nodeCount
      (spell parent ++ incoming.chars.toList.drop start)) := by
  set spell' := Function.update spell tree.nodeCount
    (spell parent ++ incoming.chars.toList.drop start) with hspell'
  have hold : ∀ v < tree.nodeCount, spell' v = spell v := fun v hv =>
    Function.update_of_ne (Nat.ne_of_lt hv) _ _
  have hnew : spell' tree.nodeCount = spell parent ++ incoming.chars.toList.drop start :=
    Function.update_self _ _ _
  -- Every field splits into what was there, which keeps its string, and what the leaf brings.
  refine ⟨?_, ?_, fun he => ?_, fun he => ?_, fun {u} hu hroot => ?_, fun {e} he => ?_,
    fun {u v} hu hv heq => ?_⟩
  · rw [nodeCount_addLeaf]
    exact Nat.lt_succ_of_lt h.root_lt
  · rw [hold root h.root_lt, h.spell_root]
  · rw [edgeCount_addLeaf]
    rcases (filed_addLeaf hparent hfree).mp he with he | ⟨-, -, rfl⟩
    · exact Nat.lt_succ_of_lt (h.edge_lt he)
    · exact Nat.lt_succ_self _
  · rcases (filed_addLeaf hparent hfree).mp he with he | ⟨rfl, rfl, rfl⟩
    · have hlt := h.edge_lt he
      rw [edge_addLeaf, if_neg (Nat.ne_of_lt hlt)]
      exact (h.fits he).congr ⟨_, rfl⟩ (by simp) rfl (hold _ he.lt) (hold _ (h.fits he).child_lt)
    · rw [edge_addLeaf, if_pos rfl]
      refine ⟨by simp, hstart, ?_, ?_, ?_⟩
      · rw [text_addLeaf, Sentence.size, htext]
      · rw [charAt, text_addLeaf, htext]
        rfl
      · rw [hnew, hold _ hparent, label, text_addLeaf, Sentence.slice, htext]
        simp
  · rcases Nat.lt_or_eq_of_le (Nat.le_of_lt_succ (nodeCount_addLeaf ▸ hu)) with hu | rfl
    · obtain ⟨v, c, e, he, rfl⟩ := h.parent hu hroot
      refine ⟨v, c, e, (filed_addLeaf hparent hfree).mpr (Or.inl he), ?_⟩
      rw [edge_addLeaf, if_neg (Nat.ne_of_lt (h.edge_lt he))]
    · refine ⟨parent, _, _, (filed_addLeaf hparent hfree).mpr (Or.inr ⟨rfl, rfl, rfl⟩), ?_⟩
      rw [edge_addLeaf, if_pos rfl]
  · rcases Nat.lt_or_eq_of_le (Nat.le_of_lt_succ (edgeCount_addLeaf ▸ he)) with he | rfl
    · obtain ⟨v, c, hfiled⟩ := h.filed he
      exact ⟨v, c, (filed_addLeaf hparent hfree).mpr (Or.inl hfiled)⟩
    · exact ⟨parent, _, (filed_addLeaf hparent hfree).mpr (Or.inr ⟨rfl, rfl, rfl⟩)⟩
  · refine h.update_inj (fun w hw => ?_) (nodeCount_addLeaf ▸ hu) (nodeCount_addLeaf ▸ hv) heq
    rw [Incoming.drop_eq_cons hstart]
    exact h.spell_ne_of_free hparent hfree hw

end Leaf

/-! ### Cuts -/

section Cut

variable {depth : Nat}

/-- The character below a cut. -/
def keyBelow (tree : SuffixTree P) (id depth : Nat) : Char :=
  tree.charAt (tree.edge id).text ((tree.edge id).start + depth)

@[simp] theorem nodeCount_splitEdge : (tree.splitEdge id depth).nodeCount = tree.nodeCount + 1 :=
  Array.size_push _

@[simp] theorem edgeCount_splitEdge : (tree.splitEdge id depth).edgeCount = tree.edgeCount + 1 := by
  simp [splitEdge, edgeCount]

@[simp] theorem text_splitEdge (i : Nat) : (tree.splitEdge id depth).text i = tree.text i := rfl

theorem node_splitEdge :
    (tree.splitEdge id depth).node v =
      if v = tree.nodeCount then
        ⟨.ofList [(tree.keyBelow id depth, tree.edgeCount)], #[], none⟩
      else tree.node v := by
  simp only [node, splitEdge, nodeCount, edgeCount, Array.getD_eq_getD_getElem?,
    Array.getElem?_push]
  split <;> rfl

theorem edge_splitEdge (hid : id < tree.edgeCount) :
    (tree.splitEdge id depth).edge e =
      if e = id then
        { tree.edge id with stop := (tree.edge id).start + depth, child := tree.nodeCount }
      else if e = tree.edgeCount then { tree.edge id with start := (tree.edge id).start + depth }
      else tree.edge e := by
  have hsize : id < tree.edges.size := hid
  simp only [edge, splitEdge, nodeCount, edgeCount, Array.getD_eq_getD_getElem?,
    Array.getElem?_modify, Array.getElem?_push, eq_comm (a := id)]
  by_cases he : e = id
  · subst he
    simp [Nat.ne_of_lt hsize, hsize]
  · rw [if_neg he, if_neg he]
    split <;> rfl

theorem filed_splitEdge :
    (tree.splitEdge id depth).Filed v c e ↔
      tree.Filed v c e ∨
        v = tree.nodeCount ∧ c = tree.keyBelow id depth ∧ e = tree.edgeCount := by
  rw [Filed, node_splitEdge]
  split
  · rename_i heq
    subst heq
    have hnone : ¬ tree.Filed tree.nodeCount c e := fun he => Nat.lt_irrefl _ he.lt
    simp only [hnone, true_and, false_or, Std.ExtTreeMap.ofList_singleton,
      Std.ExtTreeMap.getElem?_insert, Std.compare_eq_iff_eq, Std.ExtTreeMap.getElem?_empty]
    split
    · rename_i hkey
      simp only [hkey, true_and, Option.some.injEq, eq_comm]
    · rename_i hkey
      simp [Ne.symm hkey]
  · rename_i hne
    simp only [hne, false_and, or_false]
    rfl

theorem payloads_splitEdge : (tree.splitEdge id depth).payloads v = tree.payloads v := by
  rw [payloads, node_splitEdge]
  split
  · rename_i heq
    rw [payloads, heq, node_of_nodeCount_le (Nat.le_refl _)]
    rfl
  · rfl

theorem link_splitEdge : (tree.splitEdge id depth).link v = tree.link v := by
  rw [link, node_splitEdge]
  split
  · rename_i heq
    rw [link, heq, node_of_nodeCount_le (Nat.le_refl _)]
    rfl
  · rfl

/-- An edge is filed in one place. -/
theorem Labelled.parent_unique (h : Labelled tree spell) {d : Char} (he : tree.Filed v c e)
    (he' : tree.Filed u d e) : v = u ∧ c = d := by
  have hspell : spell v ++ tree.label (tree.edge e) = spell u ++ tree.label (tree.edge e) :=
    (h.fits he).spell_child.symm.trans (h.fits he').spell_child
  exact ⟨h.spell_inj he.lt he'.lt (List.append_cancel_right hspell),
    (h.fits he).first.symm.trans (h.fits he').first⟩

theorem label_upper {edge : TreeEdge} {child : Nat} (h : depth ≤ edge.length) :
    tree.label { edge with stop := edge.start + depth, child } = (tree.label edge).take depth := by
  unfold TreeEdge.length at h
  simp only [label, Sentence.slice, Array.toList_extract, List.extract_eq_take_drop,
    List.take_take]
  congr 1
  omega

theorem label_lower {edge : TreeEdge} :
    tree.label { edge with start := edge.start + depth } = (tree.label edge).drop depth := by
  simp only [label, Sentence.slice, Array.toList_extract, List.extract_eq_take_drop,
    List.drop_take, List.drop_drop]
  congr 1
  omega

/-- The part of an edge above a cut. -/
theorem EdgeFits.upper {spell' : Nat → List Char} {edge : TreeEdge} {middle : Nat}
    (h : EdgeFits tree spell v c edge) (hdepth : 0 < depth) (hlt : depth < edge.length)
    (htext : tree'.text edge.text = tree.text edge.text) (hmiddle : middle < tree'.nodeCount)
    (hv : spell' v = spell v) (hspell : spell' middle = spell v ++ (tree.label edge).take depth) :
    EdgeFits tree' spell' v c
      { edge with stop := edge.start + depth, child := middle } := by
  have hstop : edge.start + depth ≤ edge.stop := by
    unfold TreeEdge.length at hlt
    omega
  refine ⟨hmiddle, Nat.lt_add_of_pos_right hdepth, ?_, ?_, ?_⟩
  · rw [htext]
    exact hstop.trans h.stop_le
  · rw [charAt, htext]
    exact h.first
  · rw [hspell, hv, ← label_upper hlt.le, label, label, htext]

/-- The part of an edge below a cut. -/
theorem EdgeFits.lower {spell' : Nat → List Char} {edge : TreeEdge} {middle : Nat}
    (h : EdgeFits tree spell v c edge) (hlt : depth < edge.length)
    (hcount : tree.nodeCount ≤ tree'.nodeCount)
    (htext : tree'.text edge.text = tree.text edge.text)
    (hchild : spell' edge.child = spell edge.child)
    (hspell : spell' middle = spell v ++ (tree.label edge).take depth) :
    EdgeFits tree' spell' middle (tree.charAt edge.text (edge.start + depth))
      { edge with start := edge.start + depth } := by
  refine ⟨Nat.lt_of_lt_of_le h.child_lt hcount, ?_, ?_, ?_, ?_⟩
  · change edge.start + depth < edge.stop
    unfold TreeEdge.length at hlt
    omega
  · rw [htext]
    exact h.stop_le
  · rw [charAt, charAt, htext]
  · have hlabel : tree'.label { edge with start := edge.start + depth } =
        (tree.label edge).drop depth := by
      rw [← label_lower, label, label, htext]
    rw [hchild, hlabel, hspell, List.append_assoc, List.take_append_drop]
    exact h.spell_child

/-- No node spells a string that ends inside an edge. -/
theorem Labelled.spell_ne_of_inside (h : Labelled tree spell) (he : tree.Filed v c id)
    (hdepth : 0 < depth) (hlt : depth < (tree.edge id).length) (hu : u < tree.nodeCount) :
    spell u ≠ spell v ++ (tree.label (tree.edge id)).take depth := by
  intro heq
  have hfit := h.fits he
  have hlength := congrArg List.length heq
  rw [List.length_append, List.length_take, hfit.length_label] at hlength
  have hchild : spell u <+: spell (tree.edge id).child := by
    rw [heq, hfit.spell_child, List.prefix_append_right_inj]
    exact List.take_prefix _ _
  have hlong : spell u ≠ spell v := fun hv => by
    rw [hv] at hlength
    omega
  -- So it would be the child of the edge, whose string is too long for the cut.
  obtain rfl := h.not_inside he hu (heq ▸ List.prefix_append _ _) hlong hchild
  have hwhole := congrArg List.length hfit.spell_child
  rw [List.length_append, hfit.length_label] at hwhole
  omega

/-- The node at a cut spells the string down to it. -/
theorem Labelled.splitEdge (h : Labelled tree spell) (he : tree.Filed v c id) (hdepth : 0 < depth)
    (hlt : depth < (tree.edge id).length) :
    Labelled (tree.splitEdge id depth) (Function.update spell tree.nodeCount
      (spell v ++ (tree.label (tree.edge id)).take depth)) := by
  set x := spell v ++ (tree.label (tree.edge id)).take depth with hx
  set spell' := Function.update spell tree.nodeCount x with hspell'
  have hold : ∀ u < tree.nodeCount, spell' u = spell u := fun u hu =>
    Function.update_of_ne (Nat.ne_of_lt hu) _ _
  have hnew : spell' tree.nodeCount = x := Function.update_self _ _ _
  have hfit := h.fits he
  have hid := h.edge_lt he
  -- The edge keeps its number for the upper part, and the lower part gets a new one.
  have hedge : ∀ e', e' < tree.edgeCount → e' ≠ id →
      (tree.splitEdge id depth).edge e' = tree.edge e' := by
    intro e' he' hne
    rw [edge_splitEdge hid, if_neg hne, if_neg (Nat.ne_of_lt he')]
  have hlower : (tree.splitEdge id depth).edge tree.edgeCount =
      { tree.edge id with start := (tree.edge id).start + depth } := by
    rw [edge_splitEdge hid, if_neg (Nat.ne_of_gt hid), if_pos rfl]
  have hupper : (tree.splitEdge id depth).edge id =
      { tree.edge id with stop := (tree.edge id).start + depth, child := tree.nodeCount } := by
    rw [edge_splitEdge hid, if_pos rfl]
  refine ⟨?_, ?_, fun he' => ?_, fun {v' c' e'} he' => ?_, fun {u} hu hroot => ?_,
    fun {e'} he' => ?_, fun {u w} hu hw heq => ?_⟩
  · rw [nodeCount_splitEdge]
    exact Nat.lt_succ_of_lt h.root_lt
  · rw [hold root h.root_lt, h.spell_root]
  · rw [edgeCount_splitEdge]
    rcases filed_splitEdge.mp he' with he' | ⟨-, -, rfl⟩
    · exact Nat.lt_succ_of_lt (h.edge_lt he')
    · exact Nat.lt_succ_self _
  · rcases filed_splitEdge.mp he' with he' | ⟨rfl, rfl, rfl⟩
    · by_cases heq : e' = id
      · obtain ⟨rfl, rfl⟩ := h.parent_unique he (heq ▸ he')
        rw [heq, hupper]
        exact hfit.upper hdepth hlt rfl (by simp) (hold _ he.lt) hnew
      · rw [hedge e' (h.edge_lt he') heq]
        exact (h.fits he').congr ⟨_, rfl⟩ (by simp) rfl (hold _ he'.lt)
          (hold _ (h.fits he').child_lt)
    · rw [hlower]
      exact hfit.lower hlt (by simp) rfl (hold _ hfit.child_lt) hnew
  · rcases Nat.lt_or_eq_of_le (Nat.le_of_lt_succ (nodeCount_splitEdge ▸ hu)) with hu | rfl
    · obtain ⟨p, d, e', he', rfl⟩ := h.parent hu hroot
      by_cases heq : e' = id
      · exact ⟨_, _, _, filed_splitEdge.mpr (Or.inr ⟨rfl, rfl, rfl⟩), by rw [hlower, heq]⟩
      · exact ⟨p, d, e', filed_splitEdge.mpr (Or.inl he'), by rw [hedge e' (h.edge_lt he') heq]⟩
    · exact ⟨v, c, id, filed_splitEdge.mpr (Or.inl he), by rw [hupper]⟩
  · rcases Nat.lt_or_eq_of_le (Nat.le_of_lt_succ (edgeCount_splitEdge ▸ he')) with he' | rfl
    · obtain ⟨p, d, hfiled⟩ := h.filed he'
      exact ⟨p, d, filed_splitEdge.mpr (Or.inl hfiled)⟩
    · exact ⟨_, _, filed_splitEdge.mpr (Or.inr ⟨rfl, rfl, rfl⟩)⟩
  · exact h.update_inj (fun p hp => h.spell_ne_of_inside he hdepth hlt hp)
      (nodeCount_splitEdge ▸ hu) (nodeCount_splitEdge ▸ hw) heq

end Cut

end SuffixTree

end SentenceSearch
