import SentenceSearch.Proofs.SuffixTree.Growth

/-!
# What a suffix tree stores

The strings that end in a tree have payloads and nodes of their own, and the tree spells nothing
but what lies on the way to them. Making one more string end is a credit to the payloads of that
string; it takes a leaf, or a payload for a node that is there or has just been cut out of an edge.

## Main definitions

* `SuffixTree.Continues` — the text of an edge is spelled to its end
* `SuffixTree.Stores` — the payloads at the nodes are those of the strings that end there
* `SuffixTree.Canonical` — every node is the end of a string or a place where strings part
* `SuffixTree.Grows` — the nodes of a tree are still there and spell the same
* `SuffixTree.creditAt` — one more payload for a string

## Main results

* `Stores.addLeaf`, `Stores.splitEdge`, `Stores.attach`, `Stores.setLink` — what each step does
* `Stores.spelled_iff` — what a tree spells, in terms of the strings that end in it
-/

namespace SentenceSearch

namespace SuffixTree

variable {P : Type} {tree tree' : SuffixTree P} {spell : Nat → List Char}
  {ends ends' : List Char → Array P} {u v id : Nat} {c : Char} {x y : List Char} {p : P}

/-- The text that an edge is taken from goes on below it. -/
def Continues (tree : SuffixTree P) (spell : Nat → List Char) : Prop :=
  ∀ v c e, tree.Filed v c e → tree.Spelled spell
    (spell v ++ (tree.text (tree.edge e).text).chars.toList.drop (tree.edge e).start)

/-- The payloads at the nodes are those of the strings that end in the tree, the tree spells only
what leads to such strings, and suffix links drop the first character. What an edge spells is
spelled to the end of its text. -/
structure Stores (tree : SuffixTree P) (spell : Nat → List Char) (ends : List Char → Array P) :
    Prop where
  labelled : Labelled tree spell
  ends_nil : ends [] = #[]
  ended : ∀ {x}, ends x ≠ #[] → ∃ v < tree.nodeCount, spell v = x
  payloads : ∀ {v}, v < tree.nodeCount → tree.payloads v = ends (spell v)
  covered : ∀ {v}, v < tree.nodeCount → spell v ≠ [] → ∃ x, ends x ≠ #[] ∧ spell v <+: x
  links : ∀ {v u}, tree.link v = some u →
    v < tree.nodeCount ∧ u < tree.nodeCount ∧ spell v ≠ [] ∧ spell u = (spell v).tail
  continues : Continues tree spell

/-- The string goes on in two ways. -/
def Branching (tree : SuffixTree P) (spell : Nat → List Char) (x : List Char) : Prop :=
  ∃ c d, c ≠ d ∧ tree.Spelled spell (x ++ [c]) ∧ tree.Spelled spell (x ++ [d])

/-- A node is there for a reason: it is the root, a string ends there or its string goes on in two
ways. -/
def Needed (tree : SuffixTree P) (spell : Nat → List Char) (ends : List Char → Array P)
    (v : Nat) : Prop :=
  spell v = [] ∨ ends (spell v) ≠ #[] ∨ tree.Branching spell (spell v)

/-- Every node is there for a reason. -/
def Canonical (tree : SuffixTree P) (spell : Nat → List Char) (ends : List Char → Array P) :
    Prop :=
  ∀ v < tree.nodeCount, tree.Needed spell ends v

/-- The empty string is spelled always; any other one lies on the way to a string that ends. -/
theorem Stores.spelled_iff (h : Stores tree spell ends) :
    tree.Spelled spell x ↔ x = [] ∨ ∃ y, ends y ≠ #[] ∧ x <+: y := by
  constructor
  · rintro ⟨v, hv, hx⟩
    by_cases hnil : spell v = []
    · rw [hnil, List.prefix_nil] at hx
      exact Or.inl hx
    · obtain ⟨y, hy, hvy⟩ := h.covered hv hnil
      exact Or.inr ⟨y, hy, hx.trans hvy⟩
  · rintro (rfl | ⟨y, hy, hx⟩)
    · exact ⟨root, h.labelled.root_lt, List.nil_prefix⟩
    · obtain ⟨v, hv, rfl⟩ := h.ended hy
      exact ⟨v, hv, hx⟩

/-- A node stays needed when the tree spells more and more strings end. -/
theorem Needed.mono {spell' : Nat → List Char} (h : tree.Needed spell ends v)
    (hv : spell' v = spell v) (hends : ∀ x, ends x ≠ #[] → ends' x ≠ #[])
    (hspelled : ∀ x, tree.Spelled spell x → tree'.Spelled spell' x) :
    tree'.Needed spell' ends' v := by
  rw [Needed, hv]
  rcases h with hnil | hend | ⟨c, d, hcd, hc, hd⟩
  · exact Or.inl hnil
  · exact Or.inr (Or.inl (hends _ hend))
  · exact Or.inr (Or.inr ⟨c, d, hcd, hspelled _ hc, hspelled _ hd⟩)

/-! ### Growing trees -/

/-- The nodes of the first tree are still there and spell the same. -/
structure Grows (tree : SuffixTree P) (spell : Nat → List Char) (tree' : SuffixTree P)
    (spell' : Nat → List Char) : Prop where
  count_le : tree.nodeCount ≤ tree'.nodeCount
  spell_eq : ∀ v < tree.nodeCount, spell' v = spell v

namespace Grows

variable {tree tree' tree'' : SuffixTree P} {spell spell' spell'' : Nat → List Char}

theorem lt (h : Grows tree spell tree' spell') {v : Nat} (hv : v < tree.nodeCount) :
    v < tree'.nodeCount :=
  Nat.lt_of_lt_of_le hv h.count_le

theorem trans (h : Grows tree spell tree' spell') (h' : Grows tree' spell' tree'' spell'') :
    Grows tree spell tree'' spell'' where
  count_le := h.count_le.trans h'.count_le
  spell_eq v hv := (h'.spell_eq v (h.lt hv)).trans (h.spell_eq v hv)

theorem spelled (h : Grows tree spell tree' spell') {x : List Char} (hx : tree.Spelled spell x) :
    tree'.Spelled spell' x := by
  obtain ⟨v, hv, hfront⟩ := hx
  exact ⟨v, h.lt hv, by rwa [h.spell_eq v hv]⟩

/-- Nodes stay needed. -/
theorem needed (h : Grows tree spell tree' spell') {ends ends' : List Char → Array P} {v : Nat}
    (hv : v < tree.nodeCount) (hends : ∀ x, ends x ≠ #[] → ends' x ≠ #[])
    (hneeded : tree.Needed spell ends v) : tree'.Needed spell' ends' v :=
  hneeded.mono (h.spell_eq v hv) hends fun _ => h.spelled

end Grows

/-- A string for the next node leaves those of the nodes before it alone. -/
theorem grows_update (spell : Nat → List Char) (x : List Char)
    (hcount : tree.nodeCount ≤ tree'.nodeCount) :
    Grows tree spell tree' (Function.update spell tree.nodeCount x) where
  count_le := hcount
  spell_eq _ hv := Function.update_of_ne (Nat.ne_of_lt hv) _ _

/-! ### The texts of the edges -/

/-- How far the texts of the edges are spelled depends on the shape of the tree alone. -/
theorem Continues.congr (h : Continues tree spell) (hlabelled : Labelled tree spell)
    (hs : SameShape tree tree') : Continues tree' spell := by
  intro v c e he
  rw [hs.filed] at he
  have hlt := hlabelled.edge_lt he
  obtain ⟨mask, hmask⟩ := hs.edge e hlt
  rw [hs.spelled_iff, hmask, hs.text e hlt]
  exact h v c e he

/-- A leaf spells the text of its edge to the end. -/
theorem Continues.addLeaf {incoming : Incoming P} {parent start : Nat} (h : Continues tree spell)
    (hlabelled : Labelled tree spell) (hparent : parent < tree.nodeCount)
    (hfree : ∀ e, ¬ tree.Filed parent (incoming.charAt start) e)
    (htext : (tree.text incoming.text).chars = incoming.chars) :
    Continues (tree.addLeaf incoming parent start) (Function.update spell tree.nodeCount
      (spell parent ++ incoming.chars.toList.drop start)) := by
  have hcount : tree.nodeCount < (tree.addLeaf incoming parent start).nodeCount := by simp
  have hgrows := grows_update spell (spell parent ++ incoming.chars.toList.drop start) hcount.le
  intro v c e he
  rcases (filed_addLeaf hparent hfree).mp he with he | ⟨rfl, rfl, rfl⟩
  · rw [edge_addLeaf, if_neg (Nat.ne_of_lt (hlabelled.edge_lt he)), text_addLeaf,
      hgrows.spell_eq _ he.lt]
    exact hgrows.spelled (h v c e he)
  · rw [edge_addLeaf, if_pos rfl, text_addLeaf, htext, hgrows.spell_eq _ hparent]
    exact ⟨tree.nodeCount, hcount, by rw [Function.update_self]⟩

/-- The lower part of a cut edge goes on where the upper part ends, in the same text. -/
theorem Continues.splitEdge {depth : Nat} (h : Continues tree spell)
    (hlabelled : Labelled tree spell) (he : tree.Filed v c id)
    (hlt : depth < (tree.edge id).length) :
    Continues (tree.splitEdge id depth) (Function.update spell tree.nodeCount
      (spell v ++ (tree.label (tree.edge id)).take depth)) := by
  have hcount : tree.nodeCount ≤ (tree.splitEdge id depth).nodeCount := by simp
  have hgrows := grows_update spell (spell v ++ (tree.label (tree.edge id)).take depth) hcount
  have hid := hlabelled.edge_lt he
  intro u d e hu
  rcases filed_splitEdge.mp hu with hu | ⟨rfl, rfl, rfl⟩
  · -- The upper part starts where the whole edge did.
    have hsame : ((tree.splitEdge id depth).edge e).text = (tree.edge e).text ∧
        ((tree.splitEdge id depth).edge e).start = (tree.edge e).start := by
      rw [edge_splitEdge hid]
      split
      · rename_i heq
        exact ⟨by rw [heq], by rw [heq]⟩
      · rw [if_neg (Nat.ne_of_lt (hlabelled.edge_lt hu))]
        exact ⟨rfl, rfl⟩
    rw [hsame.1, hsame.2, text_splitEdge, hgrows.spell_eq _ hu.lt]
    exact hgrows.spelled (h u d e hu)
  · rw [edge_splitEdge hid, if_neg (Nat.ne_of_gt hid), if_pos rfl, text_splitEdge,
      Function.update_self]
    -- Both parts together are what the whole edge started with.
    have hwhole : (tree.label (tree.edge id)).take depth ++
        (tree.text (tree.edge id).text).chars.toList.drop ((tree.edge id).start + depth) =
          (tree.text (tree.edge id).text).chars.toList.drop (tree.edge id).start := by
      rw [TreeEdge.length] at hlt
      rw [label, Sentence.slice, Array.toList_extract, List.extract_eq_take_drop, List.take_take,
        Nat.min_eq_left hlt.le, ← List.drop_drop, List.take_append_drop]
    rw [List.append_assoc, hwhole]
    exact hgrows.spelled (h v c id he)

/-! ### Links -/

theorem Stores.setLink {target : Nat} (h : Stores tree spell ends) (hv : v < tree.nodeCount)
    (htarget : target < tree.nodeCount) (hne : spell v ≠ [])
    (htail : spell target = (spell v).tail) : Stores (tree.setLink v target) spell ends := by
  have hcount : (tree.setLink v target).nodeCount = tree.nodeCount :=
    sameShape_setLink.nodeCount
  refine ⟨h.labelled.congr sameShape_setLink, h.ends_nil, fun hx => ?_, fun hu => ?_,
    fun hu => ?_, fun {u w} hlink => ?_, h.continues.congr h.labelled sameShape_setLink⟩
  · rw [hcount]
    exact h.ended hx
  · rw [payloads_setLink]
    exact h.payloads (hcount ▸ hu)
  · exact h.covered (hcount ▸ hu)
  · rw [hcount]
    rw [link_setLink hv] at hlink
    split at hlink
    · rename_i heq
      obtain rfl := Option.some.inj hlink
      exact heq ▸ ⟨hv, htarget, hne, htail⟩
    · exact h.links hlink

/-! ### Cuts -/

theorem Stores.splitEdge {depth : Nat} (h : Stores tree spell ends) (he : tree.Filed v c id)
    (hdepth : 0 < depth) (hlt : depth < (tree.edge id).length) :
    Stores (tree.splitEdge id depth) (Function.update spell tree.nodeCount
      (spell v ++ (tree.label (tree.edge id)).take depth)) ends := by
  have hlabelled := h.labelled.splitEdge he hdepth hlt
  set x := spell v ++ (tree.label (tree.edge id)).take depth
  set spell' := Function.update spell tree.nodeCount x with hspell'
  have hold : ∀ u < tree.nodeCount, spell' u = spell u := fun u hu =>
    Function.update_of_ne (Nat.ne_of_lt hu) _ _
  have hnew : spell' tree.nodeCount = x := Function.update_self _ _ _
  -- A string that ends has a node already, so that nothing ends at the cut.
  have hfresh : ends x = #[] := by
    by_contra hx
    obtain ⟨u, hu, hux⟩ := h.ended hx
    exact h.labelled.spell_ne_of_inside he hdepth hlt hu hux
  refine ⟨hlabelled, h.ends_nil, fun hx => ?_, fun {u} hu => ?_, fun {u} hu hne => ?_,
    fun {u w} hlink => ?_, h.continues.splitEdge h.labelled he hlt⟩
  · obtain ⟨u, hu, rfl⟩ := h.ended hx
    exact ⟨u, by simp; omega, hold u hu⟩
  · rw [payloads_splitEdge]
    rcases Nat.lt_or_eq_of_le (Nat.le_of_lt_succ (nodeCount_splitEdge ▸ hu)) with hu | rfl
    · rw [hold u hu]
      exact h.payloads hu
    · rw [hnew, hfresh, SuffixTree.payloads, node_of_nodeCount_le (Nat.le_refl _)]
      rfl
  · rcases Nat.lt_or_eq_of_le (Nat.le_of_lt_succ (nodeCount_splitEdge ▸ hu)) with hu | rfl
    · rw [hold u hu] at hne ⊢
      exact h.covered hu hne
    -- The way to the cut goes on to the child of the edge, which is covered.
    · rw [hnew] at hne ⊢
      have hspelled := h.labelled.spelled_edge he (List.take_prefix depth _)
      exact (h.spelled_iff.mp hspelled).resolve_left hne
  · rw [link_splitEdge] at hlink
    obtain ⟨hu, hw, hne, htail⟩ := h.links hlink
    rw [hold u hu, hold w hw, nodeCount_splitEdge]
    exact ⟨Nat.lt_succ_of_lt hu, Nat.lt_succ_of_lt hw, hne, htail⟩

/-! ### Credits -/

section Credit

variable [DecidableEq P]

/-- One more payload for the string `x`. -/
def creditAt (ends : List Char → Array P) (x : List Char) (p : P) : List Char → Array P :=
  Function.update ends x (credit (ends x) p)

theorem credit_ne_empty (payloads : Array P) (p : P) : credit payloads p ≠ #[] := by
  unfold credit
  split
  · rename_i h
    rintro rfl
    simp at h
  · exact Array.push_ne_empty

theorem creditAt_ne_empty_iff : creditAt ends x p y ≠ #[] ↔ ends y ≠ #[] ∨ y = x := by
  by_cases hy : y = x
  · subst hy
    simp only [creditAt, Function.update_self, or_true, iff_true]
    exact credit_ne_empty _ _
  · simp only [creditAt, Function.update_of_ne hy, hy, or_false]

theorem Stores.attach (h : Stores tree spell ends) (hid : id < tree.nodeCount)
    (hne : spell id ≠ []) : Stores (tree.attach id p) spell (creditAt ends (spell id) p) := by
  have hcount : (tree.attach id p).nodeCount = tree.nodeCount := sameShape_attach.nodeCount
  refine ⟨h.labelled.congr sameShape_attach, ?_, fun {x} hx => ?_, fun {u} hu => ?_,
    fun {u} hu hne' => ?_, fun {u w} hlink => ?_, h.continues.congr h.labelled sameShape_attach⟩
  · rw [creditAt, Function.update_of_ne hne.symm]
    exact h.ends_nil
  · rw [hcount]
    rcases creditAt_ne_empty_iff.mp hx with hx | rfl
    · exact h.ended hx
    · exact ⟨id, hid, rfl⟩
  · rw [hcount] at hu
    rw [payloads_attach hid, h.payloads hu, creditAt]
    by_cases heq : u = id
    · rw [if_pos heq, heq, Function.update_self]
    · rw [if_neg heq, Function.update_of_ne fun hspell => heq (h.labelled.spell_inj hu hid hspell)]
  · rw [hcount] at hu
    obtain ⟨y, hy, huy⟩ := h.covered hu hne'
    exact ⟨y, creditAt_ne_empty_iff.mpr (Or.inl hy), huy⟩
  · rw [hcount]
    rw [link_attach] at hlink
    exact h.links hlink

theorem Stores.addLeaf {incoming : Incoming P} {parent start : Nat} (h : Stores tree spell ends)
    (hparent : parent < tree.nodeCount)
    (hfree : ∀ e, ¬ tree.Filed parent (incoming.charAt start) e)
    (hstart : start < incoming.chars.size)
    (htext : (tree.text incoming.text).chars = incoming.chars) :
    Stores (tree.addLeaf incoming parent start) (Function.update spell tree.nodeCount
      (spell parent ++ incoming.chars.toList.drop start))
      (creditAt ends (spell parent ++ incoming.chars.toList.drop start) incoming.payload) := by
  have hlabelled := h.labelled.addLeaf hparent hfree hstart htext
  set x := spell parent ++ incoming.chars.toList.drop start with hx
  set spell' := Function.update spell tree.nodeCount x with hspell'
  have hold : ∀ u < tree.nodeCount, spell' u = spell u := fun u hu =>
    Function.update_of_ne (Nat.ne_of_lt hu) _ _
  have hnew : spell' tree.nodeCount = x := Function.update_self _ _ _
  have hne : ∀ u < tree.nodeCount, spell u ≠ x := by
    intro u hu
    rw [hx, Incoming.drop_eq_cons hstart]
    exact h.labelled.spell_ne_of_free hparent hfree hu
  have hfresh : ends x = #[] := by
    by_contra hends
    obtain ⟨u, hu, hux⟩ := h.ended hends
    exact hne u hu hux
  refine ⟨hlabelled, ?_, fun {y} hy => ?_, fun {u} hu => ?_, fun {u} hu hspell => ?_,
    fun {u w} hlink => ?_, h.continues.addLeaf h.labelled hparent hfree htext⟩
  · have hnil : [] ≠ x := by
      rw [hx, Incoming.drop_eq_cons hstart]
      simp
    rw [creditAt, Function.update_of_ne hnil]
    exact h.ends_nil
  · rcases creditAt_ne_empty_iff.mp hy with hy | rfl
    · obtain ⟨u, hu, rfl⟩ := h.ended hy
      exact ⟨u, by simp; omega, hold u hu⟩
    · exact ⟨tree.nodeCount, by simp, hnew⟩
  · rw [payloads_addLeaf hparent, creditAt]
    rcases Nat.lt_or_eq_of_le (Nat.le_of_lt_succ (nodeCount_addLeaf ▸ hu)) with hu | rfl
    · rw [if_neg (Nat.ne_of_lt hu), hold u hu, Function.update_of_ne (hne u hu)]
      exact h.payloads hu
    · rw [if_pos rfl, hnew, Function.update_self, hfresh]
      rfl
  · rcases Nat.lt_or_eq_of_le (Nat.le_of_lt_succ (nodeCount_addLeaf ▸ hu)) with hu | rfl
    · rw [hold u hu] at hspell ⊢
      obtain ⟨y, hy, huy⟩ := h.covered hu hspell
      exact ⟨y, creditAt_ne_empty_iff.mpr (Or.inl hy), huy⟩
    · exact ⟨x, creditAt_ne_empty_iff.mpr (Or.inr rfl), hnew ▸ List.prefix_rfl⟩
  · rw [link_addLeaf hparent] at hlink
    obtain ⟨hu, hw, hspell, htail⟩ := h.links hlink
    rw [hold u hu, hold w hw, nodeCount_addLeaf]
    exact ⟨Nat.lt_succ_of_lt hu, Nat.lt_succ_of_lt hw, hspell, htail⟩

end Credit

end SuffixTree

end SentenceSearch
