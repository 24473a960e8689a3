import SentenceSearch.Proofs.SuffixTree.ActivePoint

/-!
# The invariant of an insertion

While a text is inserted, the suffixes at its first positions end in the tree already. The active
point is where the next suffix, as far as it has been read, ends. Every node that spells two
characters or more has its suffix link, but for the node that ended last and the one that was cut
out of an edge last.

## Main definitions

* `Insertion.Grown` — the tree after some suffixes have been made to end
* `Insertion.Waiting` — the node cut out of an edge last waits for a link within the round
* `Insertion.Progress`, `Insertion.Resting` — the invariant within a round and between rounds

## Main results

* `Grown.addLeaf`, `Grown.splitEdge`, `Grown.attach`, `Grown.linkTo` — the steps of a round
-/

namespace SentenceSearch

open SuffixTree

variable {P : Type}

theorem Insertion.nodeCount_linkTo {tree : SuffixTree P} {source : Option Nat} {target : Nat} :
    (Insertion.linkTo source target tree).nodeCount = tree.nodeCount := by
  cases source with
  | none => rfl
  | some v => exact sameShape_setLink.nodeCount

theorem SuffixTree.Grows.linkTo {tree tree' : SuffixTree P} {spell spell' : Nat → List Char}
    (h : Grows tree spell tree' spell') (source : Option Nat) (target : Nat) :
    Grows tree spell (Insertion.linkTo source target tree') spell' where
  count_le := Insertion.nodeCount_linkTo.symm ▸ h.count_le
  spell_eq := h.spell_eq

theorem SuffixTree.Grows.attach [DecidableEq P] {tree tree' : SuffixTree P}
    {spell spell' : Nat → List Char} (h : Grows tree spell tree' spell') (id : Nat) (payload : P) :
    Grows tree spell (tree'.attach id payload) spell' where
  count_le := h.count_le.trans_eq sameShape_attach.nodeCount.symm
  spell_eq := h.spell_eq

namespace Insertion

/-- The tree after the first `count` suffixes of a text have been made to end. Links are missing
only where the string has one character or where `waiting` says so. -/
structure Grown [DecidableEq P] (incoming : Incoming P) (before : List Char → Array P)
    (count : Nat) (tree : SuffixTree P) (spell : Nat → List Char) (waiting : Nat → Prop) :
    Prop where
  stores : Stores tree spell
    (creditedUpTo before incoming.chars.toList incoming.payload count)
  text : (tree.text incoming.text).chars = incoming.chars
  linked : ∀ v < tree.nodeCount, (spell v).tail ≠ [] → tree.link v = none → waiting v

/-- The node where the suffix before the next one ends. -/
def EndedLast (text : List Char) (count : Nat) (tree : SuffixTree P) (spell : Nat → List Char)
    (v : Nat) : Prop :=
  v < tree.nodeCount ∧ ∃ i, count = i + 1 ∧ spell v = text.drop i

/-- The node was cut out of an edge in this round, for the suffix before the next one. What it
spells without its first character goes on with another character than that of the round. -/
def Waiting (incoming : Incoming P) (pos count : Nat) (tree : SuffixTree P)
    (spell : Nat → List Char) (v : Nat) : Prop :=
  v < tree.nodeCount ∧ (∃ i, count = i + 1 ∧ spell v = factor incoming.chars.toList i pos) ∧
    ∃ d, d ≠ incoming.charAt pos ∧
      tree.Spelled spell (factor incoming.chars.toList count pos ++ [d])

/-- The invariant within the round of the character at `pos`, after `count` suffixes have been made
to end. -/
structure Progress [DecidableEq P] (incoming : Incoming P) (before : List Char → Array P)
    (pos count : Nat) (state : Insertion P) (spell : Nat → List Char) : Prop where
  grown : Grown incoming before count state.tree spell fun v =>
    state.pendingEnd = some v ∨ state.pendingBranch = some v
  canonical : Canonical state.tree spell
    (creditedUpTo before incoming.chars.toList incoming.payload count)
  remaining : state.active.remaining + count = pos + 1
  reads : state.active.Reads state.tree spell incoming.chars.toList pos
    (factor incoming.chars.toList count pos)
  spelled : state.tree.Spelled spell (factor incoming.chars.toList count pos)
  lastEnd : ∀ v, state.pendingEnd = some v →
    EndedLast incoming.chars.toList count state.tree spell v
  lastBranch : ∀ v, state.pendingBranch = some v →
    Waiting incoming pos count state.tree spell v

/-- The invariant between rounds, before the character at `pos`. -/
structure Resting [DecidableEq P] (incoming : Incoming P) (before : List Char → Array P)
    (pos count : Nat) (state : Insertion P) (spell : Nat → List Char) : Prop where
  grown : Grown incoming before count state.tree spell fun v => state.pendingEnd = some v
  canonical : Canonical state.tree spell
    (creditedUpTo before incoming.chars.toList incoming.payload count)
  remaining : state.active.remaining + count = pos
  reads : state.active.Reads state.tree spell incoming.chars.toList pos
    (factor incoming.chars.toList count pos)
  spelled : state.tree.Spelled spell (factor incoming.chars.toList count pos)
  lastEnd : ∀ v, state.pendingEnd = some v →
    EndedLast incoming.chars.toList count state.tree spell v

variable {incoming : Incoming P} {before : List Char → Array P} {pos count : Nat}
  {state : Insertion P} {spell : Nat → List Char} {tree : SuffixTree P} {waiting : Nat → Prop}

/-! ### The tree -/

theorem EndedLast.grow {tree' : SuffixTree P} {spell' : Nat → List Char} {text : List Char}
    {v : Nat} (h : EndedLast text count tree spell v) (hgrows : Grows tree spell tree' spell') :
    EndedLast text count tree' spell' v := by
  obtain ⟨hv, i, hi, hspell⟩ := h
  exact ⟨hgrows.lt hv, i, hi, (hgrows.spell_eq v hv).trans hspell⟩

theorem EndedLast.spell_ne_nil {text : List Char} {v : Nat}
    (h : EndedLast text count tree spell v) (hcount : count ≤ text.length) : spell v ≠ [] := by
  obtain ⟨-, i, rfl, hspell⟩ := h
  rw [hspell, Ne, List.drop_eq_nil_iff]
  omega

theorem EndedLast.tail_eq {text : List Char} {v : Nat} (h : EndedLast text count tree spell v) :
    (spell v).tail = text.drop count := by
  obtain ⟨-, i, rfl, hspell⟩ := h
  rw [hspell, tail_drop]

theorem Waiting.spell_ne_nil {v : Nat} (h : Waiting incoming pos count tree spell v)
    (hcount : count ≤ pos) (hpos : pos ≤ incoming.chars.size) : spell v ≠ [] := by
  obtain ⟨-, ⟨i, rfl, hspell⟩, -⟩ := h
  intro hnil
  have hlength := congrArg List.length (hspell.symm.trans hnil)
  rw [length_factor (by simpa using hpos), List.length_nil] at hlength
  omega

theorem Waiting.tail_eq {v : Nat} (h : Waiting incoming pos count tree spell v) :
    (spell v).tail = factor incoming.chars.toList count pos := by
  obtain ⟨-, ⟨i, rfl, hspell⟩, -⟩ := h
  rw [hspell, tail_factor]

/-- The suffix link of the node that ended last leads to the end of the next suffix. -/
theorem EndedLast.drops {v target : Nat}
    (h : EndedLast incoming.chars.toList count tree spell v) (hcount : count ≤ incoming.chars.size)
    (hspell : spell target = incoming.chars.toList.drop count) :
    v < tree.nodeCount ∧ spell v ≠ [] ∧ spell target = (spell v).tail :=
  ⟨h.1, h.spell_ne_nil (by simpa using hcount), hspell.trans h.tail_eq.symm⟩

/-- The suffix link of a node that was cut out leads to where the next suffix parts. -/
theorem Waiting.drops {v target : Nat} (h : Waiting incoming pos count tree spell v)
    (hcount : count ≤ pos) (hpos : pos ≤ incoming.chars.size)
    (hspell : spell target = factor incoming.chars.toList count pos) :
    v < tree.nodeCount ∧ spell v ≠ [] ∧ spell target = (spell v).tail :=
  ⟨h.1, h.spell_ne_nil hcount hpos, hspell.trans h.tail_eq.symm⟩

variable [DecidableEq P]

theorem Grown.mono {waiting' : Nat → Prop} (h : Grown incoming before count tree spell waiting)
    (hwaiting : ∀ v < tree.nodeCount, (spell v).tail ≠ [] → waiting v → waiting' v) :
    Grown incoming before count tree spell waiting' where
  stores := h.stores
  text := h.text
  linked v hv htail hlink := hwaiting v hv htail (h.linked v hv htail hlink)

/-- A node that waits for a link gets it, if it spells one character more than the target. -/
theorem Grown.linkTo {source : Option Nat} {target : Nat}
    (h : Grown incoming before count tree spell waiting) (htarget : target < tree.nodeCount)
    (hsource : ∀ v, source = some v →
      v < tree.nodeCount ∧ spell v ≠ [] ∧ spell target = (spell v).tail) :
    Grown incoming before count (linkTo source target tree) spell
      fun v => waiting v ∧ source ≠ some v := by
  cases source with
  | none => exact h.mono fun v _ _ hv => ⟨hv, nofun⟩
  | some w =>
    obtain ⟨hw, hne, htail⟩ := hsource w rfl
    have hcount : (tree.setLink w target).nodeCount = tree.nodeCount :=
      sameShape_setLink.nodeCount
    refine ⟨h.stores.setLink hw htarget hne htail, h.text, fun v hv hspell hlink => ?_⟩
    change (tree.setLink w target).link v = none at hlink
    rw [link_setLink hw] at hlink
    split at hlink
    · cases hlink
    · rename_i hne
      exact ⟨h.linked v (hcount ▸ hv) hspell hlink, fun heq => hne (Option.some.inj heq).symm⟩

/-- One more suffix ends at a leaf. -/
theorem Grown.addLeaf {parent : Nat} (h : Grown incoming before count tree spell waiting)
    (hparent : parent < tree.nodeCount)
    (hfree : ∀ e, ¬ tree.Filed parent (incoming.charAt pos) e)
    (hpos : pos < incoming.chars.size) (hcount : count ≤ pos)
    (hspell : spell parent = factor incoming.chars.toList count pos) :
    ∃ spell', Grows tree spell (tree.addLeaf incoming parent pos) spell' ∧
      spell' tree.nodeCount = incoming.chars.toList.drop count ∧
      Grown incoming before (count + 1) (tree.addLeaf incoming parent pos) spell'
        fun v => waiting v ∨ v = tree.nodeCount := by
  have hstores := h.stores.addLeaf hparent hfree hpos h.text
  rw [hspell, factor_append_drop hcount] at hstores
  refine ⟨_, grows_update _ _ (by simp),
    Function.update_self _ _ _, hstores, h.text, fun v hv htail hlink => ?_⟩
  rw [link_addLeaf hparent] at hlink
  rcases Nat.lt_or_eq_of_le (Nat.le_of_lt_succ (nodeCount_addLeaf ▸ hv)) with hv | rfl
  · rw [Function.update_of_ne (Nat.ne_of_lt hv)] at htail
    exact Or.inl (h.linked v hv htail hlink)
  · exact Or.inr rfl

/-- An edge is cut where a string on it ends. -/
theorem Grown.splitEdge {v id depth : Nat} {c : Char}
    (h : Grown incoming before count tree spell waiting) (he : tree.Filed v c id)
    (hdepth : 0 < depth) (hlt : depth < (tree.edge id).length) :
    ∃ spell', Grows tree spell (tree.splitEdge id depth) spell' ∧
      spell' tree.nodeCount = spell v ++ (tree.label (tree.edge id)).take depth ∧
      Grown incoming before count (tree.splitEdge id depth) spell'
        fun v => waiting v ∨ v = tree.nodeCount := by
  refine ⟨_, grows_update _ _ (by simp),
    Function.update_self _ _ _, h.stores.splitEdge he hdepth hlt, h.text,
    fun v hv htail hlink => ?_⟩
  rw [link_splitEdge] at hlink
  rcases Nat.lt_or_eq_of_le (Nat.le_of_lt_succ (nodeCount_splitEdge ▸ hv)) with hv | rfl
  · rw [Function.update_of_ne (Nat.ne_of_lt hv)] at htail
    exact Or.inl (h.linked v hv htail hlink)
  · exact Or.inr rfl

/-- One more suffix ends at a node that is there. -/
theorem Grown.attach {id : Nat} (h : Grown incoming before count tree spell waiting)
    (hid : id < tree.nodeCount) (hne : spell id ≠ [])
    (hspell : spell id = incoming.chars.toList.drop count) :
    Grown incoming before (count + 1) (tree.attach id incoming.payload) spell waiting := by
  have hstores := h.stores.attach (p := incoming.payload) hid hne
  rw [hspell] at hstores
  refine ⟨hstores, h.text, fun v hv htail hlink => ?_⟩
  rw [link_attach] at hlink
  rw [(sameShape_attach (p := incoming.payload)).nodeCount] at hv
  exact h.linked v hv htail hlink

end Insertion

end SentenceSearch
