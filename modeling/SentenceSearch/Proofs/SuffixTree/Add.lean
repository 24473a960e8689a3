import SentenceSearch.Proofs.SuffixTree.Rounds

/-!
# Inserting a text

After the rounds of the characters, a last round makes the suffixes end that are still implicit.
What is left is a suffix tree again: the suffixes of the text have one payload more, every node is
there for a reason, and every node has its suffix link.

## Main definitions

* `SuffixTree.Settled` — what holds of a tree between insertions

## Main results

* `Progress.terminate` — the last round
* `Settled.add` — inserting a text
-/

namespace SentenceSearch

namespace SuffixTree

variable {P : Type}

/-- A suffix tree between insertions: every node is there for a reason, and those that spell two
characters or more have a suffix link. -/
structure Settled (tree : SuffixTree P) (spell : Nat → List Char) (ends : List Char → Array P) :
    Prop where
  stores : Stores tree spell ends
  canonical : Canonical tree spell ends
  linked : ∀ v < tree.nodeCount, (spell v).tail ≠ [] → tree.link v ≠ none
  closed : TailClosed ends

@[simp] theorem node_empty (v : Nat) : (empty : SuffixTree P).node v = .blank := by
  cases v <;> rfl

theorem not_filed_empty {v e : Nat} {c : Char} : ¬ (empty : SuffixTree P).Filed v c e := by
  simp [Filed, TreeNode.blank]

/-- Nothing ends in the tree without texts. -/
theorem settled_empty : Settled (empty : SuffixTree P) (fun _ => []) fun _ => #[] where
  stores := {
    labelled := {
      root_lt := Nat.zero_lt_one
      spell_root := rfl
      edge_lt := fun h => absurd h not_filed_empty
      fits := fun h => absurd h not_filed_empty
      parent := fun {u} hu hne => absurd (Nat.lt_one_iff.mp hu) hne
      filed := fun he => absurd he (Nat.not_lt_zero _)
      spell_inj := fun hu hv _ => (Nat.lt_one_iff.mp hu).trans (Nat.lt_one_iff.mp hv).symm }
    ends_nil := rfl
    ended := fun h => absurd rfl h
    payloads := fun {v} hv => by
      obtain rfl := Nat.lt_one_iff.mp hv
      rfl
    covered := fun _ h => absurd rfl h
    links := fun {v u} h => by
      rw [link, node_empty] at h
      cases h
    continues := fun _ _ _ h => absurd h not_filed_empty }
  canonical _ _ := Or.inl rfl
  linked _ _ h := absurd rfl h
  closed _ h := absurd rfl h

/-- A label is part of a text of the tree. -/
theorem Labelled.text_lt {tree : SuffixTree P} {spell : Nat → List Char} {e : Nat}
    (h : Labelled tree spell) (he : e < tree.edgeCount) :
    (tree.edge e).text < tree.textCount := by
  obtain ⟨v, c, hfiled⟩ := h.filed he
  by_contra htext
  have hdefault : tree.text (tree.edge e).text = default := by
    simp [text, Array.getD_eq_getD_getElem?, Array.getElem?_eq_none (Nat.le_of_not_lt htext)]
  have hfit := h.fits hfiled
  have hsize : (default : Sentence).size = 0 := rfl
  exact Nat.not_lt_zero _ (hfit.start_lt.trans_le (hsize ▸ hdefault ▸ hfit.stop_le))

/-- With one more text on the list the labels are the same. -/
theorem sameShape_pushText {tree : SuffixTree P} {spell : Nat → List Char}
    (h : Labelled tree spell) (sentence : Sentence) (annotated : Bool) :
    SameShape tree { tree with texts := tree.texts.push sentence, annotated } where
  nodeCount := rfl
  edgeCount := rfl
  filed _ _ _ := Iff.rfl
  edge e _ := ⟨(tree.edge e).childMask, rfl⟩
  text e he := by
    have hlt : (tree.edge e).text < tree.texts.size := h.text_lt he
    simp [text, Array.getD_eq_getD_getElem?, Array.getElem?_push_lt hlt, hlt]

/-- What holds between insertions depends on the shape of the tree, the payloads and the links. -/
theorem Settled.congr {tree tree' : SuffixTree P} {spell : Nat → List Char}
    {ends : List Char → Array P} (h : Settled tree spell ends) (hs : SameShape tree tree')
    (hpayloads : ∀ v, tree'.payloads v = tree.payloads v)
    (hlink : ∀ v, tree'.link v = tree.link v) : Settled tree' spell ends where
  stores := {
    labelled := h.stores.labelled.congr hs
    ends_nil := h.stores.ends_nil
    ended := fun hx => hs.nodeCount.symm ▸ h.stores.ended hx
    payloads := fun {v} hv => (hpayloads v).trans (h.stores.payloads (hs.nodeCount ▸ hv))
    covered := fun hv => h.stores.covered (hs.nodeCount ▸ hv)
    links := fun {v u} hvu => by
      rw [hs.nodeCount]
      exact h.stores.links ((hlink v).symm.trans hvu)
    continues := h.stores.continues.congr h.stores.labelled hs }
  canonical v hv := (h.canonical v (hs.nodeCount ▸ hv)).mono rfl (fun _ => id)
    fun _ hx => hs.spelled_iff.mpr hx
  linked v hv htail := by
    rw [hlink]
    exact h.linked v (hs.nodeCount ▸ hv) htail
  closed := h.closed

end SuffixTree

open SuffixTree

namespace Insertion

variable {P : Type} [DecidableEq P] {incoming : Incoming P} {before : List Char → Array P}
  {pos count id : Nat} {state : Insertion P} {spell spell' : Nat → List Char}
  {tree : SuffixTree P} {waiting : Nat → Prop}

/-! ### The last round -/

/-- The node where the suffix before ends gets the node where a suffix is made to end. -/
theorem Progress.linked_attach
    (h : Progress incoming before incoming.chars.size count state spell)
    (hcount : count < incoming.chars.size) (hgrows : Grows state.tree spell tree spell')
    (hgrown : Grown incoming before count tree spell' fun v =>
      state.pendingEnd = some v ∨ waiting v)
    (hid : id < tree.nodeCount) (hspell : spell' id = incoming.chars.toList.drop count) :
    Grown incoming before (count + 1)
      (linkTo state.pendingEnd id (tree.attach id incoming.payload)) spell' waiting := by
  have hne : spell' id ≠ [] := by
    rw [hspell, Ne, List.drop_eq_nil_iff, Array.length_toList]
    exact Nat.not_le_of_lt hcount
  refine ((hgrown.attach hid hne hspell).chainEnd hcount.le
    (hid.trans_eq sameShape_attach.nodeCount.symm) hspell state.pendingEnd
    fun v hv => (h.lastEnd v hv).grow (hgrows.attach _ _)).mono ?_
  exact fun v _ _ hv => hv.1.resolve_left hv.2

/-- A suffix that is still implicit gets a node of its own. -/
theorem Progress.endAt (h : Progress incoming before incoming.chars.size count state spell)
    (waiting : Nat → Prop) (hbefore : TailClosed before) (hcount : count < incoming.chars.size)
    (hbranch : state.pendingBranch = none)
    (hgrows : Grows state.tree spell tree spell')
    (hgrown : Grown incoming before count tree spell' fun v =>
      state.pendingEnd = some v ∨ waiting v)
    (hnode : ¬ waiting state.active.node) (hwaits : ∀ v, waiting v → v = id)
    (hnew : ∀ v < tree.nodeCount, v < state.tree.nodeCount ∨ v = id)
    (hid : id < tree.nodeCount) (hspell : spell' id = incoming.chars.toList.drop count) :
    Progress incoming before incoming.chars.size (count + 1)
      (Insertion.endAt { state with tree } incoming id) spell' := by
  have hsize : (linkTo state.pendingEnd id (tree.attach id incoming.payload)).nodeCount =
      tree.nodeCount := by
    rw [nodeCount_linkTo, sameShape_attach.nodeCount]
  refine h.conclude _ hbefore
    hcount.le (Nat.le_refl _) ((hgrows.attach _ _).linkTo _ _)
    (h.linked_attach hcount hgrows hgrown hid hspell) ?_ hnode
    (fun v hv => Or.inl (congrArg some (hwaits v hv).symm)) ?_ ?_
  · intro v hv
    rcases hnew v (hsize ▸ hv) with hv | rfl
    · exact ((hgrows.attach _ _).linkTo _ _).needed hv creditedUpTo_mono (h.canonical v hv)
    · exact Or.inr (Or.inl (hspell ▸ creditedUpTo_drop))
  · rintro v ⟨⟩
    exact ⟨hid.trans_eq hsize.symm, count, rfl, hspell⟩
  · rw [hbranch]
    exact nofun

/-- When every suffix of the text ends, nothing waits for a link. -/
theorem Progress.settled
    (h : Progress incoming before incoming.chars.size incoming.chars.size state spell)
    (hbefore : TailClosed before) (hbranch : state.pendingBranch = none) :
    Settled state.tree spell
      (creditedUpTo before incoming.chars.toList incoming.payload incoming.chars.size) where
  stores := h.grown.stores
  canonical := h.canonical
  linked v hv htail hlink := by
    rcases h.grown.linked v hv htail hlink with hend | hv
    · rw [(h.lastEnd v hend).tail_eq] at htail
      exact htail (List.drop_eq_nil_iff.mpr Array.length_toList.le)
    · rw [hbranch] at hv
      cases hv
  closed := by
    rw [← Array.length_toList]
    exact hbefore.credited

/-- Without a way down from it, the active node is where the next suffix ends. -/
theorem Progress.spell_eq_drop
    (h : Progress incoming before incoming.chars.size count state spell)
    (hzero : state.active.length = 0) :
    spell state.active.node = incoming.chars.toList.drop count := by
  have hspell := h.reads.spells
  rwa [hzero, List.take_zero, List.append_nil, ← Array.length_toList, factor_length] at hspell

/-- The edge where the next suffix ends is cut there. -/
theorem Progress.cut_end
    (h : Progress incoming before incoming.chars.size count state spell)
    (hlength : state.active.length ≠ 0) (hbranch : state.pendingBranch = none)
    (he : state.activeEdge? incoming = some id)
    (hlt : state.active.length < (state.tree.edge id).length) :
    ∃ spell', Grows state.tree spell (state.tree.splitEdge id state.active.length) spell' ∧
      spell' state.tree.nodeCount = incoming.chars.toList.drop count ∧
      Grown incoming before count (state.tree.splitEdge id state.active.length) spell' fun v =>
        state.pendingEnd = some v ∨ v = state.tree.nodeCount := by
  have hdepth := Nat.pos_of_ne_zero hlength
  obtain ⟨spell', hgrows, hmiddle, hgrown⟩ :=
    h.grown.splitEdge (filed_of_activeEdge? he) hdepth hlt
  rw [(h.inside (h.reads.ends_at hdepth) (Nat.le_refl _) he hlt).1, ← Array.length_toList,
    factor_length] at hmiddle
  refine ⟨spell', hgrows, hmiddle, hgrown.mono ?_⟩
  intro v _ _ hv
  rw [hbranch] at hv
  exact hv.imp_left fun hv => hv.resolve_right nofun

/-- The last round makes all suffixes end that are still implicit. -/
theorem Progress.terminate (hbefore : TailClosed before)
    (h : Progress incoming before incoming.chars.size count state spell)
    (hcount : count ≤ incoming.chars.size) (hbranch : state.pendingBranch = none) :
    ∃ spell', Settled (Insertion.terminate incoming state).tree spell'
      (creditedUpTo before incoming.chars.toList incoming.payload incoming.chars.size) := by
  have hcount_lt {state : Insertion P} {count : Nat} {spell : Nat → List Char}
      (h : Progress incoming before incoming.chars.size count state spell)
      (hr : ¬ state.active.remaining ≤ 1) : count < incoming.chars.size := by
    have := h.remaining
    omega
  -- The induction is on the rounds of the function, each of which credits one suffix or descends.
  fun_induction Insertion.terminate incoming state generalizing count spell with
  | case1 state hr =>
    obtain rfl : count = incoming.chars.size := by
      have := h.remaining
      omega
    exact ⟨spell, h.settled hbefore hbranch⟩
  | case2 state hr hzero ih =>
    -- The suffix ends at a node, which gets the payload.
    refine ih (h.endAt _ hbefore (hcount_lt h hr)
      hbranch ⟨Nat.le_refl _, fun _ _ => rfl⟩ (h.grown.mono fun v _ _ hv => ?_) id
      (fun _ => False.elim) (fun v hv => Or.inl hv) h.reads.node_lt (h.spell_eq_drop hzero))
      (hcount_lt h hr) hbranch
    rw [hbranch] at hv
    exact hv.imp_right nofun
  | case3 state hr hlength hnone =>
    -- There is always an edge to go on with, since the suffix is spelled.
    exact absurd (h.length_eq_zero (h.reads.ends_at (Nat.pos_of_ne_zero hlength)) (Nat.le_refl _)
      hnone) hlength
  | case4 state hr hlength id he edge =>
    rename_i hwhole ih
    exact ih (h.descend (h.reads.ends_at (Nat.pos_of_ne_zero hlength)) (Nat.le_refl _) he hwhole.2)
      hcount hbranch
  | case5 state hr hlength id he edge hshort =>
    rename_i middle cut ih
    -- The suffix ends inside an edge, which is cut there.
    obtain ⟨spell', hgrows, hmiddle, hgrown⟩ :=
      h.cut_end hlength hbranch he (h.length_lt he hshort)
    refine ih (h.endAt (fun v => v = state.tree.nodeCount) hbefore (hcount_lt h hr)
      hbranch hgrows hgrown (Nat.ne_of_lt h.reads.node_lt)
      (fun v hv => hv) (fun v hv => ?_) ?_ hmiddle) (hcount_lt h hr) hbranch
    · rw [nodeCount_splitEdge] at hv
      omega
    · rw [nodeCount_splitEdge]
      exact Nat.lt_succ_self _

/-- All the rounds of the characters. -/
theorem Resting.rounds (hbefore : TailClosed before)
    (h : Resting incoming before 0 count state spell) (hpos : pos ≤ incoming.chars.size) :
    ∃ count' spell', Resting incoming before pos count'
      ((List.range pos).foldl (fun state pos => extend incoming pos state.beginRound) state)
      spell' := by
  induction pos with
  | zero => exact ⟨count, spell, h⟩
  | succ pos ih =>
    obtain ⟨count', spell', h'⟩ := ih (Nat.le_of_succ_le hpos)
    rw [List.range_succ, List.foldl_append]
    exact h'.beginRound.extend hbefore hpos

/-- After all the rounds every suffix of the text ends in the tree. -/
theorem Resting.run (hbefore : TailClosed before)
    (h : Resting incoming before 0 count state spell) :
    ∃ spell', Settled (Insertion.run incoming state).tree spell'
      (creditedUpTo before incoming.chars.toList incoming.payload incoming.chars.size) := by
  obtain ⟨count', spell', h'⟩ := h.rounds hbefore (Nat.le_refl _)
  exact h'.beginRound.terminate hbefore (by have := h'.remaining; omega) rfl

end Insertion

namespace SuffixTree

variable {P : Type} {tree : SuffixTree P} {spell : Nat → List Char} {ends : List Char → Array P}

/-! ### Insertion -/

/-- What an insertion starts with: the text is on the list and no suffix of it ends. -/
theorem Settled.resting [DecidableEq P] (h : Settled tree spell ends) (sentence : Sentence)
    (payload : P) :
    Insertion.Resting ⟨tree.textCount, sentence.chars, payload⟩ ends 0 0
      ⟨{ tree with texts := tree.texts.push sentence, annotated := false }, .initial, none, none⟩
      spell where
  grown := {
    stores := (h.congr (sameShape_pushText h.stores.labelled sentence false) (fun _ => rfl)
      fun _ => rfl).stores
    text := by simp [text, textCount, Array.getD_eq_getD_getElem?]
    linked := fun v hv htail hlink => absurd hlink (h.linked v hv htail) }
  canonical := h.canonical
  remaining := rfl
  reads := ⟨h.stores.labelled.root_lt,
    by simp [ActivePoint.initial, factor, h.stores.labelled.spell_root],
    fun hlength => absurd hlength (Nat.lt_irrefl 0)⟩
  spelled := ⟨root, h.stores.labelled.root_lt, by simp [factor]⟩
  lastEnd _ hv := by cases hv

/-- After an insertion every suffix of the text has one payload more. -/
theorem Settled.add [DecidableEq P] (h : Settled tree spell ends) (sentence : Sentence)
    (payload : P) :
    ∃ spell', Settled (tree.add sentence payload) spell'
      (creditedUpTo ends sentence.chars.toList payload sentence.size) :=
  (h.resting sentence payload).run h.closed

end SuffixTree

/-! ### What an insertion leaves alone -/

namespace Insertion

variable {P : Type} {tree : SuffixTree P}

/-- The trees have the same texts, and their masks are up to date or not alike. -/
def SameTexts (tree tree' : SuffixTree P) : Prop :=
  tree'.texts = tree.texts ∧ tree'.annotated = tree.annotated

theorem SameTexts.trans {tree' tree'' : SuffixTree P} (h : SameTexts tree tree')
    (h' : SameTexts tree' tree'') : SameTexts tree tree'' :=
  ⟨h'.1.trans h.1, h'.2.trans h.2⟩

theorem sameTexts_addLeaf {incoming : Incoming P} {parent start : Nat} :
    SameTexts tree (tree.addLeaf incoming parent start) := ⟨rfl, rfl⟩

theorem sameTexts_splitEdge {id depth : Nat} : SameTexts tree (tree.splitEdge id depth) :=
  ⟨rfl, rfl⟩

theorem sameTexts_linkTo {source : Option Nat} {target : Nat} :
    SameTexts tree (linkTo source target tree) := by
  cases source <;> exact ⟨rfl, rfl⟩

variable {incoming : Incoming P} {state : Insertion P} {pos id : Nat}

theorem sameTexts_branchAtNode (state : Insertion P) :
    SameTexts state.tree (state.branchAtNode incoming pos).tree := by
  unfold branchAtNode finishSuffix chainEnd resolveBranch
  exact (sameTexts_addLeaf.trans sameTexts_linkTo).trans sameTexts_linkTo

theorem sameTexts_branchInEdge (state : Insertion P) :
    SameTexts state.tree (state.branchInEdge incoming id pos).tree := by
  unfold branchInEdge finishSuffix chainEnd awaitBranch
  exact ((sameTexts_splitEdge.trans sameTexts_addLeaf).trans sameTexts_linkTo).trans
    sameTexts_linkTo

theorem sameTexts_stayImplicit : SameTexts state.tree state.stayImplicit.tree := by
  unfold stayImplicit
  split
  · exact ⟨rfl, rfl⟩
  · exact sameTexts_linkTo

theorem sameTexts_extend : SameTexts state.tree (extend incoming pos state).tree := by
  fun_induction Insertion.extend incoming pos state with
  | case1 => exact ⟨rfl, rfl⟩
  | case2 state hr anchored hnone =>
    rename_i ih
    exact (sameTexts_branchAtNode anchored).trans ih
  | case3 => assumption
  | case4 state hr anchored => exact sameTexts_stayImplicit
  | case5 state hr anchored id he edge hshort =>
    rename_i ih
    exact (sameTexts_branchInEdge anchored).trans ih

variable [DecidableEq P]

theorem sameTexts_endAt : SameTexts state.tree (state.endAt incoming id).tree := by
  unfold endAt finishSuffix chainEnd
  exact SameTexts.trans ⟨rfl, rfl⟩ sameTexts_linkTo

theorem sameTexts_terminate : SameTexts state.tree (terminate incoming state).tree := by
  fun_induction Insertion.terminate incoming state with
  | case1 => exact ⟨rfl, rfl⟩
  | case2 state hr hzero ih => exact sameTexts_endAt.trans ih
  | case3 => exact ⟨rfl, rfl⟩
  | case4 => assumption
  | case5 state hr hlength id he edge hshort =>
    rename_i middle cut ih
    have hcut : SameTexts state.tree cut.tree := sameTexts_splitEdge
    exact (hcut.trans sameTexts_endAt).trans ih

theorem sameTexts_run : SameTexts state.tree (run incoming state).tree := by
  have hrounds (positions : List Nat) : SameTexts state.tree
      (positions.foldl (fun state pos => extend incoming pos state.beginRound) state).tree := by
    induction positions generalizing state with
    | nil => exact ⟨rfl, rfl⟩
    | cons pos positions ih =>
      have hround : SameTexts state.tree (extend incoming pos state.beginRound).tree :=
        sameTexts_extend
      exact hround.trans ih
  exact (hrounds _).trans sameTexts_terminate

end Insertion

namespace SuffixTree

variable {P : Type} [DecidableEq P] (tree : SuffixTree P) (sentence : Sentence) (payload : P)

theorem texts_add : (tree.add sentence payload).texts = tree.texts.push sentence :=
  Insertion.sameTexts_run.1

theorem annotated_add : (tree.add sentence payload).annotated = false :=
  Insertion.sameTexts_run.2

end SuffixTree

end SentenceSearch
