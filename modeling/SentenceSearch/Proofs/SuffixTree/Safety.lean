import SentenceSearch.Proofs.SuffixTree.History
import SentenceSearch.Proofs.SuffixTree.Passes
import SentenceSearch.Proofs.SuffixTree.Paths

/-!
# Insertions go right

Whenever a pass of an insertion begins, the active point is where the next suffix ends, as far as it
has been read. No check of the pass fails, and the pass leaves less to do. So the rounds come to an
end, and what they leave is the tree that the insertion is to give.

## Main definitions

* `Insertion.Located` — the active point is where it should be
* `Insertion.Underway` — the invariant of the passes
* `Insertion.GoesOn` — what a pass does that another one follows

## Main results

* `Insertion.Underway.pass` — what one pass preserves
* `Insertion.Underway.exists_last` — a round comes to an end
* `SuffixTree.Reachable.insertion_succeeds` — what holds of all passes of an insertion
-/

namespace SentenceSearch

open SuffixTree

variable {P : Type}

/-- The depth of a node is the length of its string. -/
theorem SuffixTree.Labelled.mem_depths {tree : SuffixTree P} {spell : Nat → List Char} {v d : Nat}
    (h : Labelled tree spell) :
    (v, d) ∈ tree.depths ↔ v < tree.nodeCount ∧ (spell v).length = d := by
  obtain ⟨depth, hdepth⟩ : ∃ depth : Nat → Nat, ∀ u, depth u = (spell u).length :=
    ⟨fun u => (spell u).length, fun _ => rfl⟩
  have hwalk : tree.walk (fun depth edge => depth + edge.length) (depth root) =
      tree.visit.map fun u => (u, depth u) := by
    refine walk_eq_map fun v c e he => ?_
    rw [hdepth, hdepth, (h.fits he).spell_child, List.length_append, (h.fits he).length_label]
  rw [hdepth, h.spell_root, List.length_nil] at hwalk
  rw [depths, hwalk, List.mem_map, ← hdepth]
  constructor
  · rintro ⟨u, hu, heq⟩
    obtain ⟨rfl, rfl⟩ := Prod.mk.inj heq
    exact ⟨(h.visit_spec.1 u).mp hu, rfl⟩
  · rintro ⟨hv, rfl⟩
    exact ⟨v, (h.visit_spec.1 v).mpr hv, rfl⟩

namespace Insertion

variable [DecidableEq P] {incoming : Incoming P} {before : List Char → Array P}
  {pos count id : Nat} {state next start : Insertion P} {spell spell' : Nat → List Char}
  {tree : SuffixTree P} {waiting : Nat → Prop} {active : ActivePoint}

/-! ### Checks -/

/-- A link that is there already leads to the same node. -/
theorem Grown.linkable {source : Option Nat} {target : Nat}
    (h : Grown incoming before count tree spell waiting) (htarget : target < tree.nodeCount)
    (hsource : ∀ v, source = some v →
      v < tree.nodeCount ∧ spell v ≠ [] ∧ spell target = (spell v).tail) :
    Linkable tree source target := by
  intro v hv
  obtain ⟨hlt, -, htail⟩ := hsource v hv
  refine ⟨hlt, ?_⟩
  cases hlink : tree.link v with
  | none => exact Or.inl rfl
  | some u =>
    -- Both nodes spell the string without its first character.
    obtain ⟨-, hu, -, hspell⟩ := h.stores.links hlink
    exact Or.inr (congrArg some (h.stores.labelled.spell_inj hu htarget (hspell.trans htail.symm)))

/-- A node whose link is missing is one character deep. -/
theorem Grown.finishable (h : Grown incoming before count tree spell waiting)
    (hnode : active.node < tree.nodeCount) (hpos : 0 < active.remaining)
    (hle : active.remaining ≤ pos + 1) (hwaits : ¬ waiting active.node) :
    Finishable tree active pos where
  remaining_pos := hpos
  remaining_le := hle
  node_lt := hnode
  linked hroot hnone := by
    have hlabelled := h.stores.labelled
    have htail : (spell active.node).tail = [] := by
      by_contra htail
      exact hwaits (h.linked _ hnode htail hnone)
    have hne : spell active.node ≠ [] := fun hnil =>
      hroot (hlabelled.spell_inj hnode hlabelled.root_lt (hnil.trans hlabelled.spell_root.symm))
    refine hlabelled.mem_depths.mpr ⟨hnode, ?_⟩
    obtain ⟨c, rest, hcons⟩ := List.exists_cons_of_ne_nil hne
    rw [hcons, List.tail_cons] at htail
    rw [hcons, htail, List.length_singleton]

/-- Both nodes that wait may be linked when one more suffix ends at a leaf. -/
theorem Progress.joinable {grown : SuffixTree P} {target leaf : Nat}
    (h : Progress incoming before pos count state spell)
    (hcount : count ≤ pos) (hpos : pos ≤ incoming.chars.size)
    (hgrows : Grows state.tree spell grown spell')
    (hgrown : Grown incoming before (count + 1) grown spell' waiting)
    (hwaits : waiting state.active.node →
      state.pendingEnd = some state.active.node ∨ state.pendingBranch = some state.active.node)
    (htarget : target < grown.nodeCount)
    (hspell : spell' target = factor incoming.chars.toList count pos)
    (hleaf : leaf < grown.nodeCount) (hends : spell' leaf = incoming.chars.toList.drop count) :
    Joinable state grown target leaf pos where
  branch := hgrown.linkable htarget fun v hv =>
    ((h.lastBranch v hv).grow hgrows).drops hcount hpos hspell
  last := by
    have hresolved := hgrown.resolveBranch hcount hpos htarget hspell state.pendingBranch
      fun v hv => (h.lastBranch v hv).grow hgrows
    exact hresolved.linkable (hleaf.trans_eq nodeCount_linkTo.symm) fun v hv =>
      ((h.lastEnd v hv).grow (hgrows.linkTo _ _)).drops (hcount.trans hpos) hends
  finish := by
    have hremaining := h.remaining
    refine (h.linked hcount hpos hgrows hgrown htarget hspell hleaf hends).finishable
      (((hgrows.linkTo _ _).linkTo _ _).lt h.reads.node_lt) (by omega) (by omega) ?_
    rintro ⟨⟨hwaiting, hbranch⟩, hend⟩
    exact (hwaits hwaiting).elim hend hbranch

/-! ### The invariant of the passes -/

/-- What holds when a pass begins, besides the invariant of the round: the way down starts at a
character that has been read. -/
structure Underway (incoming : Incoming P) (before : List Char → Array P) (pos count : Nat)
    (state : Insertion P) (spell : Nat → List Char) : Prop where
  progress : Progress incoming before pos count state spell
  pos_le : pos ≤ incoming.chars.size
  edge_le : state.active.edge ≤ pos
  branch_none : pos = incoming.chars.size → state.pendingBranch = none

/-- When a pass begins, the node of the active point and the way down from there spell the
suffix that is to end next, as far as it has been read, and so does the tree. -/
structure Located (incoming : Incoming P) (pos : Nat) (state : Insertion P) : Prop where
  /-- No more suffixes remain than have been begun. -/
  remaining_le : state.active.remaining ≤ pos + 1
  /-- The way down has been read. -/
  way_le : state.active.edge + state.active.length ≤ pos
  reached : ∃ x, state.tree.Leads x state.active.node
  /-- The string of the node goes on with the way down. -/
  spells : ∀ x, state.tree.Leads x state.active.node →
    x ++ factor incoming.chars.toList state.active.edge
        (state.active.edge + state.active.length) =
      factor incoming.chars.toList (pos + 1 - state.active.remaining) pos
  depth : ∃ d, (state.active.node, d) ∈ state.tree.depths ∧
    d + state.active.length = state.active.remaining - 1
  spelled : ∃ x v, state.tree.Leads x v ∧
    factor incoming.chars.toList (pos + 1 - state.active.remaining) pos <+: x

/-- What a pass does that another one follows. -/
structure GoesOn (incoming : Incoming P) (before : List Char → Array P) (pos : Nat)
    (state next : Insertion P) : Prop where
  weight_lt : next.active.weight < state.active.weight
  keepsLinks : KeepsLinks state.tree next.tree
  underway : ∃ count spell, Underway incoming before pos count next spell

theorem GoesOn.of_anchor (h : GoesOn incoming before pos (state.anchor pos) next) :
    GoesOn incoming before pos state next where
  weight_lt := h.weight_lt.trans_eq (ActivePoint.weight_anchor state.active pos)
  keepsLinks := h.keepsLinks
  underway := h.underway

namespace Underway

theorem count_le (h : Underway incoming before pos count state spell)
    (hr : state.active.remaining ≠ 0) : count ≤ pos := by
  have := h.progress.remaining
  omega

/-- The text of the insertion is on the list of the tree. -/
theorem text_lt (h : Underway incoming before pos count state spell)
    (hpos : pos < incoming.chars.size) : pos < (state.tree.text incoming.text).size := by
  rwa [Sentence.size, h.progress.grown.text]

/-- The way down ends where the text has been read to. -/
theorem way_le (h : Underway incoming before pos count state spell) :
    state.active.edge + state.active.length ≤ pos := by
  rcases Nat.eq_zero_or_pos state.active.length with hzero | hlength
  · rw [hzero]
    exact h.edge_le
  · exact (h.progress.reads.ends_at hlength).le

/-- The string of the node and the way down are as long as the suffix that has been read. -/
theorem depth_eq (h : Underway incoming before pos count state spell) :
    (spell state.active.node).length + state.active.length = state.active.remaining - 1 := by
  have hspells := congrArg List.length h.progress.reads.spells
  have hpos : pos ≤ incoming.chars.toList.length := by simpa using h.pos_le
  rw [length_factor hpos, List.length_append, List.length_take, List.length_drop] at hspells
  have hway := h.way_le
  have hremaining := h.progress.remaining
  omega

theorem located (h : Underway incoming before pos count state spell) :
    Located incoming pos state := by
  have hlabelled := h.progress.grown.stores.labelled
  have hremaining := h.progress.remaining
  have hnode := h.progress.reads.node_lt
  have hcount : pos + 1 - state.active.remaining = count := by omega
  refine ⟨by omega, h.way_le, ⟨_, hlabelled.leads_spell hnode⟩, ?_, ?_, ?_⟩
  · intro x hx
    rw [← (hlabelled.leads_iff.mp hx).2, factor, Nat.add_sub_cancel_left, hcount]
    exact h.progress.reads.spells
  · exact ⟨_, hlabelled.mem_depths.mpr ⟨hnode, rfl⟩, h.depth_eq⟩
  · obtain ⟨v, hv, hfront⟩ := h.progress.spelled
    exact ⟨_, v, hlabelled.leads_spell hv, hcount ▸ hfront⟩

theorem anchor (h : Underway incoming before pos count state spell) :
    Underway incoming before pos count (state.anchor pos) spell ∧
      (state.anchor pos).active.edge + (state.anchor pos).active.length = pos := by
  obtain ⟨hprogress, hend⟩ := h.progress.anchor
  exact ⟨⟨hprogress, h.pos_le, by omega, h.branch_none⟩, hend⟩

/-- After a suffix has been made to end, the way down starts at a character that has been read. -/
theorem edge_finish_le (h : Underway incoming before pos count state spell)
    (link : Option Nat) : (state.active.finish pos link).edge ≤ pos := by
  have hedge := h.edge_le
  have hdepth := h.depth_eq
  unfold ActivePoint.finish
  split
  · split
    · dsimp only
      omega
    · exact hedge
  · exact hedge

theorem edge?_eq_ok (h : Underway incoming before pos count state spell)
    (he : state.activeEdge? incoming = some id) :
    state.tree.edge? id = .ok (state.tree.edge id) := by
  have hfiled := filed_of_activeEdge? he
  have hlabelled := h.progress.grown.stores.labelled
  exact SuffixTree.edge?_eq_ok (hlabelled.edge_lt hfiled) (hlabelled.fits hfiled).start_lt.le

/-- The next character of an edge that goes on below the active point is in its text. -/
theorem charAt_lt (h : Underway incoming before pos count state spell)
    (he : state.activeEdge? incoming = some id)
    (hlt : state.active.length < (state.tree.edge id).length) :
    (state.tree.edge id).start + state.active.length <
      (state.tree.text (state.tree.edge id).text).size := by
  have hstop := (h.progress.grown.stores.labelled.fits (filed_of_activeEdge? he)).stop_le
  unfold TreeEdge.length at hlt
  omega

theorem splitEdge?_eq_ok (h : Underway incoming before pos count state spell)
    (he : state.activeEdge? incoming = some id) (hlength : 0 < state.active.length)
    (hlt : state.active.length < (state.tree.edge id).length) :
    state.tree.splitEdge? id state.active.length =
      .ok (state.tree.splitEdge id state.active.length) :=
  SuffixTree.splitEdge?_eq_ok (h.edge?_eq_ok he) hlength hlt (h.charAt_lt he hlt)

/-! ### Moves -/

theorem descend (h : Underway incoming before pos count state spell)
    (hend : state.active.edge + state.active.length = pos)
    (he : state.activeEdge? incoming = some id)
    (hle : (state.tree.edge id).length ≤ state.active.length) :
    GoesOn incoming before pos state (state.descend (state.tree.edge id)) where
  weight_lt := ActivePoint.weight_descend_lt
    (h.progress.grown.stores.labelled.fits (filed_of_activeEdge? he)).length_pos hle
  keepsLinks := .refl _
  underway := by
    refine ⟨count, spell, h.progress.descend hend h.pos_le he hle, h.pos_le, ?_, h.branch_none⟩
    simp only [Insertion.descend, ActivePoint.descend]
    omega

theorem branchAtNode (hbefore : TailClosed before)
    (h : Underway incoming before pos count state spell) (hr : state.active.remaining ≠ 0)
    (hend : state.active.edge + state.active.length = pos) (hpos : pos < incoming.chars.size)
    (hnone : state.activeEdge? incoming = none) :
    state.branchAtNode? incoming pos = .ok (state.branchAtNode incoming pos) ∧
      GoesOn incoming before pos state (state.branchAtNode incoming pos) := by
  have hnode := h.progress.reads.node_lt
  have hcount := h.count_le hr
  obtain ⟨hspell, hfree⟩ := h.progress.spell_eq_of_none hend hpos.le hnone
  obtain ⟨spell', hgrows, hleaf, hgrown⟩ :=
    h.progress.grown.addLeaf hnode hfree hpos hcount hspell
  have hjoin := h.progress.joinable hcount hpos.le hgrows hgrown
    (fun hwaits => hwaits.resolve_right hnode.ne) (hgrows.lt hnode)
    ((hgrows.spell_eq _ hnode).trans hspell) (nodeCount_addLeaf ▸ Nat.lt_succ_self _) hleaf
  obtain ⟨spell'', hprogress⟩ := h.progress.branchAtNode hbefore hend hcount hpos hnone
  refine ⟨branchAtNode?_eq_ok (h.text_lt hpos) hnode hjoin, ?_, ?_, count + 1, spell'', hprogress, h.pos_le,
    h.edge_finish_le _, fun heq => absurd heq hpos.ne⟩
  · exact ActivePoint.weight_finish_lt _ _ (Nat.pos_of_ne_zero hr)
  · exact (keepsLinks_addLeaf hnode).trans hjoin.keepsLinks

theorem branchInEdge (hbefore : TailClosed before)
    (h : Underway incoming before pos count state spell) (hr : state.active.remaining ≠ 0)
    (hend : state.active.edge + state.active.length = pos) (hpos : pos < incoming.chars.size)
    (he : state.activeEdge? incoming = some id)
    (hlt : state.active.length < (state.tree.edge id).length)
    (hne : state.tree.keyBelow id state.active.length ≠ incoming.charAt pos) :
    state.branchInEdge? incoming id pos = .ok (state.branchInEdge incoming id pos) ∧
      GoesOn incoming before pos state (state.branchInEdge incoming id pos) := by
  have hnode := h.progress.reads.node_lt
  have hcount := h.count_le hr
  have hlength := h.progress.length_pos hend he hne
  obtain ⟨spell', hgrows, hmiddle, hleaf, hgrown⟩ :=
    h.progress.cut_addLeaf hend hcount hpos he hlt hne
  have hcut : (state.tree.splitEdge id state.active.length).nodeCount =
      state.tree.nodeCount + 1 := nodeCount_splitEdge
  have hjoin := h.progress.joinable hcount hpos.le hgrows hgrown
    (fun hwaits => (hwaits.resolve_right (by omega)).resolve_right hnode.ne)
    (by rw [nodeCount_addLeaf]; omega) hmiddle (by rw [nodeCount_addLeaf]; omega) hleaf
  obtain ⟨spell'', hprogress⟩ :=
    h.progress.branchInEdge hbefore hend hcount hpos he hlt hne
  refine ⟨branchInEdge?_eq_ok rfl (h.splitEdge?_eq_ok he hlength hlt) (h.text_lt hpos)
    (hcut ▸ hjoin), ?_, ?_, count + 1, spell'', hprogress, h.pos_le, h.edge_finish_le _,
    fun heq => absurd heq hpos.ne⟩
  · exact ActivePoint.weight_finish_lt _ _ (Nat.pos_of_ne_zero hr)
  · exact (keepsLinks_splitEdge.trans (keepsLinks_addLeaf (by omega))).trans
      (hcut ▸ hjoin).keepsLinks

theorem stayImplicit (h : Underway incoming before pos count state spell)
    (hr : state.active.remaining ≠ 0) (hend : state.active.edge + state.active.length = pos)
    (hpos : pos < incoming.chars.size) (he : state.activeEdge? incoming = some id)
    (hlt : state.active.length < (state.tree.edge id).length)
    (hkey : state.tree.keyBelow id state.active.length = incoming.charAt pos) :
    state.stayImplicit? = .ok state.stayImplicit ∧
      KeepsLinks state.tree state.stayImplicit.tree ∧
      Underway incoming before (pos + 1) count state.stayImplicit.beginRound spell := by
  have hcount := h.count_le hr
  have hlink : Linkable state.tree state.pendingBranch state.active.node :=
    h.progress.grown.linkable h.progress.reads.node_lt fun v hv =>
      (h.progress.lastBranch v hv).drops hcount h.pos_le
        (h.progress.spell_eq_of_waiting hend h.pos_le he hlt hkey hv)
  have hresting := h.progress.stayImplicit hend hcount hpos he hlt hkey
  refine ⟨stayImplicit?_eq_ok fun _ => hlink, ?_, hresting.beginRound, hpos, ?_, fun _ => rfl⟩
  · unfold Insertion.stayImplicit
    split
    · exact .refl _
    · exact hlink.keepsLinks
  · have hedge := h.edge_le
    unfold Insertion.stayImplicit
    split <;> exact Nat.le_succ_of_le hedge

theorem endAt (hbefore : TailClosed before)
    (h : Underway incoming before incoming.chars.size count state spell)
    (hr : ¬ state.active.remaining ≤ 1)
    (hkeeps : KeepsLinks state.tree tree) (hgrows : Grows state.tree spell tree spell')
    (hgrown : Grown incoming before count tree spell' fun v =>
      state.pendingEnd = some v ∨ waiting v)
    (hnode : ¬ waiting state.active.node) (hwaits : ∀ v, waiting v → v = id)
    (hnew : ∀ v < tree.nodeCount, v < state.tree.nodeCount ∨ v = id)
    (hid : id < tree.nodeCount) (hspell : spell' id = incoming.chars.toList.drop count) :
    Insertion.endAt? { state with tree } incoming id =
        .ok (Insertion.endAt { state with tree } incoming id) ∧
      GoesOn incoming before incoming.chars.size state
        (Insertion.endAt { state with tree } incoming id) := by
  have hremaining := h.progress.remaining
  have hcount : count < incoming.chars.size := by omega
  have hbranch := h.branch_none rfl
  have hne : spell' id ≠ [] := by
    rw [hspell, Ne, List.drop_eq_nil_iff, Array.length_toList]
    exact Nat.not_le_of_lt hcount
  have hroot : id ≠ root := fun heq => hne (heq ▸ hgrown.stores.labelled.spell_root)
  have hattached : (tree.attach id incoming.payload).nodeCount = tree.nodeCount :=
    sameShape_attach.nodeCount
  have hlast : Linkable (tree.attach id incoming.payload) state.pendingEnd id :=
    (hgrown.attach hid hne hspell).linkable (hid.trans_eq hattached.symm) fun v hv =>
      ((h.progress.lastEnd v hv).grow (hgrows.attach _ _)).drops hcount.le hspell
  have hfinish := (h.progress.linked_attach hcount hgrows hgrown hid hspell).finishable
    (((hgrows.attach _ _).linkTo _ _).lt h.progress.reads.node_lt) (by omega)
    (Nat.le.intro hremaining) hnode
  refine ⟨endAt?_eq_ok hroot hid hlast hfinish, ?_, ?_, count + 1, spell',
    h.progress.endAt waiting hbefore hcount hbranch hgrows hgrown hnode hwaits hnew hid hspell,
    le_rfl, h.edge_finish_le _, fun _ => hbranch⟩
  · exact ActivePoint.weight_finish_lt _ _ (Nat.lt_of_succ_lt (Nat.lt_of_not_le hr))
  · exact (hkeeps.trans keepsLinks_attach).trans hlast.keepsLinks

/-! ### Passes -/

theorem extendPass (hbefore : TailClosed before) (hpos : pos < incoming.chars.size)
    (h : Underway incoming before pos count state spell) :
    (∃ next, Insertion.extendPass incoming pos state = .ok (.yield next) ∧
      GoesOn incoming before pos state next ∧
      extend incoming pos next = extend incoming pos state) ∨
    (Insertion.extendPass incoming pos state = .ok (.done (extend incoming pos state)) ∧
      KeepsLinks state.tree (extend incoming pos state).tree ∧
      ∃ count spell, Underway incoming before (pos + 1) count
        (extend incoming pos state).beginRound spell) := by
  obtain ⟨hanchored, hend⟩ := h.anchor
  have hway : (state.anchor pos).wayDown incoming =
      .ok ((state.anchor pos).activeEdge? incoming) :=
    wayDown_eq_ok (by omega) hanchored.progress.reads.node_lt
  have hremaining : (state.anchor pos).active.remaining = state.active.remaining :=
    ActivePoint.remaining_anchor _ _
  unfold Insertion.extendPass
  simp only [Incoming.charAt?_eq_ok hpos, hway, Fault.ok_bind]
  -- The cases are those of the round itself.
  fun_cases Insertion.extend incoming pos state with
  | case1 hr =>
    obtain rfl : count = pos + 1 := by
      have := h.progress.remaining
      omega
    exact Or.inr ⟨if_pos hr, .refl _, pos + 1, spell, (h.progress.rest hpos).beginRound, hpos,
      Nat.le_succ_of_le h.edge_le, fun _ => rfl⟩
  | case2 hr anchored hnone =>
    obtain ⟨hok, hgoes⟩ := hanchored.branchAtNode hbefore (hremaining ▸ hr) hend hpos hnone
    refine Or.inl ⟨_, ?_, hgoes.of_anchor, rfl⟩
    rw [if_neg hr, hnone]
    dsimp only
    rw [hok]
    rfl
  | case3 hr anchored id he edge hwhole =>
    have hgoes := hanchored.descend hend he hwhole.2
    refine Or.inl ⟨_, ?_, hgoes.of_anchor, rfl⟩
    rw [if_neg hr, he]
    dsimp only
    rw [hanchored.edge?_eq_ok he, Fault.ok_bind, if_pos hwhole.2]
    rfl
  | case4 hr anchored id he edge hshort hkey =>
    have hlt := hanchored.progress.length_lt he hshort
    obtain ⟨hok, hkeeps, hnext⟩ :=
      hanchored.stayImplicit (hremaining ▸ hr) hend hpos he hlt hkey
    refine Or.inr ⟨?_, hkeeps, count, spell, hnext⟩
    rw [if_neg hr, he]
    dsimp only
    rw [hanchored.edge?_eq_ok he, Fault.ok_bind, if_neg hlt.not_ge,
      charAt?_eq_ok (hanchored.charAt_lt he hlt), Fault.ok_bind, if_pos hkey, hok]
    rfl
  | case5 hr anchored id he edge hshort hne =>
    have hlt := hanchored.progress.length_lt he hshort
    obtain ⟨hok, hgoes⟩ := hanchored.branchInEdge hbefore (hremaining ▸ hr) hend hpos he hlt hne
    refine Or.inl ⟨_, ?_, hgoes.of_anchor, rfl⟩
    rw [if_neg hr, he]
    dsimp only
    rw [hanchored.edge?_eq_ok he, Fault.ok_bind, if_neg hlt.not_ge,
      charAt?_eq_ok (hanchored.charAt_lt he hlt), Fault.ok_bind, if_neg hne, hok]
    rfl

theorem terminatePass (hbefore : TailClosed before)
    (h : Underway incoming before incoming.chars.size count state spell) :
    (∃ next, Insertion.terminatePass incoming state = .ok (.yield next) ∧
      GoesOn incoming before incoming.chars.size state next ∧
      terminate incoming next = terminate incoming state) ∨
    (Insertion.terminatePass incoming state = .ok (.done (terminate incoming state)) ∧
      KeepsLinks state.tree (terminate incoming state).tree) := by
  have hbranch := h.branch_none rfl
  have hway (hlength : state.active.length ≠ 0) :
      state.wayDown incoming = .ok (state.activeEdge? incoming) := by
    have hend := h.progress.reads.ends_at (Nat.pos_of_ne_zero hlength)
    exact wayDown_eq_ok (by omega) h.progress.reads.node_lt
  unfold Insertion.terminatePass
  fun_cases Insertion.terminate incoming state with
  | case1 hr => exact Or.inr ⟨if_pos hr, .refl _⟩
  | case2 hr hzero =>
    -- The suffix ends at a node, which gets the payload.
    have hgrown : Grown incoming before count state.tree spell fun v =>
        state.pendingEnd = some v ∨ False := by
      refine h.progress.grown.mono fun v _ _ hv => ?_
      rw [hbranch] at hv
      exact hv.imp_right nofun
    obtain ⟨hok, hgoes⟩ := h.endAt hbefore hr (.refl _) ⟨Nat.le_refl _, fun _ _ => rfl⟩ hgrown
      id (fun _ => False.elim) (fun v hv => Or.inl hv) h.progress.reads.node_lt
      (h.progress.spell_eq_drop hzero)
    refine Or.inl ⟨_, ?_, hgoes, rfl⟩
    rw [if_neg hr, if_pos hzero, hok]
    rfl
  | case3 hr hlength hnone =>
    have hend := h.progress.reads.ends_at (Nat.pos_of_ne_zero hlength)
    exact absurd (h.progress.length_eq_zero hend (Nat.le_refl _) hnone) hlength
  | case4 hr hlength id he edge hwhole =>
    have hend := h.progress.reads.ends_at (Nat.pos_of_ne_zero hlength)
    refine Or.inl ⟨_, ?_, h.descend hend he hwhole.2, rfl⟩
    rw [if_neg hr, if_neg hlength, hway hlength, Fault.ok_bind, he]
    dsimp only
    rw [h.edge?_eq_ok he, Fault.ok_bind, if_pos hwhole.2]
    rfl
  | case5 hr hlength id he edge hshort middle cut =>
    -- The suffix ends inside an edge, which is cut there.
    have hlt := h.progress.length_lt he hshort
    obtain ⟨spell', hgrows, hmiddle, hgrown⟩ := h.progress.cut_end hlength hbranch he hlt
    have hcount : (state.tree.splitEdge id state.active.length).nodeCount =
        state.tree.nodeCount + 1 := nodeCount_splitEdge
    obtain ⟨hok, hgoes⟩ := h.endAt hbefore hr keepsLinks_splitEdge hgrows hgrown
      (Nat.ne_of_lt h.progress.reads.node_lt) (fun v hv => hv) (fun v hv => by omega) (by omega)
      hmiddle
    refine Or.inl ⟨_, ?_, hgoes, rfl⟩
    rw [if_neg hr, if_neg hlength, hway hlength, Fault.ok_bind, he]
    dsimp only
    rw [h.edge?_eq_ok he, Fault.ok_bind, if_neg hlt.not_ge,
      h.splitEdge?_eq_ok he (Nat.pos_of_ne_zero hlength) hlt, Fault.ok_bind, hok]
    rfl

/-- A pass succeeds. Either another one follows, which has less to do for the same outcome, or the
round is over and the next one may begin. -/
theorem pass (hbefore : TailClosed before) (h : Underway incoming before pos count state spell) :
    (∃ next, Insertion.pass incoming pos state = .ok (.yield next) ∧
      GoesOn incoming before pos state next ∧
      Insertion.round incoming pos next = Insertion.round incoming pos state) ∨
    (Insertion.pass incoming pos state = .ok (.done (Insertion.round incoming pos state)) ∧
      KeepsLinks state.tree (Insertion.round incoming pos state).tree ∧
      (pos < incoming.chars.size → ∃ count spell, Underway incoming before (pos + 1) count
        (Insertion.round incoming pos state).beginRound spell)) := by
  unfold Insertion.pass Insertion.round
  by_cases hpos : pos < incoming.chars.size
  · simp only [if_pos hpos]
    exact (h.extendPass hbefore hpos).imp_right fun ⟨hok, hkeeps, hnext⟩ =>
      ⟨hok, hkeeps, fun _ => hnext⟩
  · obtain rfl : pos = incoming.chars.size := Nat.le_antisymm h.pos_le (Nat.le_of_not_lt hpos)
    simp only [if_neg hpos]
    exact (h.terminatePass hbefore).imp_right fun ⟨hok, hkeeps⟩ =>
      ⟨hok, hkeeps, fun hlt => absurd hlt hpos⟩

/-- A round comes to an end. -/
theorem exists_last (hbefore : TailClosed before)
    (h : Underway incoming before pos count state spell)
    (hvisits : Visits incoming start pos state) :
    ∃ last, Visits incoming start pos last ∧
      Insertion.pass incoming pos last = .ok (.done (Insertion.round incoming pos state)) := by
  -- The induction is on what is left to do in the round.
  induction hn : state.active.weight using Nat.strongRecOn generalizing state count spell with
  | _ n ih =>
    subst hn
    rcases h.pass hbefore with ⟨next, hok, hgoes, hround⟩ | ⟨hok, -, -⟩
    · obtain ⟨count', spell', hnext⟩ := hgoes.underway
      rw [← hround]
      exact ih _ hgoes.weight_lt hnext (hvisits.again hok) rfl
    · exact ⟨state, hvisits, hok⟩

end Underway

/-! ### All rounds -/

namespace Visits

/-- The invariant holds whenever a pass begins. -/
theorem underway (hbefore : TailClosed before) (hstart : Resting incoming before 0 0 start spell)
    (hedge : start.active.edge = 0) (h : Visits incoming start pos state) :
    ∃ count spell, Underway incoming before pos count state spell := by
  induction h with
  | first =>
    exact ⟨0, spell, hstart.beginRound, Nat.zero_le _, hedge.le, fun _ => rfl⟩
  | again _ hpass ih =>
    obtain ⟨count, spell, h⟩ := ih
    rcases h.pass hbefore with ⟨next, hok, hgoes, -⟩ | ⟨hok, -, -⟩
    · cases hok.symm.trans hpass
      exact hgoes.underway
    · cases hok.symm.trans hpass
  | round _ hpos hpass ih =>
    obtain ⟨count, spell, h⟩ := ih
    rcases h.pass hbefore with ⟨next, hok, -, -⟩ | ⟨hok, -, hnext⟩
    · cases hok.symm.trans hpass
    · cases hok.symm.trans hpass
      exact hnext hpos

/-- Each round is begun where the one before has left the insertion. -/
theorem rounds (hbefore : TailClosed before) (hstart : Resting incoming before 0 0 start spell)
    (hedge : start.active.edge = 0) (hpos : pos ≤ incoming.chars.size) :
    Visits incoming start pos ((List.range pos).foldl
      (fun state pos => extend incoming pos state.beginRound) start).beginRound := by
  induction pos with
  | zero => exact .first
  | succ pos ih =>
    have hvisits := ih (Nat.le_of_succ_le hpos)
    obtain ⟨count, spell', h⟩ := hvisits.underway hbefore hstart hedge
    obtain ⟨last, hlast, hok⟩ := h.exists_last hbefore hvisits
    rw [Insertion.round, if_pos (Nat.lt_of_succ_le hpos)] at hok
    rw [List.range_succ, List.foldl_append]
    exact hlast.round hpos hok

/-- Over all passes so far no link that is set has been changed. -/
theorem keepsLinks (hbefore : TailClosed before) (hstart : Resting incoming before 0 0 start spell)
    (hedge : start.active.edge = 0) (h : Visits incoming start pos state) :
    KeepsLinks start.tree state.tree := by
  induction h with
  | first => exact .refl _
  | again hvisits hpass ih =>
    obtain ⟨count, spell, h⟩ := hvisits.underway hbefore hstart hedge
    rcases h.pass hbefore with ⟨next, hok, hgoes, -⟩ | ⟨hok, -, -⟩
    · cases hok.symm.trans hpass
      exact ih.trans hgoes.keepsLinks
    · cases hok.symm.trans hpass
  | round hvisits hpos hpass ih =>
    obtain ⟨count, spell, h⟩ := hvisits.underway hbefore hstart hedge
    rcases h.pass hbefore with ⟨next, hok, -, -⟩ | ⟨hok, hkeeps, -⟩
    · cases hok.symm.trans hpass
    · cases hok.symm.trans hpass
      exact ih.trans hkeeps

end Visits

end Insertion

namespace SuffixTree

variable [DecidableEq P] {tree : SuffixTree P}

/-- Whenever a pass of an insertion begins, the active point is where it should be and all checks of
the pass succeed. No link that is set is changed, and another pass of the same round has less to do.
The passes come to an end, with the tree that the insertion gives. -/
theorem Reachable.insertion_succeeds (h : Reachable tree) (sentence : Sentence) (payload : P) :
    (∀ pos state, Insertion.Visits (.of tree sentence payload) (.opening tree sentence) pos state →
      Insertion.Located (.of tree sentence payload) pos state ∧ KeepsLinks tree state.tree ∧
      ∃ outcome, Insertion.pass (.of tree sentence payload) pos state = .ok outcome ∧
        KeepsLinks state.tree outcome.value.tree ∧
        ∀ next, outcome = .yield next → next.active.weight < state.active.weight) ∧
    ∃ last final, Insertion.Visits (.of tree sentence payload) (.opening tree sentence)
        sentence.size last ∧
      Insertion.pass (.of tree sentence payload) sentence.size last = .ok (.done final) ∧
      final.tree = tree.add sentence payload := by
  obtain ⟨spell, ends, hsettled⟩ := h.exists_settled
  have hstart := hsettled.resting sentence payload
  constructor
  · intro pos state hvisits
    obtain ⟨count, spell', hunderway⟩ := hvisits.underway hsettled.closed hstart rfl
    refine ⟨hunderway.located, hvisits.keepsLinks hsettled.closed hstart rfl, ?_⟩
    rcases hunderway.pass hsettled.closed with ⟨next, hok, hgoes, -⟩ | ⟨hok, hkeeps, -⟩
    · refine ⟨_, hok, hgoes.keepsLinks, ?_⟩
      rintro _ ⟨⟩
      exact hgoes.weight_lt
    · exact ⟨_, hok, hkeeps, nofun⟩
  · have hvisits := Insertion.Visits.rounds hsettled.closed hstart rfl (Nat.le_refl _)
    obtain ⟨count, spell', hunderway⟩ := hvisits.underway hsettled.closed hstart rfl
    obtain ⟨last, hlast, hok⟩ := hunderway.exists_last hsettled.closed hvisits
    refine ⟨last, _, hlast, hok, ?_⟩
    rw [Insertion.round, if_neg (Nat.lt_irrefl _)]
    rfl

/-- The tree of one text, with up to date masks. -/
private def oneText : SuffixTree Nat :=
  (SuffixTree.empty.add (.ofText .empty "abcabd".toList) 3).annotate

/-- The second text ends inside an edge of the first one, which is cut in the last round; its own
suffixes end at nodes. -/
theorem Reachable.insertion_succeeds_cuts :
    oneText.Reachable ∧
    (∀ pos state, Insertion.Visits (.of oneText (.ofText .empty "cab".toList) 7)
      (.opening oneText (.ofText .empty "cab".toList)) pos state →
      Insertion.Located (.of oneText (.ofText .empty "cab".toList) 7) pos state) ∧
    ∃ last final, Insertion.Visits (.of oneText (.ofText .empty "cab".toList) 7)
        (.opening oneText (.ofText .empty "cab".toList)) 3 last ∧
      Insertion.pass (.of oneText (.ofText .empty "cab".toList) 7) 3 last = .ok (.done final) ∧
      final.tree = oneText.add (.ofText .empty "cab".toList) 7 := by
  have htree : oneText.Reachable := Reachable.empty.add _ _ |>.annotate
  obtain ⟨hpasses, hlast⟩ := htree.insertion_succeeds (.ofText .empty "cab".toList) 7
  exact ⟨htree, fun pos state hvisits => (hpasses pos state hvisits).1, hlast⟩

end SuffixTree

end SentenceSearch
