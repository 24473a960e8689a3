import SentenceSearch.Proofs.SuffixTree.Progress

/-!
# The rounds of an insertion

Each move of a round keeps the invariant of the insertion: going down an edge, making a suffix end
at a leaf below a node or inside an edge, and stopping where the rest is spelled already. So every
round keeps it.

## Main results

* `Progress.branchAtNode`, `Progress.branchInEdge`, `Progress.stayImplicit` — what each move
  preserves
* `Progress.extend` — what a round preserves
-/

namespace SentenceSearch

open SuffixTree

variable {P : Type} [DecidableEq P]

namespace Insertion

variable {incoming : Incoming P} {before : List Char → Array P} {pos count id : Nat}
  {state : Insertion P} {spell spell' : Nat → List Char} {tree tree' : SuffixTree P}
  {waiting : Nat → Prop} {active : ActivePoint}

/-! ### Moving the active point -/

/-- A round begins with one more suffix to make explicit and no node that waits for a link. -/
theorem Resting.beginRound (h : Resting incoming before pos count state spell) :
    Progress incoming before pos count state.beginRound spell where
  grown := h.grown.mono fun v _ _ hv => Or.inl hv
  canonical := h.canonical
  remaining := by
    have := h.remaining
    simp only [Insertion.beginRound, ActivePoint.begin]
    omega
  reads := ⟨h.reads.node_lt, h.reads.spells, h.reads.ends_at⟩
  spelled := h.spelled
  lastEnd := h.lastEnd
  lastBranch v hv := by simp [Insertion.beginRound] at hv

/-- At a node the way down may start anywhere. -/
theorem Progress.anchor (h : Progress incoming before pos count state spell) :
    Progress incoming before pos count (state.anchor pos) spell ∧
      (state.anchor pos).active.edge + (state.anchor pos).active.length = pos := by
  have hedge : (state.anchor pos).active.edge + (state.anchor pos).active.length = pos := by
    unfold Insertion.anchor ActivePoint.anchor
    split
    · rename_i hzero
      simp [hzero]
    · rename_i hne
      exact h.reads.ends_at (Nat.pos_of_ne_zero hne)
  refine ⟨⟨h.grown, h.canonical, ?_, ⟨?_, ?_, fun _ => hedge⟩, h.spelled, h.lastEnd,
    h.lastBranch⟩, hedge⟩
  · simpa [Insertion.anchor] using h.remaining
  · unfold Insertion.anchor ActivePoint.anchor
    split <;> exact h.reads.node_lt
  · have hspells := h.reads.spells
    unfold Insertion.anchor ActivePoint.anchor
    split
    · rename_i hzero
      simpa [hzero] using hspells
    · exact hspells

omit [DecidableEq P] in
theorem filed_of_activeEdge? (he : state.activeEdge? incoming = some id) :
    state.tree.Filed state.active.node
      (incoming.chars.toList.getD state.active.edge default) id := by
  rw [Incoming.getD_toList]
  exact he

theorem Progress.descend (h : Progress incoming before pos count state spell)
    (hend : state.active.edge + state.active.length = pos) (hpos : pos ≤ incoming.chars.size)
    (he : state.activeEdge? incoming = some id)
    (hle : (state.tree.edge id).length ≤ state.active.length) :
    Progress incoming before pos count (state.descend (state.tree.edge id)) spell where
  grown := h.grown
  canonical := h.canonical
  remaining := h.remaining
  reads := h.reads.descend h.grown.stores.labelled h.spelled hend (by simpa using hpos)
    (filed_of_activeEdge? he) hle
  spelled := h.spelled
  lastEnd := h.lastEnd
  lastBranch := h.lastBranch

/-- Once a suffix ends, the active point goes on to the next shorter one. -/
theorem Grown.finish (h : Grown incoming before (count + 1) tree spell waiting)
    (hreads : active.Reads tree spell incoming.chars.toList pos
      (factor incoming.chars.toList count pos))
    (hpos : pos ≤ incoming.chars.size) (hcount : count ≤ pos)
    (hremaining : active.remaining + count = pos + 1) (hnode : ¬ waiting active.node) :
    (active.finish pos (tree.link active.node)).Reads tree spell incoming.chars.toList pos
        (factor incoming.chars.toList (count + 1) pos) ∧
      (active.finish pos (tree.link active.node)).remaining + (count + 1) = pos + 1 := by
  refine ⟨hreads.finish h.stores.labelled (by simpa using hpos) hcount hremaining
    (fun u hu => ?_) fun hnone => ?_, ?_⟩
  · obtain ⟨-, hlt, hne, htail⟩ := h.stores.links hu
    exact ⟨hlt, hne, htail⟩
  · by_contra htail
    exact hnode (h.linked _ hreads.node_lt htail hnone)
  · unfold ActivePoint.finish
    split
    · split <;> dsimp only <;> omega
    · dsimp only
      omega

/-- What a move has to leave behind that makes one more suffix end. -/
theorem Progress.conclude {branch : Option Nat}
    (h : Progress incoming before pos count state spell) (last : Option Nat)
    (hbefore : TailClosed before)
    (hcount : count ≤ pos) (hpos : pos ≤ incoming.chars.size)
    (hgrows : Grows state.tree spell tree spell')
    (hgrown : Grown incoming before (count + 1) tree spell' waiting)
    (hcanonical : Canonical tree spell'
      (creditedUpTo before incoming.chars.toList incoming.payload (count + 1)))
    (hnode : ¬ waiting state.active.node)
    (hwaits : ∀ v, waiting v → last = some v ∨ branch = some v)
    (hlastEnd : ∀ v, last = some v → EndedLast incoming.chars.toList (count + 1) tree spell' v)
    (hlastBranch : ∀ v, branch = some v → Waiting incoming pos (count + 1) tree spell' v) :
    Progress incoming before pos (count + 1)
      ⟨tree, state.active.finish pos (tree.link state.active.node), branch, last⟩ spell' := by
  obtain ⟨hreads, hremaining⟩ := hgrown.finish (h.reads.grow hgrows) hpos hcount h.remaining hnode
  have hspelled := h.grown.stores.spelled_tail hbefore hgrown.stores h.spelled
  rw [tail_factor] at hspelled
  exact ⟨hgrown.mono fun v _ _ hv => hwaits v hv, hcanonical, hremaining, hreads, hspelled,
    hlastEnd, hlastBranch⟩

/-! ### Making a suffix end -/

/-- The node that waits for a link gets the node where the next suffix parts. -/
theorem Grown.resolveBranch {target : Nat}
    (h : Grown incoming before (count + 1) tree spell waiting) (hcount : count ≤ pos)
    (hpos : pos ≤ incoming.chars.size) (htarget : target < tree.nodeCount)
    (hspell : spell target = factor incoming.chars.toList count pos) (branch : Option Nat)
    (hbranch : ∀ v, branch = some v → Waiting incoming pos count tree spell v) :
    Grown incoming before (count + 1) (Insertion.linkTo branch target tree) spell
      fun v => waiting v ∧ branch ≠ some v :=
  h.linkTo htarget fun v hv => (hbranch v hv).drops hcount hpos hspell

/-- The node where the suffix before ends gets the node where the next suffix ends. -/
theorem Grown.chainEnd {target : Nat}
    (h : Grown incoming before (count + 1) tree spell waiting)
    (hcount : count ≤ incoming.chars.size) (htarget : target < tree.nodeCount)
    (hspell : spell target = incoming.chars.toList.drop count) (last : Option Nat)
    (hlast : ∀ v, last = some v → EndedLast incoming.chars.toList count tree spell v) :
    Grown incoming before (count + 1) (Insertion.linkTo last target tree) spell
      fun v => waiting v ∧ last ≠ some v :=
  h.linkTo htarget fun v hv => (hlast v hv).drops hcount hspell

omit [DecidableEq P] in
theorem Waiting.grow {v : Nat} (h : Waiting incoming pos count tree spell v)
    (hgrows : Grows tree spell tree' spell') : Waiting incoming pos count tree' spell' v := by
  obtain ⟨hv, ⟨i, hi, hspell⟩, d, hd, hspelled⟩ := h
  exact ⟨hgrows.lt hv, ⟨i, hi, (hgrows.spell_eq v hv).trans hspell⟩, d, hd,
    hgrows.spelled hspelled⟩

theorem creditedUpTo_mono {text : List Char} {p : P} (x : List Char)
    (hx : creditedUpTo before text p count x ≠ #[]) :
    creditedUpTo before text p (count + 1) x ≠ #[] :=
  creditAt_ne_empty_iff.mpr (Or.inl hx)

theorem creditedUpTo_drop {text : List Char} {p : P} :
    creditedUpTo before text p (count + 1) (text.drop count) ≠ #[] :=
  creditAt_ne_empty_iff.mpr (Or.inr rfl)

/-- Both nodes that have been waiting for a link get it: first the node that was cut out, then the
end of the suffix before. -/
theorem Progress.linked {grown : SuffixTree P} {target leaf : Nat}
    (h : Progress incoming before pos count state spell)
    (hcount : count ≤ pos) (hpos : pos ≤ incoming.chars.size)
    (hgrows : Grows state.tree spell grown spell')
    (hgrown : Grown incoming before (count + 1) grown spell' waiting)
    (htarget : target < grown.nodeCount)
    (hspell : spell' target = factor incoming.chars.toList count pos)
    (hleaf : leaf < grown.nodeCount) (hends : spell' leaf = incoming.chars.toList.drop count) :
    Grown incoming before (count + 1)
      (linkTo state.pendingEnd leaf (linkTo state.pendingBranch target grown)) spell'
      fun v => (waiting v ∧ state.pendingBranch ≠ some v) ∧ state.pendingEnd ≠ some v :=
  (hgrown.resolveBranch hcount hpos htarget hspell state.pendingBranch
    fun v hv => (h.lastBranch v hv).grow hgrows).chainEnd (hcount.trans hpos)
    (hleaf.trans_eq nodeCount_linkTo.symm) hends state.pendingEnd
    fun v hv => (h.lastEnd v hv).grow (hgrows.linkTo _ _)

/-- When a suffix ends at a new leaf, both nodes that have been waiting for a link get it. The leaf
waits for one, and so does a node that was cut out for it. -/
theorem Progress.branch {grown : SuffixTree P} {target leaf : Nat}
    (h : Progress incoming before pos count state spell) (branch : Option Nat)
    (hbefore : TailClosed before)
    (hcount : count ≤ pos) (hpos : pos < incoming.chars.size)
    (hgrows : Grows state.tree spell grown spell')
    (hgrown : Grown incoming before (count + 1) grown spell' waiting)
    (hwaits : ∀ v, waiting v →
      (state.pendingEnd = some v ∨ state.pendingBranch = some v) ∨ v = leaf ∨ branch = some v)
    (htarget : target < grown.nodeCount)
    (hspell : spell' target = factor incoming.chars.toList count pos)
    (hleaf : leaf < grown.nodeCount) (hends : spell' leaf = incoming.chars.toList.drop count)
    (hnew : ∀ v, v = leaf ∨ branch = some v → state.tree.nodeCount ≤ v)
    (hcanonical : Canonical grown spell'
      (creditedUpTo before incoming.chars.toList incoming.payload (count + 1)))
    (hbranch : ∀ v, branch = some v → Waiting incoming pos (count + 1) grown spell' v) :
    Progress incoming before pos (count + 1)
      ⟨linkTo state.pendingEnd leaf (linkTo state.pendingBranch target grown),
        state.active.finish pos ((linkTo state.pendingEnd leaf
          (linkTo state.pendingBranch target grown)).link state.active.node),
        branch, some leaf⟩ spell' := by
  have hstays : Grows grown spell'
      (linkTo state.pendingEnd leaf (linkTo state.pendingBranch target grown)) spell' :=
    Grows.linkTo (Grows.linkTo ⟨Nat.le_refl _, fun _ _ => rfl⟩ _ _) _ _
  have hsize : (linkTo state.pendingEnd leaf (linkTo state.pendingBranch target grown)).nodeCount =
      grown.nodeCount := by rw [nodeCount_linkTo, nodeCount_linkTo]
  have hgrown' : Grown incoming before (count + 1)
      (linkTo state.pendingEnd leaf (linkTo state.pendingBranch target grown)) spell'
      fun v => v = leaf ∨ branch = some v := by
    refine (h.linked hcount hpos.le hgrows hgrown htarget hspell hleaf hends).mono ?_
    rintro v - - ⟨⟨hv, hlinkedBranch⟩, hlinkedEnd⟩
    exact (hwaits v hv).resolve_left fun hv => hv.elim hlinkedEnd hlinkedBranch
  refine h.conclude (some leaf) hbefore hcount hpos.le (hgrows.trans hstays) hgrown'
    (fun v hv => ?_) (fun hv => ?_) (fun v hv => hv.imp (fun heq => congrArg some heq.symm) id) ?_
    fun v hv => (hbranch v hv).grow hstays
  · have hv' : v < grown.nodeCount := hv.trans_eq hsize
    exact hstays.needed hv' (fun _ => id) (hcanonical v hv')
  · exact Nat.not_lt_of_le (hnew _ hv) h.reads.node_lt
  · rintro v ⟨⟩
    exact ⟨hleaf.trans_eq hsize.symm, count, rfl, hends⟩

/-- Where no edge is on the way down, there is no way to go. -/
theorem Progress.length_eq_zero (h : Progress incoming before pos count state spell)
    (hend : state.active.edge + state.active.length = pos) (hpos : pos ≤ incoming.chars.size)
    (hnone : state.activeEdge? incoming = none) : state.active.length = 0 := by
  refine h.reads.length_eq_zero h.grown.stores.labelled h.spelled hend (by simpa using hpos) ?_
  intro e he
  rw [Incoming.getD_toList] at he
  exact absurd (hnone.symm.trans he) (by simp)

/-- Where no edge goes on with the character of the round, the string ends at the active node. -/
theorem Progress.spell_eq_of_none (h : Progress incoming before pos count state spell)
    (hend : state.active.edge + state.active.length = pos) (hpos : pos ≤ incoming.chars.size)
    (hnone : state.activeEdge? incoming = none) :
    spell state.active.node = factor incoming.chars.toList count pos ∧
      ∀ e, ¬ state.tree.Filed state.active.node (incoming.charAt pos) e := by
  have hlength := h.length_eq_zero hend hpos hnone
  have hedge : state.active.edge = pos := by omega
  constructor
  · have hspells := h.reads.spells
    rwa [hlength, List.take_zero, List.append_nil] at hspells
  · intro e he
    rw [activeEdge?, hedge] at hnone
    exact absurd (hnone.symm.trans he) (by simp)

/-- A suffix that no edge goes on with ends at a leaf below the active node. -/
theorem Progress.branchAtNode (h : Progress incoming before pos count state spell)
    (hbefore : TailClosed before) (hend : state.active.edge + state.active.length = pos)
    (hcount : count ≤ pos) (hpos : pos < incoming.chars.size)
    (hnone : state.activeEdge? incoming = none) :
    ∃ spell', Progress incoming before pos (count + 1)
      (state.branchAtNode incoming pos) spell' := by
  obtain ⟨hspell, hfree⟩ := h.spell_eq_of_none hend hpos.le hnone
  have hnode := h.reads.node_lt
  obtain ⟨spell', hgrows, hnew, hgrown⟩ := h.grown.addLeaf hnode hfree hpos hcount hspell
  refine ⟨spell', h.branch none hbefore hcount hpos hgrows hgrown (fun v hv => hv.imp_right Or.inl)
    (hgrows.lt hnode) ((hgrows.spell_eq _ hnode).trans hspell)
    (nodeCount_addLeaf ▸ Nat.lt_succ_self _) hnew ?_ (fun v hv => ?_) nofun⟩
  · rintro v (rfl | hv)
    · exact Nat.le_refl _
    · cases hv
  · rcases Nat.lt_or_eq_of_le (Nat.le_of_lt_succ (hv.trans_eq nodeCount_addLeaf)) with hv | rfl
    · exact hgrows.needed hv creditedUpTo_mono (h.canonical v hv)
    · exact Or.inr (Or.inl (hnew ▸ creditedUpTo_drop))

/-- When the edge of the active point goes on below it, the string is spelled down to there and
goes on with the next character of the edge. -/
theorem Progress.inside (h : Progress incoming before pos count state spell)
    (hend : state.active.edge + state.active.length = pos) (hpos : pos ≤ incoming.chars.size)
    (he : state.activeEdge? incoming = some id)
    (hlt : state.active.length < (state.tree.edge id).length) :
    spell state.active.node ++ (state.tree.label (state.tree.edge id)).take state.active.length =
        factor incoming.chars.toList count pos ∧
      state.tree.Spelled spell (factor incoming.chars.toList count pos ++
        [state.tree.keyBelow id state.active.length]) := by
  have hfiled := filed_of_activeEdge? he
  have hfit := h.grown.stores.labelled.fits hfiled
  have hpos' : pos ≤ incoming.chars.toList.length := by simpa using hpos
  have hway : (factor incoming.chars.toList state.active.edge pos).length =
      state.active.length := by
    rw [length_factor hpos']
    omega
  have hfront : factor incoming.chars.toList state.active.edge pos <+:
      state.tree.label (state.tree.edge id) := by
    rcases h.reads.label_agrees h.grown.stores.labelled h.spelled hend hpos' hfiled with hto | hto
    · have := hto.length_le
      rw [hfit.length_label, hway] at this
      omega
    · exact hto
  have hupper : spell state.active.node ++
      (state.tree.label (state.tree.edge id)).take state.active.length =
      factor incoming.chars.toList count pos := by
    rw [← h.reads.spells, ActivePoint.Reads.way hend, List.prefix_iff_eq_take.mp hfront, hway]
  refine ⟨hupper, ?_⟩
  have hspelled := h.grown.stores.labelled.spelled_edge hfiled
    (List.take_prefix (state.active.length + 1) _)
  rwa [List.take_add_one, hfit.getElem?_label hlt, ← List.append_assoc, hupper] at hspelled

/-- A suffix that leaves an edge leaves it below its first character: at a node the edge goes on
with the character of the round. -/
theorem Progress.length_pos (h : Progress incoming before pos count state spell)
    (hend : state.active.edge + state.active.length = pos)
    (he : state.activeEdge? incoming = some id)
    (hne : state.tree.keyBelow id state.active.length ≠ incoming.charAt pos) :
    0 < state.active.length := by
  by_contra hzero
  have hedge : state.active.edge = pos := by omega
  refine hne ?_
  have hfirst := (h.grown.stores.labelled.fits (filed_of_activeEdge? he)).first
  rw [Incoming.getD_toList, hedge] at hfirst
  rwa [keyBelow, Nat.eq_zero_of_not_pos hzero, Nat.add_zero]

/-- A node is cut out of an edge and gets a leaf, so that one more suffix ends. -/
theorem Progress.cut_addLeaf (h : Progress incoming before pos count state spell)
    (hend : state.active.edge + state.active.length = pos)
    (hcount : count ≤ pos) (hpos : pos < incoming.chars.size)
    (he : state.activeEdge? incoming = some id)
    (hlt : state.active.length < (state.tree.edge id).length)
    (hne : state.tree.keyBelow id state.active.length ≠ incoming.charAt pos) :
    ∃ spell', Grows state.tree spell ((state.tree.splitEdge id state.active.length).addLeaf
        incoming state.tree.nodeCount pos) spell' ∧
      spell' state.tree.nodeCount = factor incoming.chars.toList count pos ∧
      spell' (state.tree.nodeCount + 1) = incoming.chars.toList.drop count ∧
      Grown incoming before (count + 1) ((state.tree.splitEdge id state.active.length).addLeaf
        incoming state.tree.nodeCount pos) spell' fun v =>
          ((state.pendingEnd = some v ∨ state.pendingBranch = some v) ∨
            v = state.tree.nodeCount) ∨ v = state.tree.nodeCount + 1 := by
  have hdepth := h.length_pos hend he hne
  obtain ⟨spell₁, hgrows₁, hmiddle, hgrown₁⟩ :=
    h.grown.splitEdge (filed_of_activeEdge? he) hdepth hlt
  rw [(h.inside hend hpos.le he hlt).1] at hmiddle
  set middle := state.tree.nodeCount with hm
  set cut := state.tree.splitEdge id state.active.length with hcut
  have hcutCount : cut.nodeCount = middle + 1 := nodeCount_splitEdge
  -- The middle has one edge so far, and that starts with another character.
  have hfree : ∀ e, ¬ cut.Filed middle (incoming.charAt pos) e := by
    intro e he
    rcases filed_splitEdge.mp he with he | ⟨-, hchar, -⟩
    · exact Nat.lt_irrefl _ he.lt
    · exact hne hchar.symm
  obtain ⟨spell₂, hgrows₂, hleaf, hgrown₂⟩ :=
    hgrown₁.addLeaf (by omega) hfree hpos hcount hmiddle
  rw [hcutCount] at hleaf hgrown₂
  exact ⟨spell₂, hgrows₁.trans hgrows₂, (hgrows₂.spell_eq middle (by omega)).trans hmiddle,
    hleaf, hgrown₂⟩

/-- A suffix that leaves an edge ends at a leaf below a node that is cut out of the edge. -/
theorem Progress.branchInEdge (h : Progress incoming before pos count state spell)
    (hbefore : TailClosed before) (hend : state.active.edge + state.active.length = pos)
    (hcount : count ≤ pos) (hpos : pos < incoming.chars.size)
    (he : state.activeEdge? incoming = some id)
    (hlt : state.active.length < (state.tree.edge id).length)
    (hne : state.tree.keyBelow id state.active.length ≠ incoming.charAt pos) :
    ∃ spell', Progress incoming before pos (count + 1)
      (state.branchInEdge incoming id pos) spell' := by
  obtain ⟨hupper, hkey⟩ := h.inside hend hpos.le he hlt
  have hdepth := h.length_pos hend he hne
  have hnil : factor incoming.chars.toList count pos ≠ [] := by
    rw [← hupper]
    intro hnil
    have hlength := congrArg List.length hnil
    rw [List.length_append, List.length_take,
      (h.grown.stores.labelled.fits (filed_of_activeEdge? he)).length_label,
      List.length_nil] at hlength
    omega
  obtain ⟨spell₂, hgrows, hmiddle₂, hleaf, hgrown₂⟩ :=
    h.cut_addLeaf hend hcount hpos he hlt hne
  set middle := state.tree.nodeCount with hm
  set cut := state.tree.splitEdge id state.active.length with hcut
  have hcutCount : cut.nodeCount = middle + 1 := nodeCount_splitEdge
  rw [← hcutCount] at hleaf hgrown₂
  have hsize : (cut.addLeaf incoming middle pos).nodeCount = middle + 2 := by
    rw [nodeCount_addLeaf, hcutCount]
  have hmiddleLt : middle < (cut.addLeaf incoming middle pos).nodeCount := by omega
  have hleafLt : cut.nodeCount < (cut.addLeaf incoming middle pos).nodeCount := by omega
  have hround : (cut.addLeaf incoming middle pos).Spelled spell₂
      (factor incoming.chars.toList count pos ++ [incoming.charAt pos]) := by
    refine ⟨cut.nodeCount, hleafLt, ?_⟩
    rw [hleaf, ← Incoming.getD_toList, ← factor_concat hcount (by simpa using hpos)]
    exact factor_prefix _ _ _
  have hcanonical : Canonical (cut.addLeaf incoming middle pos) spell₂
      (creditedUpTo before incoming.chars.toList incoming.payload (count + 1)) := by
    intro v hv
    rcases Nat.lt_trichotomy v middle with hv | rfl | hv
    · exact hgrows.needed hv creditedUpTo_mono (h.canonical v hv)
    · -- The middle branches: the cut edge goes on in one way and the leaf in another one.
      refine Or.inr (Or.inr ⟨_, _, hne, ?_, ?_⟩)
      · exact hmiddle₂ ▸ hgrows.spelled hkey
      · exact hmiddle₂ ▸ hround
    · obtain rfl : v = cut.nodeCount := by omega
      exact Or.inr (Or.inl (hleaf ▸ creditedUpTo_drop))
  -- Every suffix of a text ends too, so the tail of the middle goes on in that way as well.
  have hwaiting : Waiting incoming pos (count + 1) (cut.addLeaf incoming middle pos) spell₂
      middle := by
    refine ⟨hmiddleLt, ⟨count, rfl, hmiddle₂⟩, _, hne, ?_⟩
    have hspelled := h.grown.stores.spelled_tail hbefore hgrown₂.stores hkey
    rwa [List.tail_append_of_ne_nil hnil, tail_factor] at hspelled
  have hwaits : ∀ v, ((state.pendingEnd = some v ∨ state.pendingBranch = some v) ∨ v = middle) ∨
      v = cut.nodeCount →
      (state.pendingEnd = some v ∨ state.pendingBranch = some v) ∨
        v = cut.nodeCount ∨ some middle = some v := by
    rintro v ((hv | rfl) | hv)
    · exact Or.inl hv
    · exact Or.inr (Or.inr rfl)
    · exact Or.inr (Or.inl hv)
  have hnew : ∀ v, v = cut.nodeCount ∨ some middle = some v → middle ≤ v := by
    rintro v (rfl | hv)
    · omega
    · exact (Option.some.inj hv).le
  exact ⟨spell₂, h.branch (some middle) hbefore hcount hpos hgrows hgrown₂ hwaits hmiddleLt
    hmiddle₂ hleafLt hleaf hnew hcanonical fun v hv => Option.some.inj hv ▸ hwaiting⟩

/-! ### Ends of rounds -/

/-- Where the string goes on with the character of the round, a node that waits for a link can only
wait for the active node. -/
theorem Progress.spell_eq_of_waiting {v : Nat}
    (h : Progress incoming before pos count state spell)
    (hend : state.active.edge + state.active.length = pos) (hpos : pos ≤ incoming.chars.size)
    (he : state.activeEdge? incoming = some id)
    (hlt : state.active.length < (state.tree.edge id).length)
    (hkey : state.tree.keyBelow id state.active.length = incoming.charAt pos)
    (hv : state.pendingBranch = some v) :
    spell state.active.node = factor incoming.chars.toList count pos := by
  have hlabelled := h.grown.stores.labelled
  have hfiled := filed_of_activeEdge? he
  obtain ⟨hupper, hround⟩ := h.inside hend hpos he hlt
  obtain ⟨-, -, d, hd, hother⟩ := h.lastBranch v hv
  rw [hkey] at hround
  -- The string goes on in two ways, so it has a node, and the edge has none inside.
  obtain ⟨u, hu, hspell⟩ := hlabelled.exists_node_of_branching hother hround hd
  by_contra hne
  have hchild : spell u <+: spell (state.tree.edge id).child := by
    rw [hspell, ← hupper, (hlabelled.fits hfiled).spell_child, List.prefix_append_right_inj]
    exact List.take_prefix _ _
  obtain rfl := hlabelled.not_inside hfiled hu (hspell ▸ hupper ▸ List.prefix_append _ _)
    (fun heq => hne (heq.symm.trans hspell)) hchild
  have hlength := congrArg List.length (hspell.trans hupper.symm)
  rw [(hlabelled.fits hfiled).spell_child, List.length_append, List.length_append,
    List.length_take, (hlabelled.fits hfiled).length_label] at hlength
  omega

/-- The round ends where the rest of it is spelled already. -/
theorem Progress.stayImplicit (h : Progress incoming before pos count state spell)
    (hend : state.active.edge + state.active.length = pos) (hcount : count ≤ pos)
    (hpos : pos < incoming.chars.size) (he : state.activeEdge? incoming = some id)
    (hlt : state.active.length < (state.tree.edge id).length)
    (hkey : state.tree.keyBelow id state.active.length = incoming.charAt pos) :
    Resting incoming before (pos + 1) count state.stayImplicit spell := by
  have hpos' : pos < incoming.chars.toList.length := by simpa using hpos
  have hnode := h.reads.node_lt
  have hfactor : factor incoming.chars.toList count (pos + 1) =
      factor incoming.chars.toList count pos ++ [incoming.charAt pos] := by
    rw [factor_concat hcount hpos', Incoming.getD_toList]
  have hspelled : state.tree.Spelled spell (factor incoming.chars.toList count (pos + 1)) := by
    rw [hfactor, ← hkey]
    exact (h.inside hend hpos.le he hlt).2
  have hreads : ActivePoint.Reads
      { state.active with length := state.active.length + 1 } state.tree spell
      incoming.chars.toList (pos + 1) (factor incoming.chars.toList count (pos + 1)) := by
    refine ⟨hnode, ?_, fun _ => by dsimp only; omega⟩
    dsimp only
    rw [List.take_add_one, ← List.append_assoc, h.reads.spells, hfactor, List.getElem?_drop, hend]
    simp [Incoming.charAt, hpos]
  have hwaits (v : Nat) (hv : state.pendingBranch = some v) :
      spell state.active.node = factor incoming.chars.toList count pos :=
    h.spell_eq_of_waiting hend hpos.le he hlt hkey hv
  unfold Insertion.stayImplicit
  by_cases hroot : state.active.node = root
  · -- Below the root the waiting node spells one character and needs no link.
    rw [if_pos hroot]
    refine ⟨h.grown.mono fun v _ htail hv => hv.resolve_right fun hbranch => htail ?_,
      h.canonical, h.remaining, hreads, hspelled, h.lastEnd⟩
    rw [(h.lastBranch v hbranch).tail_eq, ← hwaits v hbranch, hroot,
      h.grown.stores.labelled.spell_root]
  · rw [if_neg hroot]
    have hgrows : Grows state.tree spell (linkTo state.pendingBranch state.active.node state.tree)
        spell := Grows.linkTo ⟨Nat.le_refl _, fun _ _ => rfl⟩ _ _
    have hlinked := h.grown.linkTo hnode fun v hv =>
      (h.lastBranch v hv).drops hcount hpos.le (hwaits v hv)
    refine ⟨hlinked.mono fun v _ _ hv => hv.1.resolve_right hv.2, fun v hv => ?_, h.remaining,
      hreads.grow hgrows, hgrows.spelled hspelled, fun v hv => (h.lastEnd v hv).grow hgrows⟩
    have hv' : v < state.tree.nodeCount := Nat.lt_of_lt_of_eq hv nodeCount_linkTo
    exact hgrows.needed hv' (fun _ hx => hx) (h.canonical v hv')

/-- The round ends where every suffix ends at a node. -/
theorem Progress.rest (h : Progress incoming before pos (pos + 1) state spell)
    (hpos : pos < incoming.chars.size) :
    Resting incoming before (pos + 1) (pos + 1) state spell := by
  have hnil : factor incoming.chars.toList (pos + 1) pos = [] := factor_eq_nil (Nat.le_succ pos)
  have hnil' : factor incoming.chars.toList (pos + 1) (pos + 1) = [] :=
    factor_eq_nil (Nat.le_refl _)
  have hreads := h.reads
  rw [hnil] at hreads
  refine ⟨h.grown.mono fun v _ htail hv => hv.resolve_right fun hbranch => htail ?_, h.canonical,
    h.remaining, hnil' ▸ ⟨hreads.node_lt, hreads.spells, fun hlength => ?_⟩, ?_, h.lastEnd⟩
  · rw [(h.lastBranch v hbranch).tail_eq, hnil]
  · have hend := hreads.ends_at hlength
    have hway := congrArg List.length (List.append_eq_nil_iff.mp hreads.spells).2
    rw [List.length_take, List.length_drop, List.length_nil] at hway
    simp at hway
    omega
  · rw [hnil', ← hnil]
    exact h.spelled

/-- An edge that does not end above the active point goes on below it. -/
theorem Progress.length_lt (h : Progress incoming before pos count state spell)
    (he : state.activeEdge? incoming = some id)
    (hshort : ¬ (0 < (state.tree.edge id).length ∧
      (state.tree.edge id).length ≤ state.active.length)) :
    state.active.length < (state.tree.edge id).length := by
  have hlength := (h.grown.stores.labelled.fits (filed_of_activeEdge? he)).length_pos
  omega

/-- A round keeps the invariant. -/
theorem Progress.extend (hbefore : TailClosed before) (hpos : pos < incoming.chars.size)
    (h : Progress incoming before pos count state spell) :
    ∃ count' spell', Resting incoming before (pos + 1) count'
      (Insertion.extend incoming pos state) spell' := by
  have hcount_le {state : Insertion P} {count : Nat} {spell : Nat → List Char}
      (h : Progress incoming before pos count state spell) (hr : state.active.remaining ≠ 0) :
      count ≤ pos := by
    have := h.remaining
    omega
  -- The induction is on the moves of the round: it credits a suffix, descends, or ends.
  fun_induction Insertion.extend incoming pos state generalizing count spell with
  | case1 state hr =>
    obtain rfl : count = pos + 1 := by
      have := h.remaining
      omega
    exact ⟨_, _, h.rest hpos⟩
  | case2 state hr anchored hnone =>
    rename_i ih
    obtain ⟨hanchored, hend⟩ := h.anchor
    obtain ⟨spell', h'⟩ := hanchored.branchAtNode hbefore hend (hcount_le h hr) hpos hnone
    exact ih h'
  | case3 state hr anchored id he edge =>
    rename_i hwhole ih
    obtain ⟨hanchored, hend⟩ := h.anchor
    exact ih (hanchored.descend hend hpos.le he hwhole.2)
  | case4 state hr anchored id he edge =>
    rename_i hshort hkey
    obtain ⟨hanchored, hend⟩ := h.anchor
    exact ⟨_, _, hanchored.stayImplicit hend (hcount_le h hr) hpos he
      (hanchored.length_lt he hshort) hkey⟩
  | case5 state hr anchored id he edge hshort =>
    rename_i hne ih
    obtain ⟨hanchored, hend⟩ := h.anchor
    obtain ⟨spell', h'⟩ := hanchored.branchInEdge hbefore hend (hcount_le h hr) hpos he
      (hanchored.length_lt he hshort) hne
    exact ih h'

end Insertion

end SentenceSearch
