import SentenceSearch.Proofs.SuffixTree.Growth

/-!
# Insertion pass by pass

The rounds of an insertion are loops. One pass of such a loop is taken here by itself, and whatever
could go wrong in it is checked where it happens: a position may be outside of a text, a number may
stand for no node, an edge may be cut at its end, a suffix link may be changed or be missing. A pass
whose checks succeed does what the rounds do.

## Main definitions

* `Fault` — what could go wrong
* `Insertion.pass` — one pass of the loop of a round
* `Insertion.Visits` — the states in which some pass begins
* `SuffixTree.KeepsLinks` — every link that is set stays as it is

## Main results

* `Insertion.branchAtNode?_eq_ok`, `Insertion.branchInEdge?_eq_ok`, `Insertion.stayImplicit?_eq_ok`,
  `Insertion.endAt?_eq_ok` — when the moves of a round succeed
-/

namespace SentenceSearch

/-- What could go wrong in a pass. -/
inductive Fault where
  /-- A position is outside of a text. -/
  | outsideText
  /-- A number stands for no node or for no edge. -/
  | outsideTree
  /-- The end of the text is not spelled by the tree. -/
  | notSpelled
  /-- An edge is cut at one of its ends. -/
  | notInside
  /-- A suffix is said to end at the root. -/
  | endsAtRoot
  /-- A suffix link is changed. -/
  | relinked
  /-- The root is taken for a suffix link that should be there. -/
  | unlinked
  /-- A number would become negative. -/
  | underflow
  deriving DecidableEq, Repr

/-- Go on if the condition holds. -/
def Fault.guard (fault : Fault) (condition : Prop) [Decidable condition] : Except Fault Unit :=
  if condition then .ok () else .error fault

theorem Fault.guard_bind {α : Type} {fault : Fault} {condition : Prop} [Decidable condition]
    {next : Unit → Except Fault α} (h : condition) :
    (fault.guard condition >>= next) = next () := by
  rw [guard, if_pos h]
  rfl

/-- What has succeeded is gone on with. -/
theorem Fault.ok_bind {α β : Type} {a : α} {next : α → Except Fault β} :
    (Except.ok a >>= next) = next a := rfl

variable {P : Type}

/-- The character of the text at a position. -/
def Incoming.charAt? (incoming : Incoming P) (i : Nat) : Except Fault Char := do
  Fault.outsideText.guard (i < incoming.chars.size)
  pure (incoming.charAt i)

theorem Incoming.charAt?_eq_ok {incoming : Incoming P} {i : Nat} (h : i < incoming.chars.size) :
    incoming.charAt? i = .ok (incoming.charAt i) :=
  Fault.guard_bind h

namespace SuffixTree

/-! ### Access to a tree -/

/-- A node by position. -/
def node? (tree : SuffixTree P) (id : Nat) : Except Fault (TreeNode P) := do
  Fault.outsideTree.guard (id < tree.nodeCount)
  pure (tree.node id)

/-- An edge by position. Its length is a difference, which must not be negative. -/
def edge? (tree : SuffixTree P) (id : Nat) : Except Fault TreeEdge := do
  Fault.outsideTree.guard (id < tree.edgeCount)
  let edge := tree.edge id
  Fault.underflow.guard (edge.start ≤ edge.stop)
  pure edge

/-- The character at a position of a text. A text that is not there has no characters. -/
def charAt? (tree : SuffixTree P) (text i : Nat) : Except Fault Char := do
  Fault.outsideText.guard (i < (tree.text text).size)
  pure (tree.charAt text i)

/-- Set the suffix link of a node that has none or has this one already. -/
def setLink? (tree : SuffixTree P) (source target : Nat) : Except Fault (SuffixTree P) := do
  let node ← tree.node? source
  Fault.relinked.guard (node.link = none ∨ node.link = some target)
  pure (tree.setLink source target)

/-- Add a leaf below a node. -/
def addLeaf? (tree : SuffixTree P) (incoming : Incoming P) (parent start : Nat) :
    Except Fault (SuffixTree P) := do
  let _ ← tree.charAt? incoming.text start
  let _ ← tree.node? parent
  pure (tree.addLeaf incoming parent start)

/-- Cut an edge somewhere between its ends. -/
def splitEdge? (tree : SuffixTree P) (id depth : Nat) : Except Fault (SuffixTree P) := do
  let edge ← tree.edge? id
  Fault.notInside.guard (0 < depth ∧ depth < edge.length)
  let _ ← tree.charAt? edge.text (edge.start + depth)
  pure (tree.splitEdge id depth)

/-- Attach a payload to a node that is not the root. -/
def attach? [DecidableEq P] (tree : SuffixTree P) (id : Nat) (payload : P) :
    Except Fault (SuffixTree P) := do
  Fault.endsAtRoot.guard (id ≠ root)
  let _ ← tree.node? id
  pure (tree.attach id payload)

variable {tree tree' tree'' : SuffixTree P} {incoming : Incoming P} {id i depth source target : Nat}

theorem node?_eq_ok (h : id < tree.nodeCount) : tree.node? id = .ok (tree.node id) :=
  Fault.guard_bind h

theorem edge?_eq_ok (h : id < tree.edgeCount)
    (hlabel : (tree.edge id).start ≤ (tree.edge id).stop) :
    tree.edge? id = .ok (tree.edge id) := by
  rw [edge?, Fault.guard_bind h]
  exact Fault.guard_bind hlabel

theorem charAt?_eq_ok {text : Nat} (h : i < (tree.text text).size) :
    tree.charAt? text i = .ok (tree.charAt text i) :=
  Fault.guard_bind h

theorem addLeaf?_eq_ok {parent start : Nat} (hstart : start < (tree.text incoming.text).size)
    (hparent : parent < tree.nodeCount) :
    tree.addLeaf? incoming parent start = .ok (tree.addLeaf incoming parent start) := by
  rw [addLeaf?, charAt?_eq_ok hstart, node?_eq_ok hparent]
  rfl

theorem splitEdge?_eq_ok (hedge : tree.edge? id = .ok (tree.edge id)) (hdepth : 0 < depth)
    (hlt : depth < (tree.edge id).length)
    (htext : (tree.edge id).start + depth < (tree.text (tree.edge id).text).size) :
    tree.splitEdge? id depth = .ok (tree.splitEdge id depth) := by
  rw [splitEdge?, hedge, Fault.ok_bind, Fault.guard_bind ⟨hdepth, hlt⟩,
    charAt?_eq_ok htext]
  rfl

theorem attach?_eq_ok [DecidableEq P] {payload : P} (hroot : id ≠ root)
    (hid : id < tree.nodeCount) : tree.attach? id payload = .ok (tree.attach id payload) := by
  rw [attach?, Fault.guard_bind hroot, node?_eq_ok hid]
  rfl

/-! ### Links -/

/-- Every suffix link that is set stays as it is. -/
def KeepsLinks (tree tree' : SuffixTree P) : Prop :=
  ∀ v u, tree.link v = some u → tree'.link v = some u

theorem KeepsLinks.refl (tree : SuffixTree P) : KeepsLinks tree tree := fun _ _ => id

theorem KeepsLinks.trans (h : KeepsLinks tree tree') (h' : KeepsLinks tree' tree'') :
    KeepsLinks tree tree'' := fun v u hlink => h' v u (h v u hlink)

theorem keepsLinks_addLeaf {parent start : Nat} (hparent : parent < tree.nodeCount) :
    KeepsLinks tree (tree.addLeaf incoming parent start) :=
  fun _ _ hlink => (link_addLeaf hparent).trans hlink

theorem keepsLinks_splitEdge : KeepsLinks tree (tree.splitEdge id depth) :=
  fun _ _ hlink => link_splitEdge.trans hlink

theorem keepsLinks_attach [DecidableEq P] {payload : P} :
    KeepsLinks tree (tree.attach id payload) :=
  fun _ _ hlink => link_attach.trans hlink

/-- The node that waits for a link may be linked to the target. -/
def Linkable (tree : SuffixTree P) (waiting : Option Nat) (target : Nat) : Prop :=
  ∀ v, waiting = some v →
    v < tree.nodeCount ∧ (tree.link v = none ∨ tree.link v = some target)

theorem Linkable.setLink?_eq_ok (h : Linkable tree (some source) target) :
    tree.setLink? source target = .ok (tree.setLink source target) := by
  obtain ⟨hsource, hlink⟩ := h source rfl
  rw [setLink?, node?_eq_ok hsource, Fault.ok_bind]
  exact Fault.guard_bind hlink

theorem Linkable.keepsLinks {waiting : Option Nat} (h : Linkable tree waiting target) :
    KeepsLinks tree (Insertion.linkTo waiting target tree) := by
  cases waiting with
  | none => exact .refl tree
  | some source =>
    obtain ⟨hsource, hold⟩ := h source rfl
    intro v u hlink
    change (tree.setLink source target).link v = some u
    rw [link_setLink hsource]
    split
    · rename_i heq
      subst heq
      rcases hold with hnone | hsome
      · cases hnone.symm.trans hlink
      · exact hsome.symm.trans hlink
    · exact hlink

end SuffixTree

namespace Insertion

open SuffixTree

/-! ### Moves -/

/-- Set the link of the node that waits for one, if there is such a node. -/
def linkTo? (waiting : Option Nat) (target : Nat) (tree : SuffixTree P) :
    Except Fault (SuffixTree P) :=
  match waiting with
  | some source => tree.setLink? source target
  | none => pure tree

/-- The node that waits for a link in this round gets `target`. -/
def resolveBranch? (state : Insertion P) (target : Nat) : Except Fault (Insertion P) := do
  let tree ← linkTo? state.pendingBranch target state.tree
  pure { state with tree, pendingBranch := none }

/-- The node that waits for a link gets one that waits for a link itself. -/
def awaitBranch? (state : Insertion P) (id : Nat) : Except Fault (Insertion P) := do
  let tree ← linkTo? state.pendingBranch id state.tree
  pure { state with tree, pendingBranch := some id }

/-- The next shorter suffix ends at the node `id`. -/
def chainEnd? (state : Insertion P) (id : Nat) : Except Fault (Insertion P) := do
  let tree ← linkTo? state.pendingEnd id state.tree
  pure { state with tree, pendingEnd := some id }

/-- Go on to the next shorter suffix. Below the root the suffix link must not be missing, unless
the node is one character deep. -/
def finishSuffix? (state : Insertion P) (pos : Nat) : Except Fault (Insertion P) := do
  let active := state.active
  Fault.underflow.guard (0 < active.remaining)
  if active.node = root then
    Fault.underflow.guard (0 < active.length → active.remaining - 1 ≤ pos + 1)
  else
    let node ← state.tree.node? active.node
    Fault.unlinked.guard (node.link = none → (active.node, 1) ∈ state.tree.depths)
  pure (state.finishSuffix pos)

/-- Make the suffix explicit that starts a new edge at the active node. -/
def branchAtNode? (state : Insertion P) (incoming : Incoming P) (pos : Nat) :
    Except Fault (Insertion P) := do
  let leaf := state.tree.nodeCount
  let tree ← state.tree.addLeaf? incoming state.active.node pos
  let resolved ← { state with tree }.resolveBranch? state.active.node
  let chained ← resolved.chainEnd? leaf
  chained.finishSuffix? pos

/-- Make the suffix explicit that leaves the edge `id` at the active point. -/
def branchInEdge? (state : Insertion P) (incoming : Incoming P) (id pos : Nat) :
    Except Fault (Insertion P) := do
  let middle := state.tree.nodeCount
  let cut ← state.tree.splitEdge? id state.active.length
  let leaf := cut.nodeCount
  let tree ← cut.addLeaf? incoming middle pos
  let awaiting ← { state with tree }.awaitBranch? middle
  let chained ← awaiting.chainEnd? leaf
  chained.finishSuffix? pos

/-- The suffix goes on along an edge that is there already. -/
def stayImplicit? (state : Insertion P) : Except Fault (Insertion P) := do
  let state ←
    if state.active.node = root then pure state else state.resolveBranch? state.active.node
  pure { state with active := { state.active with length := state.active.length + 1 } }

/-- The suffix that ends at the active point ends at the node `id`. -/
def endAt? [DecidableEq P] (state : Insertion P) (incoming : Incoming P) (id : Nat) :
    Except Fault (Insertion P) := do
  let tree ← state.tree.attach? id incoming.payload
  let chained ← { state with tree }.chainEnd? id
  chained.finishSuffix? incoming.chars.size

variable {state : Insertion P} {incoming : Incoming P} {tree : SuffixTree P}
  {waiting : Option Nat} {pos id target : Nat}

theorem linkTo?_eq_ok (h : Linkable tree waiting target) :
    linkTo? waiting target tree = .ok (linkTo waiting target tree) := by
  cases waiting with
  | none => rfl
  | some source => exact h.setLink?_eq_ok

theorem resolveBranch?_eq_ok (h : Linkable state.tree state.pendingBranch target) :
    state.resolveBranch? target = .ok (state.resolveBranch target) := by
  rw [resolveBranch?, linkTo?_eq_ok h]
  rfl

theorem awaitBranch?_eq_ok (h : Linkable state.tree state.pendingBranch id) :
    state.awaitBranch? id = .ok (state.awaitBranch id) := by
  rw [awaitBranch?, linkTo?_eq_ok h]
  rfl

theorem chainEnd?_eq_ok (h : Linkable state.tree state.pendingEnd id) :
    state.chainEnd? id = .ok (state.chainEnd id) := by
  rw [chainEnd?, linkTo?_eq_ok h]
  rfl

/-- What going on to the next shorter suffix needs. -/
structure Finishable (tree : SuffixTree P) (active : ActivePoint) (pos : Nat) : Prop where
  remaining_pos : 0 < active.remaining
  remaining_le : active.remaining ≤ pos + 1
  node_lt : active.node < tree.nodeCount
  linked : active.node ≠ root → tree.link active.node = none → (active.node, 1) ∈ tree.depths

theorem finishSuffix?_eq_ok (h : Finishable state.tree state.active pos) :
    state.finishSuffix? pos = .ok (state.finishSuffix pos) := by
  unfold finishSuffix?
  dsimp only
  rw [Fault.guard_bind h.remaining_pos]
  by_cases hroot : state.active.node = root
  · rw [if_pos hroot]
    exact Fault.guard_bind fun _ => (Nat.sub_le _ _).trans h.remaining_le
  · rw [if_neg hroot, node?_eq_ok h.node_lt, Fault.ok_bind]
    exact Fault.guard_bind (h.linked hroot)

/-- What setting the links of both nodes that wait needs, when the suffix parts at `target` and
ends at `leaf`. -/
structure Joinable (state : Insertion P) (tree : SuffixTree P) (target leaf pos : Nat) :
    Prop where
  branch : Linkable tree state.pendingBranch target
  last : Linkable (linkTo state.pendingBranch target tree) state.pendingEnd leaf
  finish : Finishable (linkTo state.pendingEnd leaf (linkTo state.pendingBranch target tree))
    state.active pos

theorem Joinable.keepsLinks {leaf : Nat} (h : Joinable state tree target leaf pos) :
    KeepsLinks tree (linkTo state.pendingEnd leaf (linkTo state.pendingBranch target tree)) :=
  h.branch.keepsLinks.trans h.last.keepsLinks

theorem branchAtNode?_eq_ok (hstart : pos < (state.tree.text incoming.text).size)
    (hnode : state.active.node < state.tree.nodeCount)
    (hjoin : Joinable state (state.tree.addLeaf incoming state.active.node pos) state.active.node
      state.tree.nodeCount pos) :
    state.branchAtNode? incoming pos = .ok (state.branchAtNode incoming pos) := by
  rw [branchAtNode?, addLeaf?_eq_ok hstart hnode, Fault.ok_bind,
    resolveBranch?_eq_ok hjoin.branch, Fault.ok_bind, chainEnd?_eq_ok hjoin.last, Fault.ok_bind]
  exact finishSuffix?_eq_ok hjoin.finish

theorem branchInEdge?_eq_ok {cut : SuffixTree P}
    (hsplit : cut = state.tree.splitEdge id state.active.length)
    (hcut : state.tree.splitEdge? id state.active.length = .ok cut)
    (hstart : pos < (state.tree.text incoming.text).size)
    (hjoin : Joinable state (cut.addLeaf incoming state.tree.nodeCount pos) state.tree.nodeCount
      cut.nodeCount pos) :
    state.branchInEdge? incoming id pos = .ok (state.branchInEdge incoming id pos) := by
  subst hsplit
  have hleaf : (state.tree.splitEdge id state.active.length).addLeaf? incoming
      state.tree.nodeCount pos = .ok _ :=
    addLeaf?_eq_ok hstart (nodeCount_splitEdge ▸ Nat.lt_succ_self _)
  rw [branchInEdge?, hcut, Fault.ok_bind, hleaf, Fault.ok_bind,
    awaitBranch?_eq_ok hjoin.branch, Fault.ok_bind, chainEnd?_eq_ok hjoin.last, Fault.ok_bind]
  exact finishSuffix?_eq_ok hjoin.finish

theorem stayImplicit?_eq_ok (h : state.active.node ≠ root →
    Linkable state.tree state.pendingBranch state.active.node) :
    state.stayImplicit? = .ok state.stayImplicit := by
  unfold stayImplicit? stayImplicit
  by_cases hroot : state.active.node = root
  · rw [if_pos hroot, if_pos hroot]
    rfl
  · rw [if_neg hroot, if_neg hroot, resolveBranch?_eq_ok (h hroot)]
    rfl

theorem endAt?_eq_ok [DecidableEq P] (hroot : id ≠ root) (hid : id < state.tree.nodeCount)
    (hlast : Linkable (state.tree.attach id incoming.payload) state.pendingEnd id)
    (hfinish : Finishable (linkTo state.pendingEnd id (state.tree.attach id incoming.payload))
      state.active incoming.chars.size) :
    state.endAt? incoming id = .ok (state.endAt incoming id) := by
  rw [endAt?, attach?_eq_ok hroot hid, Fault.ok_bind, chainEnd?_eq_ok hlast, Fault.ok_bind]
  exact finishSuffix?_eq_ok hfinish

/-! ### Passes -/

/-- Look up the edge on the way down from the active node. -/
def wayDown (state : Insertion P) (incoming : Incoming P) : Except Fault (Option Nat) := do
  let key ← incoming.charAt? state.active.edge
  let node ← state.tree.node? state.active.node
  pure node.edges[key]?

theorem wayDown_eq_ok (hedge : state.active.edge < incoming.chars.size)
    (hnode : state.active.node < state.tree.nodeCount) :
    state.wayDown incoming = .ok (state.activeEdge? incoming) := by
  rw [wayDown, Incoming.charAt?_eq_ok hedge, Fault.ok_bind, node?_eq_ok hnode]
  rfl

/-- One pass of the loop for the character at `pos`: either there is another one after it, or the
round is over. -/
def extendPass (incoming : Incoming P) (pos : Nat) (state : Insertion P) :
    Except Fault (ForInStep (Insertion P)) :=
  if state.active.remaining = 0 then
    pure (.done state)
  else do
    let c ← incoming.charAt? pos
    let anchored := state.anchor pos
    match ← anchored.wayDown incoming with
    | none => .yield <$> anchored.branchAtNode? incoming pos
    | some id =>
      let edge ← anchored.tree.edge? id
      if edge.length ≤ anchored.active.length then
        pure (.yield (anchored.descend edge))
      else
        let d ← anchored.tree.charAt? edge.text (edge.start + anchored.active.length)
        if d = c then
          .done <$> anchored.stayImplicit?
        else
          .yield <$> anchored.branchInEdge? incoming id pos

/-- One pass of the loop at the end of the text. -/
def terminatePass [DecidableEq P] (incoming : Incoming P) (state : Insertion P) :
    Except Fault (ForInStep (Insertion P)) :=
  if state.active.remaining ≤ 1 then
    pure (.done state)
  else if state.active.length = 0 then
    .yield <$> state.endAt? incoming state.active.node
  else do
    match ← state.wayDown incoming with
    | none => throw .notSpelled
    | some id =>
      let edge ← state.tree.edge? id
      if edge.length ≤ state.active.length then
        pure (.yield (state.descend edge))
      else
        let middle := state.tree.nodeCount
        let tree ← state.tree.splitEdge? id state.active.length
        .yield <$> { state with tree }.endAt? incoming middle

/-- One pass of a round. The round after the last character is the one at the end of the text. -/
def pass [DecidableEq P] (incoming : Incoming P) (pos : Nat) (state : Insertion P) :
    Except Fault (ForInStep (Insertion P)) :=
  if pos < incoming.chars.size then extendPass incoming pos state
  else terminatePass incoming state

/-- A whole round. -/
def round [DecidableEq P] (incoming : Incoming P) (pos : Nat) (state : Insertion P) :
    Insertion P :=
  if pos < incoming.chars.size then extend incoming pos state else terminate incoming state

/-- The states in which the passes of the rounds begin. -/
inductive Visits [DecidableEq P] (incoming : Incoming P) (start : Insertion P) :
    Nat → Insertion P → Prop where
  | first : Visits incoming start 0 start.beginRound
  | again {pos : Nat} {state next : Insertion P} : Visits incoming start pos state →
      pass incoming pos state = .ok (.yield next) → Visits incoming start pos next
  | round {pos : Nat} {state rested : Insertion P} : Visits incoming start pos state →
      pos < incoming.chars.size → pass incoming pos state = .ok (.done rested) →
      Visits incoming start (pos + 1) rested.beginRound

/-- What an insertion begins with: the text is on the list, and the active point is at the root. -/
def opening (tree : SuffixTree P) (sentence : Sentence) : Insertion P :=
  ⟨{ tree with texts := tree.texts.push sentence, annotated := false }, .initial, none, none⟩

end Insertion

/-- The text of an insertion, which comes after those of the tree. -/
def Incoming.of (tree : SuffixTree P) (sentence : Sentence) (payload : P) : Incoming P :=
  ⟨tree.textCount, sentence.chars, payload⟩

end SentenceSearch
