import SentenceSearch.SuffixTree.Basic

/-!
# Insertion into a suffix tree

A text is inserted online, in one round for each of its characters. Suffixes that the tree spells
already stay implicit until a round needs them; the active point is where the longest of them
ends. A last round makes the suffixes explicit that are still implicit at the end of the text, and
attaches the payload to them.

Every node where a suffix of the text ends is linked to the end of the next shorter suffix, and
every node that is made inside an edge is linked within the round that makes it.

## Main definitions

* `ActivePoint` — where the next extension happens
* `Insertion` — a tree while a text is inserted
* `Insertion.extend` — the round of one character
* `Insertion.terminate` — the round at the end of the text
* `SuffixTree.add` — insert a text with a payload

## Main results

* `ActivePoint.weight_finish_lt`, `ActivePoint.weight_descend_lt` — the rounds come to an end
-/

namespace SentenceSearch

/-- Where the next extension happens: `length` characters below `node`, along the edge that starts
with the character of the text at `edge`. -/
structure ActivePoint where
  /-- The node above the point. -/
  node : Nat
  /-- The position in the text of the first character on the way down. -/
  edge : Nat
  /-- Number of characters on the way down. -/
  length : Nat
  /-- Number of suffixes that are still to be made explicit. -/
  remaining : Nat
  deriving DecidableEq, Repr, Inhabited

namespace ActivePoint

/-- The point before the first round. -/
def initial : ActivePoint := ⟨SuffixTree.root, 0, 0, 0⟩

/-- One more suffix is to be made explicit. -/
def begin (active : ActivePoint) : ActivePoint := { active with remaining := active.remaining + 1 }

/-- At a node, the way down starts with the character of the round. -/
def anchor (active : ActivePoint) (pos : Nat) : ActivePoint :=
  if active.length = 0 then { active with edge := pos } else active

/-- Go down a whole edge. -/
def descend (active : ActivePoint) (edge : TreeEdge) : ActivePoint :=
  { active with
    node := edge.child
    edge := active.edge + edge.length
    length := active.length - edge.length }

/-- Go on to the next shorter suffix after one has been made explicit, where `link` is the suffix
link of the node above the point. -/
def finish (active : ActivePoint) (pos : Nat) (link : Option Nat) : ActivePoint :=
  let remaining := active.remaining - 1
  if active.node = SuffixTree.root then
    -- At the root the next suffix is spelled anew, one character shorter.
    if 0 < active.length then
      { active with edge := pos + 1 - remaining, length := active.length - 1, remaining }
    else
      { active with remaining }
  else
    -- A link leads to the next suffix at once; the way down from there is the same.
    { active with node := link.getD SuffixTree.root, remaining }

/-- What is left to do in a round: suffixes to make explicit and characters to go down. -/
def weight (active : ActivePoint) : Nat := active.remaining + active.length

@[simp] theorem weight_anchor (active : ActivePoint) (pos : Nat) :
    (active.anchor pos).weight = active.weight := by
  unfold anchor
  split <;> rfl

@[simp] theorem remaining_anchor (active : ActivePoint) (pos : Nat) :
    (active.anchor pos).remaining = active.remaining := by
  unfold anchor
  split <;> rfl

theorem weight_finish_lt {active : ActivePoint} (pos : Nat) (link : Option Nat)
    (h : 0 < active.remaining) : (active.finish pos link).weight < active.weight := by
  unfold finish
  split
  · split <;> simp only [weight] <;> omega
  · simp only [weight]
    omega

theorem weight_descend_lt {active : ActivePoint} {edge : TreeEdge} (h : 0 < edge.length)
    (h' : edge.length ≤ active.length) : (active.descend edge).weight < active.weight := by
  simp only [weight, descend]
  omega

end ActivePoint

/-- A text that is being inserted. -/
structure Incoming (P : Type) where
  /-- The position that the text has among the texts of the tree. -/
  text : Nat
  /-- Its characters. -/
  chars : Array Char
  /-- The payload of its suffixes. -/
  payload : P

/-- The character of the text at a position. -/
def Incoming.charAt {P : Type} (incoming : Incoming P) (i : Nat) : Char :=
  incoming.chars.getD i default

/-- A tree while a text is inserted. -/
structure Insertion (P : Type) where
  /-- The tree so far. -/
  tree : SuffixTree P
  /-- Where the next extension happens. -/
  active : ActivePoint
  /-- The node made in this round that has no suffix link yet. -/
  pendingBranch : Option Nat
  /-- The node where the suffix ends that was made explicit last. -/
  pendingEnd : Option Nat

namespace SuffixTree

variable {P : Type}

/-- Change one node. -/
def modifyNode (tree : SuffixTree P) (id : Nat) (f : TreeNode P → TreeNode P) : SuffixTree P :=
  { tree with nodes := tree.nodes.modify id f }

/-- Set the suffix link of a node. -/
def setLink (tree : SuffixTree P) (source target : Nat) : SuffixTree P :=
  tree.modifyNode source fun node => { node with link := some target }

/-- Add a leaf below `parent` for the rest of a text from `start` on. The leaf is the last node. -/
def addLeaf (tree : SuffixTree P) (incoming : Incoming P) (parent start : Nat) : SuffixTree P :=
  match tree with
  | ⟨nodes, edges, texts, annotated⟩ =>
    let edge : TreeEdge := ⟨incoming.text, start, incoming.chars.size, nodes.size, 0⟩
    let nodes := (nodes.push ⟨∅, #[incoming.payload], none⟩).modify parent
      fun node => { node with edges := node.edges.insert (incoming.charAt start) edges.size }
    ⟨nodes, edges.push edge, texts, annotated⟩

/-- Cut an edge after `depth` characters. The node in between is the last node. -/
def splitEdge (tree : SuffixTree P) (id depth : Nat) : SuffixTree P :=
  let edge := tree.edge id
  let cut := edge.start + depth
  let key := tree.charAt edge.text cut
  match tree with
  | ⟨nodes, edges, texts, annotated⟩ =>
    let middle : TreeNode P := ⟨.ofList [(key, edges.size)], #[], none⟩
    let edges := (edges.push { edge with start := cut }).modify id
      fun upper => { upper with stop := cut, child := nodes.size }
    ⟨nodes.push middle, edges, texts, annotated⟩

/-- Attach a payload to a node, unless it is the last one there already. -/
def attach [DecidableEq P] (tree : SuffixTree P) (id : Nat) (payload : P) : SuffixTree P :=
  tree.modifyNode id fun node =>
    if node.payloads.back? = some payload then node
    else { node with payloads := node.payloads.push payload }

end SuffixTree

namespace Insertion

variable {P : Type}

/-- Set the link of the node that waits for one, if there is such a node. -/
def linkTo (waiting : Option Nat) (target : Nat) (tree : SuffixTree P) : SuffixTree P :=
  match waiting with
  | some source => tree.setLink source target
  | none => tree

/-- Begin a round. Links of nodes inside edges never span rounds. -/
def beginRound (state : Insertion P) : Insertion P :=
  { state with active := state.active.begin, pendingBranch := none }

/-- The node that waits for a link in this round gets `target`. -/
def resolveBranch (state : Insertion P) (target : Nat) : Insertion P :=
  { state with tree := linkTo state.pendingBranch target state.tree, pendingBranch := none }

/-- A node has just been made inside an edge: the node that waits for a link gets it, and it waits
for a link itself. -/
def awaitBranch (state : Insertion P) (id : Nat) : Insertion P :=
  { state with tree := linkTo state.pendingBranch id state.tree, pendingBranch := some id }

/-- The next shorter suffix ends at the node `id`. -/
def chainEnd (state : Insertion P) (id : Nat) : Insertion P :=
  { state with tree := linkTo state.pendingEnd id state.tree, pendingEnd := some id }

/-- Go on to the next shorter suffix. -/
def finishSuffix (state : Insertion P) (pos : Nat) : Insertion P :=
  { state with active := state.active.finish pos (state.tree.node state.active.node).link }

/-- Make the suffix explicit that starts a new edge at the active node. -/
def branchAtNode (state : Insertion P) (incoming : Incoming P) (pos : Nat) : Insertion P :=
  let leaf := state.tree.nodeCount
  let grown := { state with tree := state.tree.addLeaf incoming state.active.node pos }
  ((grown.resolveBranch state.active.node).chainEnd leaf).finishSuffix pos

/-- Make the suffix explicit that leaves the edge `id` at the active point. -/
def branchInEdge (state : Insertion P) (incoming : Incoming P) (id pos : Nat) : Insertion P :=
  let middle := state.tree.nodeCount
  let cut := state.tree.splitEdge id state.active.length
  let leaf := cut.nodeCount
  let grown := { state with tree := cut.addLeaf incoming middle pos }
  ((grown.awaitBranch middle).chainEnd leaf).finishSuffix pos

/-- The suffix goes on along an edge that is there already, and so do all shorter ones. -/
def stayImplicit (state : Insertion P) : Insertion P :=
  let state :=
    if state.active.node = SuffixTree.root then state else state.resolveBranch state.active.node
  { state with active := { state.active with length := state.active.length + 1 } }

@[simp] theorem active_resolveBranch (state : Insertion P) (id : Nat) :
    (state.resolveBranch id).active = state.active := rfl

@[simp] theorem active_awaitBranch (state : Insertion P) (id : Nat) :
    (state.awaitBranch id).active = state.active := rfl

@[simp] theorem active_chainEnd (state : Insertion P) (id : Nat) :
    (state.chainEnd id).active = state.active := rfl

/-- Choose the way down from the active node for the round of the character at `pos`. -/
def anchor (state : Insertion P) (pos : Nat) : Insertion P :=
  { state with active := state.active.anchor pos }

/-- Go down a whole edge. -/
def descend (state : Insertion P) (edge : TreeEdge) : Insertion P :=
  { state with active := state.active.descend edge }

/-- The edge on the way down from the active node, if there is one. -/
def activeEdge? (state : Insertion P) (incoming : Incoming P) : Option Nat :=
  (state.tree.node state.active.node).edges[incoming.charAt state.active.edge]?

/-- The round of the character at `pos`: make suffixes explicit, from the longest implicit one on,
until one of them is spelled by the tree already. -/
def extend (incoming : Incoming P) (pos : Nat) (state : Insertion P) : Insertion P :=
  if _hr : state.active.remaining = 0 then
    state
  else
    let anchored := state.anchor pos
    match anchored.activeEdge? incoming with
    -- No edge goes on with the character, so the suffix leaves the node itself.
    | none => extend incoming pos (anchored.branchAtNode incoming pos)
    | some id =>
      let edge := anchored.tree.edge id
      -- The edge ends above the active point: the same suffix is looked for further down.
      if _h : 0 < edge.length ∧ edge.length ≤ anchored.active.length then
        extend incoming pos (anchored.descend edge)
      else if anchored.tree.charAt edge.text (edge.start + anchored.active.length)
          = incoming.charAt pos then
        -- A spelled suffix has all its own suffixes spelled as well.
        anchored.stayImplicit
      else
        extend incoming pos (anchored.branchInEdge incoming id pos)
termination_by state.active.weight
decreasing_by
  all_goals refine Nat.lt_of_lt_of_eq ?_ (ActivePoint.weight_anchor state.active pos)
  · exact ActivePoint.weight_finish_lt _ _ (by simp [Insertion.anchor]; omega)
  · exact ActivePoint.weight_descend_lt ‹_ ∧ _›.1 ‹_ ∧ _›.2
  · exact ActivePoint.weight_finish_lt _ _ (by simp [Insertion.anchor]; omega)

/-- The suffix that ends at the active point ends at the node `id`. -/
def endAt [DecidableEq P] (state : Insertion P) (incoming : Incoming P) (id : Nat) :
    Insertion P :=
  let attached := { state with tree := state.tree.attach id incoming.payload }
  (attached.chainEnd id).finishSuffix incoming.chars.size

/-- The round at the end of the text: give every suffix that is still implicit a node. -/
def terminate [DecidableEq P] (incoming : Incoming P) (state : Insertion P) : Insertion P :=
  -- The last suffix that remains is the empty one, which needs no node.
  if _hr : state.active.remaining ≤ 1 then
    state
  else if state.active.length = 0 then
    terminate incoming (state.endAt incoming state.active.node)
  else
    match state.activeEdge? incoming with
    -- An implicit suffix is spelled by the tree, so there is an edge.
    | none => state
    | some id =>
      let edge := state.tree.edge id
      if _h : 0 < edge.length ∧ edge.length ≤ state.active.length then
        terminate incoming (state.descend edge)
      else
        let middle := state.tree.nodeCount
        let cut := { state with tree := state.tree.splitEdge id state.active.length }
        terminate incoming (cut.endAt incoming middle)
termination_by state.active.weight
decreasing_by
  · exact ActivePoint.weight_finish_lt _ _ (by simp; omega)
  · exact ActivePoint.weight_descend_lt ‹_ ∧ _›.1 ‹_ ∧ _›.2
  · exact ActivePoint.weight_finish_lt _ _ (by simp; omega)

/-- All the rounds of a text. -/
def run [DecidableEq P] (incoming : Incoming P) (state : Insertion P) : Insertion P :=
  let extended := (List.range incoming.chars.size).foldl
    (fun state pos => extend incoming pos state.beginRound) state
  -- The last round counts one more suffix, the empty one.
  terminate incoming extended.beginRound

end Insertion

/-- Insert every suffix of a text with a payload. The masks of the edges are out of date
afterwards. -/
def SuffixTree.add {P : Type} [DecidableEq P] (tree : SuffixTree P) (sentence : Sentence)
    (payload : P) : SuffixTree P :=
  let incoming : Incoming P := ⟨tree.textCount, sentence.chars, payload⟩
  -- The text has to be there before the rounds, because labels are parts of it.
  let opened := { tree with texts := tree.texts.push sentence, annotated := false }
  (Insertion.run incoming ⟨opened, .initial, none, none⟩).tree

end SentenceSearch
