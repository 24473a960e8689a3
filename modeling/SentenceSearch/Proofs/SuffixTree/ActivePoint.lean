import SentenceSearch.Proofs.SuffixTree.Factors

/-!
# The active point of an insertion

The active point stands where a string ends that the tree spells: at a node and some characters
down the edge that goes on with them. It keeps its string when it moves down a whole edge, and drops
the first character when it goes on to the next shorter suffix.

## Main definitions

* `ActivePoint.Reads` — the active point spells a given string

## Main results

* `ActivePoint.Reads.descend` — below a whole edge the active point spells the same
* `ActivePoint.Reads.finish` — the suffix link of its node leads to the next shorter suffix
-/

namespace SentenceSearch

open SuffixTree

variable {P : Type}

/-- The way down from the node of the active point spells the string, and it ends at `pos`. -/
structure ActivePoint.Reads (active : ActivePoint) (tree : SuffixTree P)
    (spell : Nat → List Char) (text : List Char) (pos : Nat) (x : List Char) : Prop where
  node_lt : active.node < tree.nodeCount
  spells : spell active.node ++ (text.drop active.edge).take active.length = x
  ends_at : 0 < active.length → active.edge + active.length = pos

namespace ActivePoint.Reads

variable {active : ActivePoint} {tree : SuffixTree P} {spell : Nat → List Char}
  {text x : List Char} {pos count id : Nat}

theorem grow {tree' : SuffixTree P} {spell' : Nat → List Char}
    (h : active.Reads tree spell text pos x) (hgrows : Grows tree spell tree' spell') :
    active.Reads tree' spell' text pos x where
  node_lt := hgrows.lt h.node_lt
  spells := by
    rw [hgrows.spell_eq _ h.node_lt]
    exact h.spells
  ends_at := h.ends_at

/-- The way down is the part of the text up to the round. -/
theorem way (hend : active.edge + active.length = pos) :
    (text.drop active.edge).take active.length = factor text active.edge pos := by
  rw [factor, ← hend, Nat.add_sub_cancel_left]

/-- An edge on the way down agrees with it as far as both go. -/
theorem label_agrees (h : active.Reads tree spell text pos x) (hlabelled : Labelled tree spell)
    (hspelled : tree.Spelled spell x) (hend : active.edge + active.length = pos)
    (hpos : pos ≤ text.length)
    (he : tree.Filed active.node (text.getD active.edge default) id) :
    tree.label (tree.edge id) <+: factor text active.edge pos ∨
      factor text active.edge pos <+: tree.label (tree.edge id) := by
  rcases Nat.eq_zero_or_pos active.length with hzero | hlength
  · rw [factor_eq_nil (by omega)]
    exact Or.inr List.nil_prefix
  -- The way down begins with the character of the edge, and there is one such edge only.
  · have hcons := factor_cons (by omega : active.edge < pos) hpos
    rw [← h.spells, way hend, hcons] at hspelled
    obtain ⟨e, he', hto⟩ := hlabelled.exists_edge_of_spelled h.node_lt hspelled
    rw [hcons, he.unique he']
    exact hto

/-- The way down from a node without a fitting edge is empty. -/
theorem length_eq_zero (h : active.Reads tree spell text pos x) (hlabelled : Labelled tree spell)
    (hspelled : tree.Spelled spell x) (hend : active.edge + active.length = pos)
    (hpos : pos ≤ text.length)
    (hnone : ∀ e, ¬ tree.Filed active.node (text.getD active.edge default) e) :
    active.length = 0 := by
  by_contra hlength
  have hcons := factor_cons (by omega : active.edge < pos) hpos
  rw [← h.spells, way hend, hcons] at hspelled
  obtain ⟨e, he, -⟩ := hlabelled.exists_edge_of_spelled h.node_lt hspelled
  exact hnone e he

/-- Below a whole edge the active point spells the same. -/
theorem descend (h : active.Reads tree spell text pos x) (hlabelled : Labelled tree spell)
    (hspelled : tree.Spelled spell x) (hend : active.edge + active.length = pos)
    (hpos : pos ≤ text.length)
    (he : tree.Filed active.node (text.getD active.edge default) id)
    (hle : (tree.edge id).length ≤ active.length) :
    (active.descend (tree.edge id)).Reads tree spell text pos x := by
  have hfit := hlabelled.fits he
  refine ⟨hfit.child_lt, ?_, fun _ => ?_⟩
  · have hlabel : tree.label (tree.edge id) <+: factor text active.edge pos := by
      rcases h.label_agrees hlabelled hspelled hend hpos he with hto | hto
      · exact hto
      · rw [hto.eq_of_length_le]
        rw [hfit.length_label, length_factor hpos]
        omega
    rw [← h.spells, ActivePoint.descend, hfit.spell_child, List.append_assoc,
      List.append_right_inj]
    have htake : tree.label (tree.edge id) =
        (text.drop active.edge).take (tree.edge id).length := by
      rw [← way hend] at hlabel
      have heq := List.prefix_iff_eq_take.mp hlabel
      rwa [hfit.length_label, List.take_take, Nat.min_eq_left hle] at heq
    -- What is left of the way down is read from where the edge ends.
    have hsum : active.length =
        (tree.edge id).length + (active.length - (tree.edge id).length) := by omega
    conv_rhs => rw [hsum, List.take_add, List.drop_drop, ← htake]
  · simp only [ActivePoint.descend]
    omega

/-- The next shorter suffix is read from the link of the node, or from the root. -/
theorem finish {link : Option Nat} (h : active.Reads tree spell text pos (factor text count pos))
    (hlabelled : Labelled tree spell) (hpos : pos ≤ text.length) (hcount : count ≤ pos)
    (hremaining : active.remaining + count = pos + 1)
    (hlink : ∀ u, link = some u →
      u < tree.nodeCount ∧ spell active.node ≠ [] ∧ spell u = (spell active.node).tail)
    (hnone : link = none → (spell active.node).tail = []) :
    (active.finish pos link).Reads tree spell text pos (factor text (count + 1) pos) := by
  unfold ActivePoint.finish
  dsimp only
  by_cases hroot : active.node = root
  · rw [if_pos hroot]
    have hspells : (text.drop active.edge).take active.length = factor text count pos := by
      rw [← h.spells, hroot, hlabelled.spell_root, List.nil_append]
    split
    · -- At the root the whole string is on the way down, so its length is known.
      rename_i hlength
      have hcount' : active.length = pos - count := by
        rw [way (h.ends_at hlength)] at hspells
        have := congrArg List.length hspells
        rw [length_factor hpos, length_factor hpos] at this
        have := h.ends_at hlength
        omega
      have hedge : pos + 1 - (active.remaining - 1) = count + 1 := by omega
      refine ⟨h.node_lt, ?_, fun _ => ?_⟩
      · dsimp only
        rw [hroot, hlabelled.spell_root, List.nil_append, hedge, factor, hcount', Nat.sub_sub]
      · dsimp only
        omega
    · rename_i hlength
      have hzero : active.length = 0 := Nat.eq_zero_of_not_pos hlength
      refine ⟨h.node_lt, ?_, fun hlt => absurd hlt hlength⟩
      dsimp only
      rw [hroot, hlabelled.spell_root, ← tail_factor, ← hspells, hzero]
      rfl
  · rw [if_neg hroot]
    have hne : spell active.node ≠ [] := fun hnil =>
      hroot (hlabelled.spell_inj h.node_lt hlabelled.root_lt (hnil.trans hlabelled.spell_root.symm))
    have htail : (spell active.node).tail ++ (text.drop active.edge).take active.length =
        factor text (count + 1) pos := by
      rw [← tail_factor, ← h.spells, List.tail_append_of_ne_nil hne]
    cases hto : link with
    | none =>
      -- Without a link the node spells one character, and its suffix is that of the root.
      refine ⟨hlabelled.root_lt, ?_, h.ends_at⟩
      rw [hnone hto] at htail
      rw [← htail]
      dsimp only [Option.getD_none]
      rw [hlabelled.spell_root]
    | some u =>
      obtain ⟨hu, -, hspell⟩ := hlink u hto
      exact ⟨hu, by rw [← htail, ← hspell]; rfl, h.ends_at⟩

end ActivePoint.Reads

end SentenceSearch
