import Mathlib.Data.Finset.Lattice.Fold
import SentenceSearch.Proofs.SuffixTree.Factors
import SentenceSearch.Proofs.SuffixTree.History
import SentenceSearch.SuffixTree.Source

/-!
# Exactness of the masks

The mask of an edge in an annotated tree has the buckets of the characters below it and no others.
What is read off at a place on the edge is the suffix mask of a text, which runs on past the end of
the edge. It is exact nevertheless: a text is spelled to its end, so whatever follows the label in
it is below the edge.

## Main definitions

* `SymbolTable.IsMaskOf` — a mask has the buckets of some characters and no others
* `SuffixTree.CharBelow` — a character is on an edge below a node
* `SuffixTree.ExactMasks` — all masks that a search sees are those of what can still be reached

## Main results

* `Labelled.charBelow_of_spelled` — what is spelled from a node on is on the edges below it
* `Stores.isMaskOf_onward` — the mask at a place on an edge, given that of its child
* `Stores.isMaskOf_childMask` — the masks of the edges, when all of them are up to date
* `exactMasks_ofSteps` — an annotated tree has exact masks, whatever happened before
-/

namespace SentenceSearch

namespace SymbolTable

variable {table : SymbolTable} {chars chars' : Char → Prop} {mask mask' : Mask}
  {text : List Char}

/-- The mask has the buckets of the given characters and no others. -/
def IsMaskOf (table : SymbolTable) (chars : Char → Prop) (mask : Mask) : Prop :=
  ∀ i, mask.hasBit i = true ↔ ∃ c, chars c ∧ (table.mask c).hasBit i = true

theorem isMaskOf_maskOf (table : SymbolTable) (text : List Char) :
    table.IsMaskOf (· ∈ text) (table.maskOf text) := by
  intro i
  induction text with
  | nil => simp [maskOf]
  | cons c text ih => simp [maskOf, ih]

theorem IsMaskOf.congr (h : table.IsMaskOf chars mask) (hsame : ∀ c, chars c ↔ chars' c) :
    table.IsMaskOf chars' mask := by
  intro i
  rw [h i]
  exact exists_congr fun c => and_congr_left' (hsame c)

/-- The characters determine the mask. -/
theorem IsMaskOf.unique (h : table.IsMaskOf chars mask) (h' : table.IsMaskOf chars mask') :
    mask = mask' := by
  apply Mask.ext_hasBit
  intro i
  rw [Bool.eq_iff_iff, h i, h' i]

/-- The mask of the characters of a text is the one that the table makes. -/
theorem isMaskOf_mem_iff : table.IsMaskOf (· ∈ text) mask ↔ mask = table.maskOf text := by
  constructor
  · intro h
    exact h.unique (table.isMaskOf_maskOf text)
  · rintro rfl
    exact table.isMaskOf_maskOf text

theorem IsMaskOf.or (h : table.IsMaskOf chars mask) (h' : table.IsMaskOf chars' mask') :
    table.IsMaskOf (fun c => chars c ∨ chars' c) (mask ||| mask') := by
  intro i
  rw [Mask.hasBit_or, Bool.or_eq_true, h i, h' i, ← exists_or]
  exact exists_congr fun c => or_and_right.symm

/-- The masks of several sets of characters make one of all that is in some of them. -/
theorem isMaskOf_foldl_or {α : Type} {f : α → Mask} {sets : α → Char → Prop} {items : List α}
    (h : ∀ a ∈ items, table.IsMaskOf (sets a) (f a)) :
    table.IsMaskOf (fun c => ∃ a ∈ items, sets a c)
      (items.foldl (fun acc a => acc ||| f a) 0) := by
  induction items using List.reverseRecOn with
  | nil =>
    intro i
    simp
  | append_singleton items a ih =>
    rw [List.foldl_append]
    have hfront := ih fun b hb => h b (List.mem_append_left _ hb)
    have hlast := h a (List.mem_append_right _ (List.mem_singleton_self a))
    apply (hfront.or hlast).congr
    intro c
    simp [or_and_right, exists_or]

/-- The mask offers all that is in a text of its characters. -/
theorem IsMaskOf.maskOf_allows (h : table.IsMaskOf chars mask) (htext : ∀ c ∈ text, chars c) :
    (table.maskOf text).allows mask = true := by
  rw [Mask.allows_iff]
  intro i hi
  obtain ⟨c, hc, hbit⟩ := (table.isMaskOf_maskOf text i).mp hi
  exact (h i).mpr ⟨c, htext c hc, hbit⟩

end SymbolTable

namespace SuffixTree

variable {P : Type} {tree : SuffixTree P} {spell : Nat → List Char} {ends : List Char → Array P}
  {table : SymbolTable} {u v e offset : Nat} {c k : Char} {x : List Char} {mask : Mask}

/-! ### What is below a node -/

/-- The character is on an edge below the node. -/
inductive CharBelow (tree : SuffixTree P) : Nat → Char → Prop
  | onEdge {v : Nat} {k : Char} {e : Nat} {c : Char} (he : tree.Filed v k e)
      (hc : c ∈ tree.label (tree.edge e)) : CharBelow tree v c
  | further {v : Nat} {k : Char} {e : Nat} {c : Char} (he : tree.Filed v k e)
      (hc : CharBelow tree (tree.edge e).child c) : CharBelow tree v c

theorem charBelow_iff : tree.CharBelow v c ↔ ∃ edge ∈ tree.edgesBelow v,
    c ∈ tree.label edge ∨ tree.CharBelow edge.child c := by
  constructor
  · intro h
    cases h with
    | onEdge he hc => exact ⟨_, mem_edgesBelow.mpr ⟨_, _, he, rfl⟩, Or.inl hc⟩
    | further he hc => exact ⟨_, mem_edgesBelow.mpr ⟨_, _, he, rfl⟩, Or.inr hc⟩
  · rintro ⟨_, hedge, hc⟩
    obtain ⟨k, e, he, rfl⟩ := mem_edgesBelow.mp hedge
    rcases hc with hc | hc
    · exact .onEdge he hc
    · exact .further he hc

namespace Labelled

/-- What holds of a node when it holds of the next ones below it holds of all nodes. -/
theorem below_induction {motive : Nat → Prop} (h : Labelled tree spell)
    (step : ∀ v < tree.nodeCount, (∀ k e, tree.Filed v k e → motive (tree.edge e).child) →
      motive v) (hv : v < tree.nodeCount) : motive v := by
  -- Strings get longer on the way down, and there is a longest one.
  have hlongest : ∀ u < tree.nodeCount, (spell u).length ≤
      (Finset.range tree.nodeCount).sup fun u => (spell u).length := by
    intro u hu
    exact Finset.le_sup (f := fun u => (spell u).length) (Finset.mem_range.mpr hu)
  generalize (Finset.range tree.nodeCount).sup (fun u => (spell u).length) = longest at hlongest
  induction hn : longest - (spell v).length using Nat.strongRecOn generalizing v with
  | _ n ih =>
    subst hn
    apply step v hv
    intro k e he
    have hlt := (h.fits he).length_spell_lt
    have hle := hlongest _ (h.fits he).child_lt
    exact ih _ (by omega) (h.fits he).child_lt rfl

/-- What is spelled from a node on is on the edges below it. -/
theorem charBelow_of_spelled (h : Labelled tree spell) (hv : v < tree.nodeCount)
    (hx : tree.Spelled spell (spell v ++ x)) (hc : c ∈ x) : tree.CharBelow v c := by
  revert x
  apply h.below_induction (v := v) ?_ hv
  intro v hv ih x hx hc
  obtain ⟨k, x, rfl⟩ := List.exists_cons_of_ne_nil (List.ne_nil_of_mem hc)
  obtain ⟨e, he, hto | hto⟩ := h.exists_edge_of_spelled hv hx
  · -- The string runs along the whole label and goes on below it.
    obtain ⟨rest, hrest⟩ := hto
    rw [← hrest] at hx hc
    rw [← List.append_assoc, ← (h.fits he).spell_child] at hx
    rcases List.mem_append.mp hc with hc | hc
    · exact .onEdge he hc
    · exact .further he (ih k e he hx hc)
  · exact .onEdge he (hto.subset hc)

end Labelled

/-! ### Masks at the places of an edge -/

theorem label_eq_factor (edge : TreeEdge) :
    tree.label edge = factor (tree.text edge.text).chars.toList edge.start edge.stop := by
  simp [label, Sentence.slice, factor, List.extract_eq_take_drop]

/-- From a place on an edge its text goes on with the rest of the label and what follows there. -/
theorem EdgeFits.drop_text {edge : TreeEdge} (h : EdgeFits tree spell v k edge)
    (hoffset : offset ≤ edge.length) :
    (tree.text edge.text).chars.toList.drop (edge.start + offset) =
      (tree.label edge).drop offset ++ (tree.text edge.text).chars.toList.drop edge.stop := by
  have hlength := h.length_label
  have hle : offset ≤ (tree.label edge).length := hlength.symm ▸ hoffset
  rw [← List.drop_drop, ← factor_append_drop h.start_lt.le, ← label_eq_factor,
    List.drop_append_of_le_length hle]

/-- The text of an edge is spelled to its end, so what follows the label is below the child. -/
theorem Stores.charBelow_of_mem_text (h : Stores tree spell ends) (he : tree.Filed v k e)
    (hc : c ∈ (tree.text (tree.edge e).text).chars.toList.drop (tree.edge e).stop) :
    tree.CharBelow (tree.edge e).child c := by
  have hfit := h.labelled.fits he
  have hspelled := h.continues v k e he
  have htext := hfit.drop_text (Nat.zero_le _)
  rw [Nat.add_zero, List.drop_zero] at htext
  rw [htext, ← List.append_assoc, ← hfit.spell_child] at hspelled
  exact h.labelled.charBelow_of_spelled hfit.child_lt hspelled hc

/-- With the mask of what is below the child, the suffix mask at a place on the edge gives that of
what can be reached from there. -/
theorem Stores.isMaskOf_onward (h : Stores tree spell ends) (hprepared : Prepared table tree)
    (he : tree.Filed v k e) (hoffset : offset ≤ (tree.edge e).length)
    (hmask : table.IsMaskOf (tree.CharBelow (tree.edge e).child) mask) :
    table.IsMaskOf
      (fun c => c ∈ (tree.label (tree.edge e)).drop offset ∨
        tree.CharBelow (tree.edge e).child c)
      (mask ||| (tree.text (tree.edge e).text).maskAt ((tree.edge e).start + offset)) := by
  rw [hprepared.maskAt_eq, (h.labelled.fits he).drop_text hoffset]
  apply (hmask.or (table.isMaskOf_maskOf _)).congr
  intro c
  rw [List.mem_append]
  constructor
  · rintro (hc | hc | hc)
    · exact Or.inr hc
    · exact Or.inl hc
    · exact Or.inr (h.charBelow_of_mem_text he hc)
  · rintro (hc | hc)
    · exact Or.inr (Or.inl hc)
    · exact Or.inl hc

/-! ### Masks that are up to date -/

/-- The masks of the edges below a node make that of all that is below it. -/
theorem Stores.isMaskOf_maskBelow (h : Stores tree spell ends) (hprepared : Prepared table tree)
    (hdates : ∀ e < tree.edgeCount, tree.UpToDate e) (hv : v < tree.nodeCount) :
    table.IsMaskOf (tree.CharBelow v) (tree.maskBelow v) := by
  apply h.labelled.below_induction (v := v) ?_ hv
  intro v hv ih
  have hedges : ∀ edge ∈ tree.edgesBelow v,
      table.IsMaskOf (fun c => c ∈ tree.label edge ∨ tree.CharBelow edge.child c)
        (tree.fullMask edge) := by
    intro edge hedge
    obtain ⟨k, e, he, rfl⟩ := mem_edgesBelow.mp hedge
    have hchild := ih k e he
    rw [← hdates e (h.labelled.edge_lt he)] at hchild
    have honward := h.isMaskOf_onward hprepared he (Nat.zero_le _) hchild
    rw [Nat.add_zero, List.drop_zero] at honward
    exact honward
  apply (SymbolTable.isMaskOf_foldl_or hedges).congr
  intro c
  exact charBelow_iff.symm

/-- The mask of an edge is that of what is below its child. -/
theorem Stores.isMaskOf_childMask (h : Stores tree spell ends) (hprepared : Prepared table tree)
    (hdates : ∀ e < tree.edgeCount, tree.UpToDate e) (he : e < tree.edgeCount) :
    table.IsMaskOf (tree.CharBelow (tree.edge e).child) (tree.edge e).childMask := by
  obtain ⟨v, k, hfiled⟩ := h.labelled.filed he
  rw [hdates e he]
  exact h.isMaskOf_maskBelow hprepared hdates (h.labelled.fits hfiled).child_lt

/-! ### The masks that a search sees -/

/-- The masks that a search sees are those of what can still be reached. -/
structure ExactMasks (table : SymbolTable) (tree : SuffixTree P) : Prop where
  /-- The mask of an edge has the buckets of the characters on the edges below its child. -/
  child : ∀ e < tree.edgeCount,
    table.IsMaskOf (tree.CharBelow (tree.edge e).child) (tree.edge e).childMask
  /-- At a place on an edge those of the characters on the rest of the label are there as well. -/
  onward : ∀ e < tree.edgeCount, ∀ offset ≤ (tree.label (tree.edge e)).length,
    table.IsMaskOf
      (fun c => c ∈ (tree.label (tree.edge e)).drop offset ∨ tree.CharBelow (tree.edge e).child c)
      ((tree.record (tree.edge e)).partialMask offset)

/-- In an annotated tree a search sees exact masks. -/
theorem Records.exactMasks (h : Records table tree spell ends)
    (hannotated : tree.annotated = true) : ExactMasks table tree := by
  have hstores := h.settled.stores
  have hchild : ∀ e < tree.edgeCount,
      table.IsMaskOf (tree.CharBelow (tree.edge e).child) (tree.edge e).childMask := by
    intro e he
    exact hstores.isMaskOf_childMask h.prepared (h.upToDate hannotated) he
  refine ⟨hchild, ?_⟩
  intro e he offset hoffset
  obtain ⟨v, k, hfiled⟩ := hstores.labelled.filed he
  have hlength := (hstores.labelled.fits hfiled).length_label
  have hreliable : tree.reliableMask (tree.edge e) = (tree.edge e).childMask := if_pos hannotated
  have hexact := hchild e he
  rw [← hreliable] at hexact
  unfold EdgeRecord.partialMask
  split
  · exact hstores.isMaskOf_onward h.prepared hfiled (hlength ▸ hoffset) hexact
  · -- At the end of the label only what is below the child is left.
    rename_i hend
    rw [List.drop_eq_nil_of_le (hlength ▸ Nat.le_of_not_lt hend)]
    apply hexact.congr
    intro c
    simp

variable [DecidableEq P] {steps : List (TreeStep P)}

/-- A tree is annotated when an annotation is what happened last. -/
theorem annotated_ofSteps_iff :
    (ofSteps table steps).annotated = true ↔ steps.getLast? = some .annotate := by
  induction steps using List.reverseRecOn with
  | nil => simp [ofSteps, empty]
  | append_singleton steps step _ =>
    rw [ofSteps, List.foldl_append, List.getLast?_concat]
    cases step with
    | insert text payload => simp [TreeStep.apply, annotated_add]
    | annotate => simp [TreeStep.apply, annotate]

/-- Whatever happened before, an annotated tree has exact masks, and another annotation changes
nothing. -/
theorem exactMasks_ofSteps (table : SymbolTable) (steps : List (TreeStep P))
    (hannotated : (ofSteps table steps).annotated = true) :
    ExactMasks table (ofSteps table steps) ∧
      (ofSteps table steps).annotate = ofSteps table steps := by
  obtain ⟨spell, h⟩ := exists_records table steps
  exact ⟨h.exactMasks hannotated, annotate_eq_self hannotated (h.upToDate hannotated)⟩

/-- The second text cuts an edge in two that got its mask before the text came. -/
theorem exactMasks_ofSteps_stale :
    (ofSteps (.ofList [('a', 1), ('b', 2), ('c', 4)])
      [.insert "ab".toList 3, .annotate, .insert "ac".toList 5, .annotate]).annotated = true ∧
    ExactMasks (.ofList [('a', 1), ('b', 2), ('c', 4)])
      (ofSteps (.ofList [('a', 1), ('b', 2), ('c', 4)])
        [.insert "ab".toList 3, .annotate, .insert "ac".toList 5, .annotate]) := by
  exact ⟨annotated_ofSteps_iff.mpr rfl, (exactMasks_ofSteps _ _ (annotated_ofSteps_iff.mpr rfl)).1⟩

end SuffixTree

end SentenceSearch
