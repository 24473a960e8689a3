import Mathlib.Data.Char
import Mathlib.Data.List.Induction
import Mathlib.Data.List.Nodup
import Mathlib.Data.List.Perm.Basic
import SentenceSearch.Proofs.MapValues
import SentenceSearch.Tabular.Tree

/-!
# Rows by node

Rows come in any order. Grouping them by node and sorting each group by first characters gives the
same tree for all orders, as long as no two edges below a node start with the same character.

## Main results

* `getD_group` — the group of a node has the values that belong to it, in order of appearance
* `mergeSort_eq_of_perm` — sorting gives back a list that was in order
* `flatten_values_perm` — the groups have all the values
* `getD_edges_ofRows`, `flatten_edges_ofRows_perm` — the edges of a tree made of rows
* `mem_payloadsAt_ofRows` — its payloads
-/

namespace SentenceSearch

namespace TabularTree

variable {P α : Type}

/-! ### Groups -/

/-- The group of a node has the values that belong to it, in order of appearance. -/
theorem getD_group (entries : List (Nat × α)) (id : Nat) :
    (group entries).getD id [] = (entries.filter fun entry => entry.1 == id).map Prod.snd := by
  induction entries using List.reverseRecOn with
  | nil => exact Std.ExtTreeMap.getD_empty
  | append_singleton entries entry ih =>
    obtain ⟨node, a⟩ := entry
    have hgroup : group (entries ++ [(node, a)]) = addToGroup (group entries) node a :=
      List.foldl_append
    rw [hgroup, addToGroup, Std.ExtTreeMap.getD_insert, List.filter_append, List.map_append, ← ih]
    by_cases hnode : node = id
    · subst hnode
      simp
    · simp [hnode]

/-- Values sorted out by their keys are the same values. -/
theorem flatMap_filter_perm (keys : List Nat) (hnodup : keys.Nodup) (entries : List (Nat × α))
    (hkeys : ∀ entry ∈ entries, entry.1 ∈ keys) :
    (keys.flatMap fun key => entries.filter fun entry => entry.1 == key).Perm entries := by
  induction keys generalizing entries with
  | nil =>
    cases entries with
    | nil => exact .nil
    | cons entry entries => exact absurd (hkeys entry List.mem_cons_self) List.not_mem_nil
  | cons key keys ih =>
    obtain ⟨hnew, hnodup⟩ := List.nodup_cons.mp hnodup
    set others := entries.filter fun entry => !(entry.1 == key) with hothers
    have hrest : ∀ k ∈ keys, (others.filter fun entry => entry.1 == k) =
        entries.filter fun entry => entry.1 == k := by
      intro k hk
      rw [hothers, List.filter_filter]
      apply List.filter_congr
      intro entry _
      by_cases hentry : entry.1 = k
      · have hne : k ≠ key := fun heq => hnew (heq ▸ hk)
        simp [hentry, hne]
      · simp [hentry]
    have hperm : (keys.flatMap fun k => entries.filter fun entry => entry.1 == k).Perm others := by
      rw [← List.flatMap_congr hrest]
      apply ih hnodup
      intro entry hentry
      obtain ⟨hmem, hne⟩ := List.mem_filter.mp hentry
      have hkey : entry.1 ≠ key := by simpa using hne
      exact (List.mem_cons.mp (hkeys entry hmem)).resolve_left hkey
    rw [List.flatMap_cons]
    exact (hperm.append_left _).trans (List.filter_append_perm _ entries)

/-- The groups of a map have all the values, if each group has those that belong to it. -/
theorem flatten_values_perm {groups : Std.ExtTreeMap Nat (List α)} {entries : List (Nat × α)}
    (h : ∀ id, (groups.getD id []).Perm
      ((entries.filter fun entry => entry.1 == id).map Prod.snd)) :
    groups.values.flatten.Perm (entries.map Prod.snd) := by
  have hvalues : groups.values = groups.keys.map fun id => groups.getD id [] := by
    rw [values_eq_toList, ← Std.ExtTreeMap.map_fst_toList_eq_keys, List.map_map]
    apply List.map_congr_left
    rintro ⟨id, values⟩ hmem
    have hget := Std.ExtTreeMap.mem_toList_iff_getElem?_eq_some.mp hmem
    simp [Std.ExtTreeMap.getD_eq_getD_getElem?, hget]
  have hkeys : ∀ entry ∈ entries, entry.1 ∈ groups.keys := by
    intro entry hentry
    rw [Std.ExtTreeMap.mem_keys]
    by_contra hnew
    have hempty := h entry.1
    rw [Std.ExtTreeMap.getD_eq_fallback hnew] at hempty
    have hmem : entry.2 ∈ (entries.filter fun e => e.1 == entry.1).map Prod.snd :=
      List.mem_map_of_mem (List.mem_filter.mpr ⟨hentry, by simp⟩)
    exact List.not_mem_nil (hempty.mem_iff.mpr hmem)
  have hperm := (flatMap_filter_perm groups.keys Std.ExtTreeMap.nodup_keys entries hkeys).map
    Prod.snd
  rw [List.map_flatMap] at hperm
  rw [hvalues, ← List.flatMap_def]
  exact (List.Perm.flatMap_left _ fun id _ => h id).trans hperm

/-! ### Sorting -/

theorem before_iff {a b : EdgeRow} : before a b = true ↔ firstChar a ≤ firstChar b :=
  decide_eq_true_iff

theorem before_trans (a b c : EdgeRow) (hab : before a b = true) (hbc : before b c = true) :
    before a c = true := by
  rw [before_iff] at hab hbc ⊢
  exact le_trans hab hbc

theorem before_total (a b : EdgeRow) : (before a b || before b a) = true := by
  rw [Bool.or_eq_true, before_iff, before_iff]
  exact le_total (firstChar a) (firstChar b)

/-- Sorting gives back a list that was in order, in whatever order its rows come. -/
theorem mergeSort_eq_of_perm {rows sorted : List EdgeRow} (hperm : rows.Perm sorted)
    (hsorted : sorted.Pairwise fun a b => firstChar a < firstChar b) :
    rows.mergeSort before = sorted := by
  have hmerged : (rows.mergeSort before).Pairwise fun a b => firstChar a ≤ firstChar b :=
    (List.pairwise_mergeSort before_trans before_total rows).imp before_iff.mp
  have hperm' := (List.mergeSort_perm rows before).trans hperm
  refine List.Perm.eq_of_pairwise ?_ hmerged (hsorted.imp fun h => le_of_lt h) hperm'
  -- Two rows of the list with the same first character are the same row.
  have hnodup : (sorted.map firstChar).Nodup :=
    List.pairwise_map.mpr (hsorted.imp fun h => ne_of_lt h)
  intro a b ha hb hab hba
  exact List.inj_on_of_nodup_map hnodup (hperm'.mem_iff.mp ha) hb (le_antisymm hab hba)

/-! ### Trees made of rows -/

/-- The rows with a label, each with the node above it. -/
def labelledRows (edges : List EdgeRow) : List (Nat × EdgeRow) :=
  (edges.filter fun row => row.text ≠ "").map fun row => (row.source, row)

/-- The edges below a node are its rows with a label, sorted by first characters. -/
theorem getD_edges_ofRows (edges : List EdgeRow) (payloads : List (PayloadRow P))
    (table : SymbolTable) (id : Nat) :
    (ofRows edges payloads table).edges.getD id [] =
      (((labelledRows edges).filter fun entry => entry.1 == id).map Prod.snd).mergeSort before := by
  change ((group (labelledRows edges)).map fun _ rows => rows.mergeSort before).getD id [] = _
  rw [← getD_group, Std.ExtTreeMap.getD_map, Std.ExtTreeMap.getD_eq_getD_getElem?]
  cases (group (labelledRows edges))[id]? with
  | none => exact List.mergeSort_nil.symm
  | some rows => rfl

/-- The edges of the tree are the rows with a label. -/
theorem flatten_edges_ofRows_perm (edges : List EdgeRow) (payloads : List (PayloadRow P))
    (table : SymbolTable) :
    (ofRows edges payloads table).edges.values.flatten.Perm
      ((labelledRows edges).map Prod.snd) := by
  apply flatten_values_perm
  intro id
  rw [getD_edges_ofRows]
  exact List.mergeSort_perm _ before

/-- The payloads at a node are those of its rows. -/
theorem mem_payloadsAt_ofRows {edges : List EdgeRow} {payloads : List (PayloadRow P)}
    {table : SymbolTable} {id : Nat} {p : P} :
    p ∈ (ofRows edges payloads table).payloadsAt id ↔ ⟨id, p⟩ ∈ payloads := by
  change p ∈ (group (payloads.map fun row => (row.node, row.payload))).getD id [] ↔ _
  rw [getD_group, List.filter_map, List.map_map, List.mem_map]
  constructor
  · rintro ⟨⟨node, payload⟩, hmem, rfl⟩
    obtain ⟨hrow, hnode⟩ := List.mem_filter.mp hmem
    exact eq_of_beq hnode ▸ hrow
  · intro hrow
    exact ⟨⟨id, p⟩, List.mem_filter.mpr ⟨hrow, beq_self_eq_true id⟩, rfl⟩

end TabularTree

end SentenceSearch
