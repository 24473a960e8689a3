import Std.Data.ExtTreeMap

/-!
# The entries of an ordered map

The list of the values of an ordered map in terms of its entries and of its lookup, and the map that
comes of inserting entries one by one.

## Main results

* `values_eq_toList` — the values are those of the entries, in the same order
* `mem_values_iff` — the values are what the lookup finds
* `pairwise_values_lt`, `pairwise_values` — the keys that two values in the list are filed under
* `foldl_insert_eq` — inserting entries one by one is inserting them all
* `ofList_toList` — a map is made of its entries
-/

namespace SentenceSearch

variable {α β : Type} {cmp : α → α → Ordering} [Std.TransCmp cmp]

theorem values_eq_toList (map : Std.ExtTreeMap α β cmp) :
    map.values = map.toList.map Prod.snd := by
  rcases map with ⟨⟨map⟩⟩
  induction map using Quotient.inductionOn with
  | h map =>
    change map.inner.values =
      (Std.DTreeMap.Internal.Impl.Const.toList map.inner).map Prod.snd
    rw [Std.DTreeMap.Internal.Impl.values_eq_map_snd,
      Std.DTreeMap.Internal.Impl.Const.toList_eq_toListModel_map, List.map_map]
    rfl

theorem mem_values_iff [Std.LawfulEqCmp cmp] {map : Std.ExtTreeMap α β cmp} {b : β} :
    b ∈ map.values ↔ ∃ a : α, map[a]? = some b := by
  rw [values_eq_toList, List.mem_map]
  constructor
  · rintro ⟨⟨a, b⟩, hmem, rfl⟩
    exact ⟨a, Std.ExtTreeMap.mem_toList_iff_getElem?_eq_some.mp hmem⟩
  · rintro ⟨a, ha⟩
    exact ⟨(a, b), Std.ExtTreeMap.mem_toList_iff_getElem?_eq_some.mpr ha, rfl⟩

/-- The values come in the order of the keys that they are filed under. -/
theorem pairwise_values_lt [Std.LawfulEqCmp cmp] (map : Std.ExtTreeMap α β cmp) :
    map.values.Pairwise fun b b' =>
      ∃ a a' : α, cmp a a' = .lt ∧ map[a]? = some b ∧ map[a']? = some b' := by
  rw [values_eq_toList, List.pairwise_map]
  refine List.Pairwise.imp_of_mem ?_ Std.ExtTreeMap.ordered_keys_toList
  intro x y hx hy hlt
  refine ⟨x.1, y.1, hlt, ?_, ?_⟩
  · exact Std.ExtTreeMap.mem_toList_iff_getElem?_eq_some.mp hx
  · exact Std.ExtTreeMap.mem_toList_iff_getElem?_eq_some.mp hy

/-- Two values in the list are filed under different keys. -/
theorem pairwise_values [Std.LawfulEqCmp cmp] (map : Std.ExtTreeMap α β cmp) :
    map.values.Pairwise fun b b' =>
      ∃ a a' : α, a ≠ a' ∧ map[a]? = some b ∧ map[a']? = some b' := by
  refine (pairwise_values_lt map).imp ?_
  rintro b b' ⟨a, a', hlt, ha, ha'⟩
  refine ⟨a, a', ?_, ha, ha'⟩
  rintro rfl
  have heq : cmp a a = .eq := Std.ReflCmp.compare_self
  rw [heq] at hlt
  cases hlt

/-- Inserting entries one by one is inserting them all. -/
theorem foldl_insert_eq (map : Std.ExtTreeMap α β cmp) (entries : List (α × β)) :
    entries.foldl (fun map (a, b) => map.insert a b) map = map.insertMany entries := by
  induction entries generalizing map with
  | nil => rw [List.foldl_nil, Std.ExtTreeMap.insertMany_nil]
  | cons entry entries ih =>
    obtain ⟨a, b⟩ := entry
    rw [List.foldl_cons, Std.ExtTreeMap.insertMany_cons]
    exact ih _

/-- A map is made of its entries. -/
theorem ofList_toList [Std.LawfulEqCmp cmp] [BEq α] [Std.LawfulBEqCmp cmp]
    (map : Std.ExtTreeMap α β cmp) :
    Std.ExtTreeMap.ofList map.toList cmp = map := by
  refine Std.ExtTreeMap.ext_getElem? fun a => ?_
  cases ha : map[a]? with
  | some b =>
    have hmem := Std.ExtTreeMap.mem_toList_iff_getElem?_eq_some.mpr ha
    exact Std.ExtTreeMap.getElem?_ofList_of_mem Std.ReflCmp.compare_self
      Std.ExtTreeMap.distinct_keys_toList hmem
  | none =>
    apply Std.ExtTreeMap.getElem?_ofList_of_contains_eq_false
    rw [Std.ExtTreeMap.map_fst_toList_eq_keys, Std.ExtTreeMap.contains_keys,
      Std.ExtTreeMap.contains_eq_isSome_getElem?, ha]
    rfl

end SentenceSearch
