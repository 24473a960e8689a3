import Mathlib.Algebra.BigOperators.Fin
import Mathlib.Algebra.Order.BigOperators.Group.Finset
import Mathlib.Algebra.Order.BigOperators.Group.List
import Mathlib.Data.Fintype.Card
import Mathlib.Tactic.Ring
import SentenceSearch.Proofs.Symbol.Spreading

/-!
# How far the buckets are from even

The heaviest bucket is at most `4/3 - 1/(3m)` times as heavy as it has to be with `m` buckets. Let a
character be the last one of the heaviest bucket. Without it the bucket is no heavier than any other
one, so that what the buckets hold together bounds what they can hold at the least. This is enough
if the character is at most a third of that. Otherwise no assignment can put three of the characters
up to this one into one bucket, and when it was placed, its bucket was no heavier than the
characters that open the first buckets. One of these has to share a bucket in every other assignment
as well.

## Main definitions

* `heaviest` — the largest of some masses
* `massIn` — the mass of a bucket in an assignment of characters to buckets

## Main results

* `exists_crowded` — where there are more things than bins, three of them share a bin, or one of the
  first does not have its bin for itself
* `Spread.massOf_le_of_least` — the lightest part is no heavier than the first entries
* `Spread.exists_turn` — what held when an entry joined a part
* `Spread.three_mul_massOf_le` — each part against any assignment
* `three_mul_heaviest_le` — the heaviest bucket against any assignment
-/

namespace SentenceSearch

/-- The largest of some masses, or zero if there are none. -/
def heaviest (masses : List Nat) : Nat := masses.foldr max 0

theorem le_heaviest {masses : List Nat} {mass : Nat} (h : mass ∈ masses) :
    mass ≤ heaviest masses := by
  induction masses with
  | nil => cases h
  | cons other masses ih =>
    rcases List.mem_cons.mp h with rfl | h
    · exact le_max_left _ _
    · exact (ih h).trans (le_max_right _ _)

theorem heaviest_eq_zero_or_mem (masses : List Nat) :
    heaviest masses = 0 ∨ heaviest masses ∈ masses := by
  induction masses with
  | nil => exact Or.inl rfl
  | cons mass masses ih =>
    change max mass (heaviest masses) = 0 ∨ max mass (heaviest masses) ∈ mass :: masses
    rcases le_total mass (heaviest masses) with h | h
    · rw [max_eq_right h]
      exact ih.imp_right (List.mem_cons_of_mem _)
    · rw [max_eq_left h]
      exact Or.inr List.mem_cons_self

/-- The mass of a bucket when each character goes to the bucket where it is placed. -/
def massIn {count : Nat} (place : Char → Fin count) (frequencies : List (Char × Nat))
    (bucket : Fin count) : Nat :=
  massOf (frequencies.filter fun entry => place entry.1 = bucket)

section Placement

variable {count : Nat} {place : Char → Fin count} {entries others : List (Char × Nat)}
  {bucket : Fin count} {bound : Nat}

theorem massIn_eq_of_perm (h : entries.Perm others) :
    massIn place entries bucket = massIn place others bucket := massOf_eq_of_perm (h.filter _)

theorem massIn_append_left (place : Char → Fin count) (entries others : List (Char × Nat))
    (bucket : Fin count) :
    massIn place entries bucket ≤ massIn place (entries ++ others) bucket := by
  rw [massIn, massIn, List.filter_append, massOf_append]
  exact Nat.le_add_right _ _

/-- The buckets together have the mass of all entries. -/
theorem sum_massIn (place : Char → Fin count) (entries : List (Char × Nat)) :
    ∑ bucket, massIn place entries bucket = massOf entries := by
  induction entries with
  | nil => simp [massIn]
  | cons entry entries ih =>
    have hcons (bucket : Fin count) : massIn place (entry :: entries) bucket =
        (if place entry.1 = bucket then entry.2 else 0) + massIn place entries bucket := by
      rw [massIn, List.filter_cons]
      by_cases h : place entry.1 = bucket
      · simp [h, massIn]
      · simp [h, massIn]
    simp only [hcons, Finset.sum_add_distrib, Finset.sum_ite_eq, Finset.mem_univ, if_true, ih,
      massOf_cons]

/-- What is in a bucket, from the number of the entries there and a bound on each of them. -/
theorem mul_le_massOf {weight : Nat} (h : ∀ entry ∈ entries, weight ≤ entry.2) :
    entries.length * weight ≤ massOf entries := by
  have hsum := List.card_nsmul_le_sum (entries.map Prod.snd) weight (List.forall_mem_map.mpr h)
  rwa [List.length_map, smul_eq_mul] at hsum

end Placement

/-! ### Sharing bins -/

/-- Where there are more things than bins, three of them share a bin, or one of the first does not
have its bin for itself. Here the first are as many as could have it at the most if none of the
others were in threes. -/
theorem exists_crowded {β : Type} [Fintype β] [DecidableEq β] (bins : List β)
    (h : Fintype.card β < bins.length) :
    (∃ b, 3 ≤ bins.count b) ∨
      ∃ b ∈ bins.take (2 * Fintype.card β + 1 - bins.length), 2 ≤ bins.count b := by
  set first := bins.take (2 * Fintype.card β + 1 - bins.length) with hfirst
  by_contra hnone
  simp only [not_or, not_exists, not_and, Nat.not_le] at hnone
  obtain ⟨hthree, htwo⟩ := hnone
  have hnodup : first.Nodup := by
    rw [List.nodup_iff_count_le_one]
    intro b
    by_cases hb : b ∈ first
    · exact ((List.take_sublist _ _).count_le b).trans (Nat.le_of_lt_succ (htwo b hb))
    · rw [List.count_eq_zero.mpr hb]
      exact Nat.zero_le 1
  -- A bin has room for two things, and less if one of the first is in it.
  have hroom (b : β) : bins.count b + (if b ∈ first.toFinset then 1 else 0) ≤ 2 := by
    by_cases hb : b ∈ first
    · have hcount := htwo b hb
      simp only [List.mem_toFinset, hb, if_true]
      omega
    · have hcount := hthree b
      simp only [List.mem_toFinset, hb, if_false]
      omega
  have hsum := Finset.sum_le_card_nsmul Finset.univ _ 2 fun b _ => hroom b
  have hcount : ∑ b, bins.count b = bins.length := by
    have hall := Multiset.sum_count_eq_card (s := Finset.univ) (m := (bins : Multiset β))
      fun b _ => Finset.mem_univ b
    simpa using hall
  have hcard : ∑ b : β, (if b ∈ first.toFinset then 1 else 0) = first.length := by
    rw [Finset.sum_boole, Finset.filter_mem_eq_inter, Finset.univ_inter,
      List.toFinset_card_of_nodup hnodup, Nat.cast_id]
  rw [Finset.sum_add_distrib, hcount, hcard, hfirst, List.length_take, Finset.card_univ,
    smul_eq_mul] at hsum
  omega

namespace Bucketing

variable {count weight : Nat} {symbols front : List (Char × Nat)}
  {parts : List (List (Char × Nat))} {part : List (Char × Nat)} {last : Char × Nat}

/-! ### The lightest part -/

theorem mul_le_massOf_flatten (h : ∀ part ∈ parts, weight ≤ massOf part) :
    parts.length * weight ≤ massOf parts.flatten := by
  induction parts with
  | nil => simp
  | cons part parts ih =>
    obtain ⟨hpart, hrest⟩ := List.forall_mem_cons.mp h
    rw [List.length_cons, Nat.succ_mul, List.flatten_cons, massOf_append, Nat.add_comm]
    exact Nat.add_le_add hpart (ih hrest)

theorem mul_le_length_flatten (h : ∀ part ∈ parts, weight ≤ part.length) :
    parts.length * weight ≤ parts.flatten.length := by
  have hsum := List.card_nsmul_le_sum (parts.map List.length) weight (List.forall_mem_map.mpr h)
  rwa [List.length_map, smul_eq_mul, ← List.length_flatten] at hsum

/-- Each part starts with the entry that opened it. -/
theorem Spread.head?_eq (h : Spread count symbols parts) {i : Nat} (hpart : parts[i]? = some part) :
    part.head? = symbols[i]? := by
  induction h generalizing i part with
  | opened hlength =>
    rw [List.getElem?_map] at hpart
    obtain ⟨entry, hentry, rfl⟩ := Option.map_eq_some_iff.mp hpart
    exact hentry.symm
  | @joined symbols old before after h hfull hleast entry ih =>
    have hi : i < symbols.length := by
      have hlength := h.length_eq
      have hi := (List.getElem?_eq_some_iff.mp hpart).1
      simp only [List.length_append, List.length_cons] at hlength hi
      omega
    rw [List.getElem?_append_left hi]
    rw [getElem?_replaced before after old] at hpart
    split at hpart
    · rename_i hplace
      subst hplace
      have hold : old.head? = symbols[before.length]? := ih (by simp)
      have hne : old ≠ [] := h.ne_nil (List.mem_append_right _ List.mem_cons_self)
      rw [← hold, ← Option.some_inj.mp hpart, List.head?_append_of_ne_nil _ hne]
    · exact ih hpart

/-- If there are not enough entries for two in each part from some part on, one of these parts has
nothing but the entry that opened it. -/
theorem Spread.exists_lone (h : Spread count symbols parts) (hfull : count ≤ symbols.length)
    {place : Nat} (hfew : symbols.length + place < 2 * count) :
    ∃ i entry, place ≤ i ∧ symbols[i]? = some entry ∧ [entry] ∈ parts := by
  have hparts : parts.length = count := by rw [h.length_eq, Nat.min_eq_left hfull]
  have hshort : ∃ part ∈ parts.drop place, part.length < 2 := by
    by_contra hnone
    simp only [not_exists, not_and, Nat.not_lt] at hnone
    have htake : (parts.take place).length * 1 ≤ (parts.take place).flatten.length :=
      mul_le_length_flatten fun part hpart =>
        List.length_pos_iff.mpr (h.ne_nil (List.mem_of_mem_take hpart))
    have hdrop := mul_le_length_flatten hnone
    have hlength := h.flatten_perm.length_eq
    rw [← List.take_append_drop place parts, List.flatten_append, List.length_append] at hlength
    rw [List.length_take] at htake
    rw [List.length_drop] at hdrop
    omega
  obtain ⟨part, hpart, hlength⟩ := hshort
  obtain ⟨i, hi⟩ := List.getElem?_of_mem hpart
  rw [List.getElem?_drop] at hi
  obtain ⟨entry, rest, rfl⟩ := List.exists_cons_of_ne_nil (h.ne_nil (List.mem_of_mem_drop hpart))
  obtain rfl : rest = [] := List.length_eq_zero_iff.mp (by rw [List.length_cons] at hlength; omega)
  exact ⟨place + i, entry, Nat.le_add_right _ _, (h.head?_eq hi).symm, List.mem_of_mem_drop hpart⟩

/-- While fewer than two entries for each part have been spread, the lightest part is no heavier
than any of the first entries. -/
theorem Spread.massOf_le_of_least (h : Spread count symbols parts)
    (hsorted : symbols.Pairwise fun a b => b.2 ≤ a.2) (hfull : count ≤ symbols.length)
    (hleast : ∀ other ∈ parts, massOf part ≤ massOf other) :
    ∀ first ∈ symbols.take (2 * count - symbols.length), massOf part ≤ first.2 := by
  intro first hfirst
  obtain ⟨j, hj, rfl⟩ := List.getElem_of_mem hfirst
  rw [List.length_take] at hj
  rw [List.getElem_take]
  have hfew : symbols.length + j < 2 * count := by omega
  obtain ⟨i, entry, hplace, hentry, hlone⟩ := h.exists_lone hfull hfew
  obtain ⟨hi, rfl⟩ := List.getElem?_eq_some_iff.mp hentry
  have hle := hleast _ hlone
  rw [massOf_cons, massOf_nil, Nat.add_zero] at hle
  -- The part that is alone was opened by an entry that comes later, or by this one.
  rcases Nat.eq_or_lt_of_le hplace with rfl | hlt
  · exact hle
  · exact hle.trans (List.pairwise_iff_getElem.mp hsorted j i _ hi hlt)

/-- When an entry joined a part, all parts had been opened, and the part was no heavier than any of
the first entries. -/
theorem Spread.exists_turn (h : Spread count symbols parts)
    (hsorted : symbols.Pairwise fun a b => b.2 ≤ a.2) (hpart : front ++ [last] ∈ parts)
    (hfront : front ≠ []) :
    ∃ earlier later, symbols = earlier ++ last :: later ∧ count ≤ earlier.length ∧
      ∀ first ∈ earlier.take (2 * count - earlier.length), massOf front ≤ first.2 := by
  induction h generalizing front last with
  | opened hlength =>
    exact absurd hpart (not_mem_opened hfront)
  | @joined symbols part before after h hfull hleast entry ih =>
    have hearly := (List.pairwise_append.mp hsorted).1
    rcases mem_or_eq_of_mem_joined hpart with hold | hnew
    · obtain ⟨earlier, later, rfl, hearlier, hturn⟩ := ih hearly hold hfront
      exact ⟨earlier, later ++ [entry], by simp, hearlier, hturn⟩
    · obtain ⟨rfl, hlast⟩ := List.append_inj' hnew rfl
      obtain rfl := List.singleton_inj.mp hlast
      exact ⟨symbols, [], rfl, hfull, h.massOf_le_of_least hearly hfull hleast⟩

/-- Against any assignment of the same entries, a part with two entries or more is no heavier than
the heaviest bucket there, or its last entry is at most a third of that bucket. -/
theorem Spread.le_or_three_mul_le (h : Spread count symbols parts)
    (hsorted : symbols.Pairwise fun a b => b.2 ≤ a.2) (hpart : front ++ [last] ∈ parts)
    (hfront : front ≠ []) {place : Char → Fin count} {bound : Nat}
    (hbound : ∀ bucket, massIn place symbols bucket ≤ bound) :
    massOf front + last.2 ≤ bound ∨ 3 * last.2 ≤ bound := by
  obtain ⟨earlier, later, rfl, hearlier, hturn⟩ := h.exists_turn hsorted hpart hfront
  rw [← List.singleton_append, ← List.append_assoc] at hsorted hbound
  have hlast : ∀ entry ∈ earlier ++ [last], last.2 ≤ entry.2 := by
    intro entry hentry
    rcases List.mem_append.mp hentry with hentry | hentry
    · exact (List.pairwise_append.mp (List.pairwise_append.mp hsorted).1).2.2 entry hentry last
        (List.mem_singleton_self last)
    · rw [List.mem_singleton.mp hentry]
  have hearly (bucket : Fin count) : massIn place (earlier ++ [last]) bucket ≤ bound :=
    (massIn_append_left place _ _ bucket).trans (hbound bucket)
  have hcount (bucket : Fin count) :
      ((earlier ++ [last]).map fun entry => place entry.1).count bucket =
        ((earlier ++ [last]).filter fun entry => place entry.1 = bucket).length := by
    rw [List.count, List.countP_map, List.countP_eq_length_filter]
    rfl
  have hcrowded := exists_crowded ((earlier ++ [last]).map fun entry => place entry.1)
    (by simpa using Nat.lt_succ_of_le hearlier)
  simp only [hcount] at hcrowded
  rcases hcrowded with ⟨bucket, hthree⟩ | ⟨bucket, hfirst, htwo⟩
  · -- All that were spread up to the last entry are no lighter than it.
    right
    calc 3 * last.2
        ≤ ((earlier ++ [last]).filter fun entry => place entry.1 = bucket).length * last.2 :=
          Nat.mul_le_mul_right _ hthree
      _ ≤ massIn place (earlier ++ [last]) bucket :=
          mul_le_massOf fun entry hentry => hlast entry (List.mem_of_mem_filter hentry)
      _ ≤ bound := hearly bucket
  · -- The part was no heavier than the first one of the two.
    left
    rw [← List.map_take, List.length_map, List.length_append, List.length_singleton,
      Fintype.card_fin, List.take_append_of_le_length (by omega)] at hfirst
    obtain ⟨first, hmem, rfl⟩ := List.mem_map.mp hfirst
    rw [show 2 * count + 1 - (earlier.length + 1) = 2 * count - earlier.length by omega] at hmem
    set both := (earlier ++ [last]).filter fun entry => place entry.1 = place first.1 with hboth
    have hfirst : first ∈ both :=
      List.mem_filter.mpr ⟨List.mem_append_left _ (List.mem_of_mem_take hmem), by simp⟩
    have hother : (both.erase first).length * last.2 ≤ massOf (both.erase first) :=
      mul_le_massOf fun entry hentry =>
        hlast entry (List.mem_of_mem_filter (List.mem_of_mem_erase hentry))
    rw [List.length_erase_of_mem hfirst] at hother
    calc massOf front + last.2
        ≤ first.2 + (both.length - 1) * last.2 :=
          Nat.add_le_add (hturn first hmem) (Nat.le_mul_of_pos_left _ (by omega))
      _ ≤ first.2 + massOf (both.erase first) := Nat.add_le_add_left hother _
      _ = massOf both := by rw [massOf_eq_of_perm (List.perm_cons_erase hfirst), massOf_cons]
      _ ≤ bound := hearly _

/-- Each part is at least as heavy as one with two entries or more is without its last one. -/
theorem Spread.mul_massOf_add_le (h : Spread count symbols parts) (hfull : count ≤ symbols.length)
    (hpart : front ++ [last] ∈ parts) (hfront : front ≠ []) :
    count * massOf front + last.2 ≤ massOf symbols := by
  have hlightest : ∀ other ∈ parts, massOf front ≤ massOf other :=
    fun other hother => h.massOf_le hpart hfront hother
  obtain ⟨before, after, rfl⟩ := List.append_of_mem hpart
  have hle : ∀ other ∈ before ++ front :: after, massOf front ≤ massOf other := by
    intro other hother
    rcases List.mem_append.mp hother with hother | hother
    · exact hlightest other (List.mem_append_left _ hother)
    · rcases List.mem_cons.mp hother with rfl | hother
      · exact le_rfl
      · exact hlightest other (List.mem_append_right _ (List.mem_cons_of_mem _ hother))
  have hlength : (before ++ front :: after).length = count := by
    rw [← Nat.min_eq_left hfull, ← h.length_eq, List.length_append, List.length_append,
      List.length_cons, List.length_cons]
  rw [← massOf_eq_of_perm h.flatten_perm,
    massOf_eq_of_perm (flatten_joined_perm before after front last), massOf_append, massOf_cons,
    massOf_nil, Nat.add_zero, ← hlength]
  exact Nat.add_le_add_right (mul_le_massOf_flatten hle) _

/-- No part is heavier than `4/3 - 1/(3m)` times the heaviest of `m` buckets of an assignment. -/
theorem Spread.three_mul_massOf_le (h : Spread count symbols parts)
    (hsorted : symbols.Pairwise fun a b => b.2 ≤ a.2) (hpart : part ∈ parts)
    {place : Char → Fin count} {bound : Nat}
    (hbound : ∀ bucket, massIn place symbols bucket ≤ bound) :
    3 * count * massOf part ≤ (4 * count - 1) * bound := by
  obtain ⟨front, last, rfl⟩ := (List.eq_nil_or_concat' part).resolve_left (h.ne_nil hpart)
  obtain ⟨k, rfl⟩ := Nat.exists_eq_add_one.mpr (place last.1).pos
  have hfactor : 4 * (k + 1) - 1 = 3 * (k + 1) + k := by omega
  rw [massOf_append, massOf_cons, massOf_nil, Nat.add_zero, hfactor]
  have hfits (hle : massOf front + last.2 ≤ bound) :
      3 * (k + 1) * (massOf front + last.2) ≤ (3 * (k + 1) + k) * bound :=
    Nat.mul_le_mul (Nat.le_add_right _ _) hle
  by_cases hfront : front = []
  · -- The entry is alone, and somewhere it has to be.
    subst hfront
    have hmem : last ∈ symbols :=
      h.flatten_perm.mem_iff.mp (List.mem_flatten_of_mem hpart (List.mem_singleton_self last))
    have hlast : last.2 ≤ massIn place symbols (place last.1) :=
      List.le_sum_of_mem (List.mem_map_of_mem (List.mem_filter.mpr ⟨hmem, by simp⟩))
    exact hfits (by simpa using hlast.trans (hbound _))
  · rcases h.le_or_three_mul_le hsorted hpart hfront hbound with hle | hthird
    · exact hfits hle
    · obtain ⟨earlier, later, hsymbols, hearlier, -⟩ := h.exists_turn hsorted hpart hfront
      have hfull : k + 1 ≤ symbols.length := by
        rw [hsymbols, List.length_append]
        exact Nat.le_add_right_of_le hearlier
      have htotal : massOf symbols ≤ (k + 1) * bound := by
        have hsum := Finset.sum_le_card_nsmul Finset.univ _ bound fun bucket _ => hbound bucket
        rwa [sum_massIn, Finset.card_univ, Fintype.card_fin, smul_eq_mul] at hsum
      have hmean := (h.mul_massOf_add_le hfull hpart hfront).trans htotal
      calc 3 * (k + 1) * (massOf front + last.2)
          = 3 * ((k + 1) * massOf front + last.2) + k * (3 * last.2) := by ring
        _ ≤ 3 * ((k + 1) * bound) + k * bound :=
            Nat.add_le_add (Nat.mul_le_mul_left 3 hmean) (Nat.mul_le_mul_left k hthird)
        _ = (3 * (k + 1) + k) * bound := by ring

end Bucketing

open Bucketing

/-- However the characters are assigned to the buckets, the heaviest load is at most `4/3 - 1/(3m)`
times as heavy as the heaviest bucket of that assignment, where `m` is the number of buckets. -/
theorem three_mul_heaviest_le (bucketing : Bucketing) (frequencies : List (Char × Nat))
    (place : Char → Fin bucketing.count) :
    3 * bucketing.count * heaviest ((bucketing.loads frequencies).map BucketLoad.mass) ≤
      (4 * bucketing.count - 1) *
        heaviest ((List.finRange bucketing.count).map (massIn place frequencies)) := by
  obtain ⟨parts, hspread, hkeeps⟩ := bucketing.exists_spread_fill frequencies
  have hsorted : (ranked frequencies).Pairwise fun a b => b.2 ≤ a.2 :=
    (pairwise_ranked frequencies).imp fun h =>
      (before_iff.mp h).elim Nat.le_of_lt fun h => h.1.ge
  have hbound (bucket : Fin bucketing.count) : massIn place (ranked frequencies) bucket ≤
      heaviest ((List.finRange bucketing.count).map (massIn place frequencies)) := by
    rw [massIn_eq_of_perm (ranked_perm frequencies)]
    exact le_heaviest (List.mem_map_of_mem (List.mem_finRange bucket))
  rcases heaviest_eq_zero_or_mem ((bucketing.loads frequencies).map BucketLoad.mass) with
    hzero | hmem
  · rw [hzero, Nat.mul_zero]
    exact Nat.zero_le _
  · obtain ⟨load, hload, hmass⟩ := List.mem_map.mp hmem
    obtain ⟨i, part, hpart, rfl⟩ := hkeeps.mem_loads_iff.mp hload
    rw [← hmass]
    exact hspread.three_mul_massOf_le hsorted (List.mem_of_getElem? hpart) hbound

/-- The bound is reached: two buckets are filled with 7 and 5, where 6 and 6 would do. -/
example : heaviest ((Bucketing.loads ⟨2, by decide, by decide⟩
      [('a', 3), ('b', 3), ('c', 2), ('d', 2), ('e', 2)]).map BucketLoad.mass) = 7 ∧
    heaviest ((List.finRange 2).map (massIn (fun c => if c ≤ 'b' then (0 : Fin 2) else 1)
      [('a', 3), ('b', 3), ('c', 2), ('d', 2), ('e', 2)])) = 6 :=
  ⟨by cbv, by cbv⟩

end SentenceSearch
