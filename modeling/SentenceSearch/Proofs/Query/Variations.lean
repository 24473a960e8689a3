import Mathlib.Algebra.Ring.Nat
import Mathlib.Data.List.Induction
import Mathlib.Data.List.Nodup
import Mathlib.Data.Set.Function
import SentenceSearch.Query

/-!
# Stars and cuts

A query with stars is a text that has been cut into pieces. The variations of a text are all its
cuts, each written with one star between neighbouring pieces, and the keys of a query are the pieces
of its cut, however many stars there are between them.

## Main definitions

* `Query.cuts` — the ways to cut a text into pieces
* `Query.withStars` — pieces with any numbers of stars between them

## Main results

* `Query.keys_withStars` — the keys are the pieces between the stars
* `Query.mem_variations_iff` — the variations of a text are its cuts with single stars
* `Query.keys_of_variations` — variations and keys undo each other
-/

namespace SentenceSearch.Query

variable {c : Char} {key text rest query : List Char} {pieces later : List (List Char)}

/-! ### Keys -/

theorem pieces_eq_splitOn (text : List Char) : Query.pieces text = text.splitOn gap := by
  induction text with
  | nil => rfl
  | cons c text ih =>
    rw [Query.pieces, ih, List.splitOn_eq_splitOnP, List.splitOn_eq_splitOnP,
      List.splitOnP_cons_eq_if_modifyHead]
    by_cases hc : c = gap
    · rw [if_pos hc, if_pos (beq_iff_eq.mpr hc)]
    · rw [if_neg hc, if_neg (mt beq_iff_eq.mp hc)]
      cases hpieces : text.splitOnP (· == gap) with
      | nil => exact absurd hpieces (List.splitOnP_ne_nil _ _)
      | cons piece pieces => rfl

/-- A star separates the keys on both sides of it. -/
theorem keys_append_gap (text rest : List Char) :
    keys (text ++ gap :: rest) = keys text ++ keys rest := by
  have hsplit : (text ++ gap :: rest).splitOnP (· == gap) =
      text.splitOnP (· == gap) ++ rest.splitOnP (· == gap) :=
    List.splitOnP_append_cons text rest (beq_self_eq_true gap)
  simp only [keys, pieces_eq_splitOn, List.splitOn_eq_splitOnP, hsplit, List.filter_append]

theorem keys_cons_gap (text : List Char) : keys (gap :: text) = keys text :=
  keys_append_gap [] text

theorem keys_replicate_append (n : Nat) (text : List Char) :
    keys (List.replicate n gap ++ text) = keys text := by
  induction n with
  | zero => rfl
  | succ n ih => rw [List.replicate_succ, List.cons_append, keys_cons_gap, ih]

theorem keys_eq_singleton (hne : key ≠ []) (hplain : gap ∉ key) : keys key = [key] := by
  rw [keys, pieces_eq_splitOn, List.splitOn_eq_singleton hplain]
  simpa using hne

/-- A key goes on until a star or the end of the query. -/
theorem keys_append (hne : key ≠ []) (hplain : gap ∉ key)
    (hrest : ∀ c, rest.head? = some c → c = gap) : keys (key ++ rest) = key :: keys rest := by
  cases rest with
  | nil =>
    rw [List.append_nil, keys_eq_singleton hne hplain]
    rfl
  | cons c rest =>
    obtain rfl : c = gap := hrest c rfl
    rw [keys_append_gap, keys_eq_singleton hne hplain, keys_cons_gap, List.singleton_append]

/-- Pieces with stars in front of each of them, as many as it says there, and stars at the end. -/
def withStars (parts : List (Nat × List Char)) (stars : Nat) : List Char :=
  (parts.flatMap fun part => List.replicate part.1 gap ++ part.2) ++ List.replicate stars gap

theorem withStars_cons (part : Nat × List Char) (parts : List (Nat × List Char)) (stars : Nat) :
    withStars (part :: parts) stars =
      List.replicate part.1 gap ++ (part.2 ++ withStars parts stars) := by
  simp [withStars]

/-- The keys of a query are the pieces between its stars. -/
theorem keys_withStars {parts : List (Nat × List Char)} (stars : Nat)
    (hpieces : ∀ part ∈ parts, part.2 ≠ [] ∧ gap ∉ part.2)
    (hstars : ∀ part ∈ parts.tail, 0 < part.1) :
    keys (withStars parts stars) = parts.map Prod.snd := by
  induction parts with
  | nil =>
    have hnone : keys (List.replicate stars gap ++ []) = keys [] := keys_replicate_append stars []
    rwa [List.append_nil] at hnone
  | cons part parts ih =>
    obtain ⟨⟨hne, hplain⟩, hpieces⟩ := List.forall_mem_cons.mp hpieces
    rw [List.tail_cons] at hstars
    -- What follows the piece is empty or starts with a star.
    have hrest : ∀ c, (withStars parts stars).head? = some c → c = gap := by
      intro c hc
      cases parts with
      | nil => exact List.eq_of_mem_replicate (List.mem_of_head? hc)
      | cons next parts =>
        obtain ⟨n, hn⟩ := Nat.exists_eq_succ_of_ne_zero (hstars next List.mem_cons_self).ne'
        rw [withStars_cons, hn, List.replicate_succ, List.cons_append] at hc
        exact (Option.some.inj hc).symm
    have hlater := ih hpieces fun part hpart => hstars part (List.mem_of_mem_tail hpart)
    rw [withStars_cons, keys_replicate_append, keys_append hne hplain hrest, hlater, List.map_cons]

/-! ### Cuts -/

/-- The ways to cut a text into pieces, none of them empty. -/
def cuts (text : List Char) : Set (List (List Char)) :=
  {pieces | pieces.flatten = text ∧ [] ∉ pieces}

/-- The first character of a text is a piece of its own or belongs to the first piece of what is
left. -/
theorem mem_cuts_cons_iff :
    pieces ∈ cuts (c :: text) ↔
      (∃ later ∈ cuts text, pieces = [c] :: later) ∨
        ∃ key later, key :: later ∈ cuts text ∧ pieces = (c :: key) :: later := by
  constructor
  · rintro ⟨hflatten, hne⟩
    rcases pieces with _ | ⟨_ | ⟨d, key⟩, later⟩
    · cases hflatten
    · exact absurd List.mem_cons_self hne
    · obtain ⟨rfl, hrest⟩ : d = c ∧ key ++ later.flatten = text := List.cons.inj hflatten
      have hlater : [] ∉ later := fun hmem => hne (List.mem_cons_of_mem _ hmem)
      by_cases hkey : key = []
      · subst hkey
        exact .inl ⟨later, ⟨hrest, hlater⟩, rfl⟩
      · refine .inr ⟨key, later, ⟨hrest, ?_⟩, rfl⟩
        exact List.not_mem_cons_of_ne_of_not_mem (Ne.symm hkey) hlater
  · rintro (⟨later, ⟨rfl, hne⟩, rfl⟩ | ⟨key, later, ⟨rfl, hne⟩, rfl⟩)
    · exact ⟨rfl, List.not_mem_cons_of_ne_of_not_mem (List.cons_ne_nil _ _).symm hne⟩
    · refine ⟨rfl, List.not_mem_cons_of_ne_of_not_mem (List.cons_ne_nil _ _).symm fun hmem => ?_⟩
      exact hne (List.mem_cons_of_mem _ hmem)

theorem ne_nil_of_mem_cuts (h : pieces ∈ cuts text) (hne : text ≠ []) : pieces ≠ [] := by
  rintro rfl
  exact hne h.1.symm

theorem cuts_singleton (c : Char) : cuts [c] = {[[c]]} := by
  have hnone : ∀ later ∈ cuts [], later = [] := by
    rintro (_ | ⟨key, later⟩) ⟨hflatten, hne⟩
    · rfl
    · rw [List.flatten_cons, List.append_eq_nil_iff] at hflatten
      exact absurd (hflatten.1 ▸ List.mem_cons_self) hne
  ext pieces
  rw [mem_cuts_cons_iff, Set.mem_singleton_iff]
  constructor
  · rintro (⟨later, hlater, rfl⟩ | ⟨key, later, hlater, rfl⟩)
    · rw [hnone later hlater]
    · cases hnone _ hlater
  · rintro rfl
    exact .inl ⟨[], ⟨rfl, List.not_mem_nil⟩, rfl⟩

/-- The pieces of a text without stars have none. -/
theorem gap_not_mem_of_mem_cuts (h : pieces ∈ cuts text) (hplain : gap ∉ text) :
    ∀ piece ∈ pieces, piece ≠ [] ∧ gap ∉ piece := by
  intro piece hpiece
  constructor
  · rintro rfl
    exact h.2 hpiece
  · exact fun hgap => hplain (h.1 ▸ List.mem_flatten_of_mem hpiece hgap)

/-! ### Variations -/

theorem intercalate_cons_singleton (hne : later ≠ []) :
    [gap].intercalate ([c] :: later) = c :: gap :: [gap].intercalate later := by
  obtain ⟨key, later, rfl⟩ := List.exists_cons_of_ne_nil hne
  rw [List.intercalate_cons_cons]
  rfl

theorem intercalate_cons_cons_key (c : Char) (key : List Char) (later : List (List Char)) :
    [gap].intercalate ((c :: key) :: later) = c :: [gap].intercalate (key :: later) := by
  cases later with
  | nil => rw [List.intercalate_singleton, List.intercalate_singleton]
  | cons next later =>
    rw [List.intercalate_cons_cons, List.intercalate_cons_cons]
    rfl

/-- Each variation of the rest is there twice: first without and then with a star in front. -/
theorem variations_cons (c : Char) (hne : text ≠ []) :
    variations (c :: text) =
      (variations text).map (c :: ·) ++ (variations text).map (c :: gap :: ·) := by
  obtain ⟨d, text, rfl⟩ := List.exists_cons_of_ne_nil hne
  rfl

theorem length_variations (hne : text ≠ []) :
    (variations text).length = 2 ^ (text.length - 1) := by
  induction text, hne using List.recNeNil with
  | singleton c => rfl
  | cons c text hne ih =>
    have hlength : text.length - 1 + 1 = text.length :=
      Nat.sub_add_cancel (List.length_pos_iff.mpr hne)
    rw [variations_cons c hne, List.length_append, List.length_map, List.length_map, ih,
      List.length_cons, Nat.add_sub_cancel, ← Nat.mul_two, ← Nat.pow_succ, Nat.succ_eq_add_one,
      hlength]

theorem head?_variations (hne : text ≠ []) : (variations text).head? = some text := by
  induction text, hne using List.recNeNil with
  | singleton c => rfl
  | cons c text hne ih =>
    rw [variations_cons c hne, List.head?_append, List.head?_map, ih]
    rfl

/-- The variations of a text are its cuts, with one star between every two neighbours. -/
theorem mem_variations_iff (hne : text ≠ []) :
    query ∈ variations text ↔ ∃ pieces ∈ cuts text, [gap].intercalate pieces = query := by
  induction text, hne using List.recNeNil generalizing query with
  | singleton c =>
    rw [variations, List.mem_singleton, cuts_singleton]
    simp [eq_comm]
  | cons c text hne ih =>
    rw [variations_cons c hne, List.mem_append, List.mem_map, List.mem_map]
    constructor
    · rintro (⟨query, hquery, rfl⟩ | ⟨query, hquery, rfl⟩) <;>
        obtain ⟨pieces, hpieces, rfl⟩ := ih.mp hquery <;>
        obtain ⟨key, later, rfl⟩ := List.exists_cons_of_ne_nil (ne_nil_of_mem_cuts hpieces hne)
      · exact ⟨_, mem_cuts_cons_iff.mpr (.inr ⟨key, later, hpieces, rfl⟩),
          intercalate_cons_cons_key c key later⟩
      · exact ⟨_, mem_cuts_cons_iff.mpr (.inl ⟨_, hpieces, rfl⟩),
          intercalate_cons_singleton (List.cons_ne_nil key later)⟩
    · rintro ⟨pieces, hpieces, rfl⟩
      rcases mem_cuts_cons_iff.mp hpieces with ⟨later, hlater, rfl⟩ | ⟨key, later, hlater, rfl⟩
      · exact .inr ⟨_, ih.mpr ⟨later, hlater, rfl⟩,
          (intercalate_cons_singleton (ne_nil_of_mem_cuts hlater hne)).symm⟩
      · exact .inl ⟨_, ih.mpr ⟨_, hlater, rfl⟩, (intercalate_cons_cons_key c key later).symm⟩

/-- A variation starts as the text does. -/
theorem head?_of_mem_variations (h : query ∈ variations text) : query.head? = text.head? := by
  cases text with
  | nil => cases h
  | cons c text =>
    by_cases hne : text = []
    · subst hne
      rw [List.mem_singleton.mp h]
    · rw [variations_cons c hne, List.mem_append, List.mem_map, List.mem_map] at h
      rcases h with ⟨later, -, rfl⟩ | ⟨later, -, rfl⟩ <;> rfl

/-- Without stars in the text no variation is there twice. -/
theorem nodup_variations (hne : text ≠ []) (hplain : gap ∉ text) : (variations text).Nodup := by
  induction text, hne using List.recNeNil with
  | singleton c => exact List.nodup_singleton _
  | cons c text hne ih =>
    have hrest : gap ∉ text := fun hgap => hplain (List.mem_cons_of_mem c hgap)
    have hnodup := ih hrest
    rw [variations_cons c hne]
    refine List.Nodup.append (hnodup.map List.cons_injective)
      (hnodup.map (List.cons_injective.comp List.cons_injective)) ?_
    intro query hwithout hwith
    obtain ⟨left, hleft, rfl⟩ := List.mem_map.mp hwithout
    obtain ⟨right, -, hright⟩ := List.mem_map.mp hwith
    -- A star as the second character would be a star of the text.
    obtain rfl : gap :: right = left := (List.cons.inj hright).2
    have hhead : text.head? = some gap := (head?_of_mem_variations hleft).symm
    exact hrest (List.mem_of_head? hhead)

/-- The keys of a cut with single stars are its pieces. -/
theorem keys_intercalate (hne : pieces ≠ []) (h : ∀ piece ∈ pieces, piece ≠ [] ∧ gap ∉ piece) :
    keys ([gap].intercalate pieces) = pieces := by
  rw [keys, pieces_eq_splitOn, List.splitOn_intercalate gap (fun piece hpiece => (h piece hpiece).2)
    hne, List.filter_eq_self]
  intro piece hpiece
  simpa using (h piece hpiece).1

/-- The keys of the variations of a text are its cuts, each of them once. -/
theorem bijOn_keys (hne : text ≠ []) (hplain : gap ∉ text) :
    Set.BijOn keys {query | query ∈ variations text} (cuts text) := by
  have hkeys : ∀ pieces ∈ cuts text, keys ([gap].intercalate pieces) = pieces :=
    fun pieces hpieces => keys_intercalate (ne_nil_of_mem_cuts hpieces hne)
      (gap_not_mem_of_mem_cuts hpieces hplain)
  have hinverse : Set.InvOn [gap].intercalate keys {query | query ∈ variations text}
      (cuts text) := by
    refine ⟨fun query hquery => ?_, hkeys⟩
    obtain ⟨pieces, hpieces, rfl⟩ := (mem_variations_iff hne).mp hquery
    rw [hkeys pieces hpieces]
  refine hinverse.bijOn (fun query hquery => ?_) fun pieces hpieces => ?_
  · obtain ⟨pieces, hpieces, rfl⟩ := (mem_variations_iff hne).mp hquery
    rwa [hkeys pieces hpieces]
  · exact (mem_variations_iff hne).mpr ⟨pieces, hpieces, rfl⟩

/-- Variations and keys undo each other. A text without stars that has `n` characters has
`2 ^ (n - 1)` variations, all different and itself the first one, and their keys are all the ways to
cut it. The keys of any pieces with stars between them are these pieces. -/
theorem keys_of_variations :
    (∀ text : List Char, text ≠ [] → gap ∉ text →
      (variations text).length = 2 ^ (text.length - 1) ∧ (variations text).Nodup ∧
      (variations text).head? = some text ∧
      Set.BijOn keys {query | query ∈ variations text}
        {pieces | pieces.flatten = text ∧ [] ∉ pieces}) ∧
    ∀ (parts : List (Nat × List Char)) (stars : Nat),
      (∀ part ∈ parts, part.2 ≠ [] ∧ gap ∉ part.2) → (∀ part ∈ parts.tail, 0 < part.1) →
      keys (withStars parts stars) = parts.map Prod.snd :=
  ⟨fun _ hne hplain => ⟨length_variations hne, nodup_variations hne hplain, head?_variations hne,
      bijOn_keys hne hplain⟩,
    fun _ stars hpieces hstars => keys_withStars stars hpieces hstars⟩

/-- A text with a character that occurs twice, and stars in front of, between and after pieces. -/
theorem keys_of_variations_repeated :
    "あいあ".toList ≠ [] ∧ gap ∉ "あいあ".toList ∧
    (∀ part ∈ [(2, ['あ']), (1, ['い', 'あ']), (3, ['い'])], part.2 ≠ [] ∧ gap ∉ part.2) ∧
    (∀ part ∈ [(2, ['あ']), (1, ['い', 'あ']), (3, ['い'])].tail, 0 < part.1) ∧
    ((variations "あいあ".toList).length = 4 ∧ (variations "あいあ".toList).Nodup ∧
      (variations "あいあ".toList).head? = some "あいあ".toList ∧
      Set.BijOn keys {query | query ∈ variations "あいあ".toList}
        {pieces | pieces.flatten = "あいあ".toList ∧ [] ∉ pieces}) ∧
    keys "**あ*いあ***い*".toList = [['あ'], ['い', 'あ'], ['い']] := by
  have hne : "あいあ".toList ≠ [] := by decide
  have hplain : gap ∉ "あいあ".toList := by decide
  have hpieces : ∀ part ∈ [(2, ['あ']), (1, ['い', 'あ']), (3, ['い'])],
      part.2 ≠ [] ∧ gap ∉ part.2 := by decide
  have hstars : ∀ part ∈ [(2, ['あ']), (1, ['い', 'あ']), (3, ['い'])].tail, 0 < part.1 := by decide
  exact ⟨hne, hplain, hpieces, hstars, keys_of_variations.1 _ hne hplain,
    keys_of_variations.2 _ 1 hpieces hstars⟩

-- The later a star is put, the earlier the variation comes.
example : variations "あいう".toList =
    ["あいう".toList, "あい*う".toList, "あ*いう".toList, "あ*い*う".toList] := by decide

end SentenceSearch.Query
