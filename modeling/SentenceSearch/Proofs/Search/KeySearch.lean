import SentenceSearch.Proofs.Search.TreeKeys

/-!
# Search for keys

A search for keys finds the payloads of the texts that have the keys in order, in a tree with any
history.

## Main results

* `Records.mem_findKeys_iff` — the search as a tour of cursors
* `Records.exists_occursInOrder`, `Records.mem_findKeys_of_occursInOrder` — soundness and completeness
* `mem_findKeys` — what the search finds
-/

namespace SentenceSearch

open SuffixTree TreeStep SearchKeys

variable {P : Type} {tree : SuffixTree P} {spell : Nat → List Char} {ends : List Char → Array P}
  {table : SymbolTable} {keys : List (List Char)} {limits : SearchLimits} {p : P}

theorem filter_ne_nil_iff : keys.filter (!·.isEmpty) ≠ [] ↔ ∃ key ∈ keys, key ≠ [] := by
  simp [List.filter_eq_nil_iff]

/-- A search goes on from where the first key ends, if it has a key and knows all characters. -/
theorem SuffixTree.Records.mem_findKeys_iff [Ord P] [Std.TransOrd P] [Std.LawfulEqOrd P]
    {given : List (List Char)} (h : Records table tree spell ends) (hmax : limits.maxResults = 0)
    (hdeadline : limits.deadline = none) (hgiven : keys.filter (!·.isEmpty) = given) :
    p ∈ ((tree.source (m := Id)).findKeys table limits keys).run.results ↔
      given ≠ [] ∧ (∀ key ∈ keys, ∀ c ∈ key, table.contains c = true) ∧
        ∃ edge offset, ((tree.source (m := Id)).descend (ofKeys table given)).run =
          .found edge offset ∧ ∃ cursor w, ((tree.source (m := Id)).keyTour (ofKeys table given)
            ⟨edge, offset, 1, 0⟩).Reached cursor ∧ cursor.key = given.length ∧
            w < tree.nodeCount ∧ spell cursor.edge.child <+: spell w ∧ p ∈ ends (spell w) := by
  have hnothing (n : Nat) : p ∉ (SearchOutcome.nothing n : SearchOutcome P).results := by
    simp [SearchOutcome.nothing]
  rw [TreeSource.findKeys]
  cases hlist : ofList? table keys with
  | none =>
    refine ⟨fun hp => absurd hp (hnothing 0), fun hfound => ?_⟩
    rw [ofList?_eq_some_iff.mpr ⟨hfound.2.1, rfl⟩] at hlist
    cases hlist
  | some found =>
    obtain ⟨hknown, rfl⟩ := ofList?_eq_some_iff.mp hlist
    rw [hgiven]
    dsimp only
    rw [count_ofKeys]
    split
    · rename_i hnil
      exact ⟨fun hp => absurd hp (hnothing 0),
        fun hfound => absurd (List.length_eq_zero_iff.mp hnil) hfound.1⟩
    · rename_i hlength
      have hne : given ≠ [] := fun hnil => hlength (List.length_eq_zero_iff.mpr hnil)
      have hkeys : ∀ key ∈ given, key ≠ [] := hgiven ▸ ne_nil_of_mem_filter keys
      have hfits := h.descend_spec hne hkeys
      rw [Id.run_bind]
      cases hdescend : ((tree.source (m := Id)).descend (ofKeys table given)).run with
      | missing =>
        refine ⟨fun hp => absurd hp (hnothing 0), ?_⟩
        rintro ⟨-, -, edge, offset, hfound, -⟩
        cases hfound
      | pruned =>
        refine ⟨fun hp => absurd hp (hnothing 1), ?_⟩
        rintro ⟨-, -, edge, offset, hfound, -⟩
        cases hfound
      | found edge offset =>
        rw [hdescend] at hfits
        have hstart : KeyStart tree spell given ⟨edge, offset, 1, 0⟩ :=
          ⟨hfits.1, rfl, rfl, hne, hkeys⟩
        dsimp only
        rw [hstart.mem_searchKeys_iff h hmax hdeadline
          (Nat.succ_le_succ (card_keySpots_le.trans (Nat.le_succ _)))]
        constructor
        · exact fun hfound => ⟨hne, hknown, edge, offset, rfl, hfound⟩
        · rintro ⟨-, -, edge', offset', heq, hfound⟩
          cases heq
          exact hfound

variable [DecidableEq P] {steps : List (TreeStep P)} {given : List (List Char)} {text : List Char}

/-- A text that has the keys in order has a suffix that begins with the first one. -/
theorem SuffixTree.Records.exists_startsInOrder (h : Records table tree spell (endsAfter steps))
    (hne : given ≠ []) (hkeys : ∀ key ∈ given, key ≠ []) (hmem : (text, p) ∈ inserted steps)
    (hoccurs : OccursInOrder given text) :
    ∃ w, tree.StartsInOrder spell given w ∧ p ∈ endsAfter steps (spell w) := by
  cases given with
  | nil => exact absurd rfl hne
  | cons key given =>
    obtain ⟨before, after, rfl, hafter⟩ := hoccurs
    have hp : p ∈ endsAfter steps (key ++ after) := by
      refine mem_endsAfter.mpr ⟨fun hnil => ?_, _, hmem, before, (List.append_assoc _ _ _).symm⟩
      exact hkeys key List.mem_cons_self (List.append_eq_nil_iff.mp hnil).1
    have hends : endsAfter steps (key ++ after) ≠ #[] := fun hnil => by simp [hnil] at hp
    obtain ⟨w, hw, hspell⟩ := h.settled.stores.ended hends
    exact ⟨w, ⟨hw, after, hspell, hafter⟩, hspell ▸ hp⟩

variable [Ord P] [Std.TransOrd P] [Std.LawfulEqOrd P]

/-- What is found has a key, has nothing but known characters, and is in a text that has the keys in
order. -/
theorem SuffixTree.Records.exists_occursInOrder (h : Records table tree spell (endsAfter steps))
    (hmax : limits.maxResults = 0) (hdeadline : limits.deadline = none)
    (hp : p ∈ ((tree.source (m := Id)).findKeys table limits keys).run.results) :
    (∃ key ∈ keys, key ≠ []) ∧ (∀ key ∈ keys, ∀ c ∈ key, table.contains c = true) ∧
      ∃ text, (text, p) ∈ inserted steps ∧ OccursInOrder (keys.filter (!·.isEmpty)) text := by
  obtain ⟨hne, hknown, edge, offset, hdescend, cursor, w, hreached, hkey, -, hto, hp⟩ :=
    (h.mem_findKeys_iff hmax hdeadline rfl).mp hp
  refine ⟨filter_ne_nil_iff.mp hne, hknown, ?_⟩
  have hkeys := ne_nil_of_mem_filter keys
  have hfits := h.descend_spec hne hkeys
  rw [hdescend] at hfits
  have hstart : KeyStart tree spell (keys.filter (!·.isEmpty)) ⟨edge, offset, 1, 0⟩ :=
    ⟨hfits.1, rfl, rfl, hne, hkeys⟩
  obtain ⟨-, text, hmem, hsuffix⟩ := mem_endsAfter.mp hp
  exact ⟨text, hmem, (hstart.occurs_of_final h.settled.stores.labelled hreached hkey hto).of_suffix
    hsuffix⟩

/-- A text that has the keys in order is found, if there is a key and all characters are known. -/
theorem SuffixTree.Records.mem_findKeys_of_occursInOrder
    (h : Records table tree spell (endsAfter steps)) (hmax : limits.maxResults = 0)
    (hdeadline : limits.deadline = none) (hgiven : ∃ key ∈ keys, key ≠ [])
    (hknown : ∀ key ∈ keys, ∀ c ∈ key, table.contains c = true) (hmem : (text, p) ∈ inserted steps)
    (hoccurs : OccursInOrder (keys.filter (!·.isEmpty)) text) :
    p ∈ ((tree.source (m := Id)).findKeys table limits keys).run.results := by
  have hkeys := ne_nil_of_mem_filter keys
  have hne := filter_ne_nil_iff.mpr hgiven
  obtain ⟨w, hw, hp⟩ := h.exists_startsInOrder hne hkeys hmem hoccurs
  obtain ⟨edge, offset, hdescend, hplace, hto⟩ := (h.descend_spec hne hkeys).exists_found hw
  have hstart : KeyStart tree spell (keys.filter (!·.isEmpty)) ⟨edge, offset, 1, 0⟩ :=
    ⟨hplace, rfl, rfl, hne, hkeys⟩
  obtain ⟨cursor, hreached, hkey, hbelow⟩ := hw.exists_final hstart h hto
  exact (h.mem_findKeys_iff hmax hdeadline rfl).mpr
    ⟨hne, hknown, edge, offset, hdescend, cursor, w, hreached, hkey, hw.1, hbelow, hp⟩

/-- Without limits the search finds the payloads of those inserted texts that have the given keys
in order, if there is a key at all and the table knows all characters. Neither the order of the
steps nor the masks make a difference. -/
theorem mem_findKeys (table : SymbolTable) (steps : List (TreeStep P)) (keys : List (List Char))
    (p : P) :
    p ∈ (Id.run ((ofSteps table steps).source.findKeys table .unlimited keys)).results ↔
      (∃ key ∈ keys, key ≠ []) ∧ (∀ key ∈ keys, ∀ c ∈ key, table.contains c = true) ∧
        ∃ text, (text, p) ∈ inserted steps ∧ OccursInOrder (keys.filter (!·.isEmpty)) text := by
  obtain ⟨spell, hrecords⟩ := exists_records table steps
  constructor
  · exact hrecords.exists_occursInOrder rfl rfl
  · rintro ⟨hgiven, hknown, text, hmem, hoccurs⟩
    exact hrecords.mem_findKeys_of_occursInOrder rfl rfl hgiven hknown hmem hoccurs

/-- Keys that share a text's characters with a gap between them are found, whatever the masks. -/
theorem mem_findKeys_gap :
    7 ∈ (Id.run ((ofSteps (.ofList [('a', 1), ('b', 1), ('c', 4)]) [.insert "ab".toList 3,
      .annotate, .insert "abcab".toList 7]).source.findKeys
        (.ofList [('a', 1), ('b', 1), ('c', 4)]) .unlimited
        ["ab".toList, [], "b".toList])).results := by
  refine (mem_findKeys _ _ _ 7).mpr ⟨⟨"ab".toList, by decide, by decide⟩, ?_, "abcab".toList,
    by simp [inserted, inserted?], ?_⟩
  · simp only [← List.all_eq_true]
    decide
  · exact ⟨[], "cab".toList, by decide, "ca".toList, [], by decide, trivial⟩

end SentenceSearch
